import GraphInference.Proofs.Traversal.Meaning

/-!
# What patterns say

A property says something of the concepts that stand for the variables of its statement
(`Property.Reads`), a conjunction what all its properties say. The fragment sets that are made for a
conjunction convey just this: `FragmentSet.conveys_of_gives`. The ownership of an attribute is the one
property that hides a concept: the relation between owner and value has no variable in the pattern.
-/

namespace GraphInference

/-! ## Readings -/

/-- Owner and value of an attribute play their roles in one relation of its implicit type. -/
structure Graph.Owns (g : Graph) (look : Var → Option ConceptId) (owner : Var) (owned : Label)
    (value : Var) (c c' : Casting) : Prop where
  ownerPlays : ∃ e, g.Plays e c
  valuePlays : ∃ e, g.Plays e c'
  relation : c'.relation = c.relation
  type : ∃ t ∈ g.concepts, t.label = some owned.ownership ∧ g.IsA c.relation t.id
  ownerRole : c.role = owned.ownerRole
  valueRole : c'.role = owned.valueRole
  owner : look owner = some c.player
  value : look value = some c'.player

namespace Property

/-- What a property of `x` says of the concepts of its variables. -/
def Reads (g : Graph) (look : Var → Option ConceptId) (x : Var) : Property → Prop
  | isa t => t.Reads g look x
  | relation ps => ∃ cs : List Casting,
      cs.Nodup ∧ List.Forall₂ (fun p c => g.Stands look x p.role p.player c) ps cs
  | has owned v p => (∃ c c', g.Owns look x owned v c c') ∧ ∀ q ∈ p, Constraint.Reads g look v q
  | value p => p.Reads g look x
  | identity id => g.Holds id ∧ look x = some id

/-- The variables that a property of `x` names; no players name none. -/
def Names (x : Var) : Property → Var → Prop
  | isa t, v => t.Names x v
  | relation ps, v => ∃ p ∈ ps, v = x ∨ v = p.player
  | has _ w _, v => v = x ∨ v = w
  | value _, v => v = x
  | identity _, v => v = x

end Property

namespace Statement

def Reads (s : Statement) (g : Graph) (look : Var → Option ConceptId) : Prop :=
  ∀ p ∈ s.properties, p.Reads g look s.subject

def Names (s : Statement) (v : Var) : Prop :=
  ∃ p ∈ s.properties, p.Names s.subject v

end Statement

namespace Conjunction

def Reads (c : Conjunction) (g : Graph) (look : Var → Option ConceptId) : Prop :=
  ∀ s ∈ c.statements, s.Reads g look

def Names (c : Conjunction) (v : Var) : Prop :=
  ∃ s ∈ c.statements, s.Names v

/-- The conjunction names no variable that is generated from the `n`-th on. -/
def FreshFrom (c : Conjunction) (n : Nat) : Prop :=
  ∀ k, n ≤ k → ¬ c.Names (.generated k)

end Conjunction

/-! ## Reading the named variables -/

section Congruence

variable {g : Graph} {look look' : Var → Option ConceptId} {x v : Var}

theorem TypeRef.Reads.congr {t : TypeRef} (heq : ∀ v, t.Names x v → look v = look' v)
    (h : t.Reads g look x) : t.Reads g look' x := by
  cases t with
  | label l =>
    obtain ⟨i, t, ht, hl, hisA, hi⟩ := h
    exact ⟨i, t, ht, hl, hisA, (heq x rfl).symm.trans hi⟩
  | var v =>
    obtain ⟨i, t, hisA, hi, ht⟩ := h
    exact ⟨i, t, hisA, (heq x (.inl rfl)).symm.trans hi, (heq v (.inr rfl)).symm.trans ht⟩

theorem TypeRef.Reads.exists_of_names {t : TypeRef} (h : t.Reads g look x) (hv : t.Names x v) :
    ∃ id, look v = some id := by
  cases t with
  | label l =>
    obtain ⟨i, t, -, -, -, hi⟩ := h
    exact ⟨i, hv ▸ hi⟩
  | var w =>
    obtain ⟨i, t, -, hi, ht⟩ := h
    rcases hv with rfl | rfl
    · exact ⟨i, hi⟩
    · exact ⟨t, ht⟩

theorem Constraint.Reads.congr {p : Constraint} (heq : look x = look' x) (h : p.Reads g look x) :
    p.Reads g look' x := by
  obtain ⟨c, hc, hx, hvalue⟩ := h
  exact ⟨c, hc, heq ▸ hx, hvalue⟩

theorem Property.Reads.congr {p : Property} (heq : ∀ v, p.Names x v → look v = look' v)
    (h : p.Reads g look x) : p.Reads g look' x := by
  cases p with
  | isa t => exact TypeRef.Reads.congr heq h
  | relation ps =>
    obtain ⟨cs, hnodup, hcs⟩ := h
    refine ⟨cs, hnodup, forall₂_imp_of_mem hcs fun p hp c hc => ⟨hc.plays, ?_, hc.role, ?_⟩⟩
    · exact (heq x ⟨p, hp, .inl rfl⟩).symm.trans hc.relation
    · exact (heq p.player ⟨p, hp, .inr rfl⟩).symm.trans hc.player
  | has owned value p =>
    obtain ⟨⟨c, c', hc⟩, hp⟩ := h
    refine ⟨⟨c, c', { hc with owner := ?_, value := ?_ }⟩, fun q hq => (hp q hq).congr ?_⟩
    · exact (heq x (.inl rfl)).symm.trans hc.owner
    · exact (heq value (.inr rfl)).symm.trans hc.value
    · exact heq value (.inr rfl)
  | value p => exact Constraint.Reads.congr (heq x rfl) h
  | identity id => exact ⟨h.1, (heq x rfl).symm.trans h.2⟩

/-- A property holds only if its variables stand for concepts. -/
theorem Property.Reads.exists_of_names {p : Property} (h : p.Reads g look x) (hv : p.Names x v) :
    ∃ id, look v = some id := by
  cases p with
  | isa t => exact TypeRef.Reads.exists_of_names h hv
  | relation ps =>
    obtain ⟨cs, -, hcs⟩ := h
    obtain ⟨p, hp, hv⟩ := hv
    obtain ⟨c, -, hc⟩ := exists_of_forall₂_of_mem hcs hp
    rcases hv with rfl | rfl
    · exact ⟨_, hc.relation⟩
    · exact ⟨_, hc.player⟩
  | has owned value p =>
    obtain ⟨⟨c, c', hc⟩, -⟩ := h
    rcases hv with rfl | rfl
    · exact ⟨_, hc.owner⟩
    · exact ⟨_, hc.value⟩
  | value p =>
    obtain ⟨c, -, hx, -⟩ := h
    exact ⟨c.id, hv ▸ hx⟩
  | identity id => exact ⟨id, hv ▸ h.2⟩

theorem Conjunction.Reads.congr {c : Conjunction} (heq : ∀ v, c.Names v → look v = look' v)
    (h : c.Reads g look) : c.Reads g look' :=
  fun s hs p hp => (h s hs p hp).congr fun v hv => heq v ⟨s, hs, p, hp, hv⟩

theorem Conjunction.Reads.exists_of_names {c : Conjunction} (h : c.Reads g look) (hv : c.Names v) :
    ∃ id, look v = some id := by
  obtain ⟨s, hs, p, hp, hv⟩ := hv
  exact (h s hs p hp).exists_of_names hv

end Congruence

/-! ## Fragment sets of statements -/

namespace FragmentSet

open Attempt

variable {g : Graph} {look : Var → Option ConceptId}

/-- Whatever the supply, the sets that are made convey `P`. -/
def Imparts (g : Graph) (x : Fresh (List FragmentSet)) (names : Var → Prop)
    (P : (Var → Option ConceptId) → Prop) : Prop :=
  ∀ s : Supply, Conveys g s.vars (x.run s).2.vars (x.run s).1 names P

theorem Spells.imparts {x : Fresh (List FragmentSet)} {names : Var → Prop}
    {P : (Var → Option ConceptId) → Prop} (h : Spells g x names P) : Imparts g x names P :=
  fun s => (h s).toConveys

/-- A generated variable that the pattern does not name stands for any concept that fits. -/
theorem Conveys.hide {m n : Nat} {sets : List FragmentSet} {names : Var → Prop}
    {P P' : (Var → Option ConceptId) → Prop}
    (h : Conveys g (m + 1) n sets (fun v => v = .generated m ∨ names v) P)
    (htotal : ∀ look, P' look → ∀ v, names v → ∃ id, look v = some id)
    (hcongr : ∀ look look', (∀ v, names v → look v = look' v) → P' look → P' look')
    (hsound : ∀ look, P look → P' look)
    (hcomplete : ¬ names (.generated m) → ∀ look, P' look →
      ∃ id, P (Function.update look (.generated m) (some id))) :
    Conveys g m n sets names P' where
  le := (Nat.le_succ m).trans h.le
  mentions v := by
    rw [h.mentions, hidden_trans (Nat.le_succ m) h.le, hidden_succ]
    tauto
  total := htotal
  congr := hcongr
  sound a ha := hsound _ (h.sound a ha)
  complete := by
    intro hfresh look a hP ha
    have hnot : ¬ names (.generated m) := hfresh m le_rfl
    obtain ⟨id, hid⟩ := hcomplete hnot look hP
    have hfresh' : ∀ k, m + 1 ≤ k → ¬ (Var.generated k = .generated m ∨ names (.generated k)) := by
      rintro k hk (heq | hn)
      · have := Var.generated_injective heq
        omega
      · exact hfresh k (by omega) hn
    obtain ⟨b, hb, hholds⟩ := h.complete hfresh' _ (a.insert (.generated m) (g.element id)) hid <| by
      rintro v (rfl | hv)
      · rw [SortedMap.find?_insert_self, Function.update_self, Option.map_some]
      · have hne : v ≠ .generated m := fun e => hnot (e ▸ hv)
        rw [SortedMap.find?_insert_of_ne _ _ hne, Function.update_of_ne hne, ha v hv]
    refine ⟨b, fun v hv => ?_, hholds⟩
    have hne : v ≠ .generated m := by
      rintro rfl
      exact hv ⟨m, le_rfl, (Nat.lt_succ_self m).trans_le h.le, rfl⟩
    rw [hb v fun ⟨k, hk, hk', he⟩ => hv ⟨k, (Nat.le_succ m).trans hk, hk', he⟩,
      SortedMap.find?_insert_of_ne _ _ hne]

/-! ### Ownership -/

/-- The castings of owner and value belong to one relation, which is of the implicit type. -/
def OwnsThrough (g : Graph) (look : Var → Option ConceptId) (relation owner : Var) (owned : Label)
    (value : Var) : Prop :=
  (TypeRef.label owned.ownership).Reads g look relation ∧
    (∃ cs : List Casting, cs.Nodup ∧ List.Forall₂ (Fits g look relation (some (only owned.ownership)))
      [⟨some owned.ownerRole, owner⟩] cs) ∧
    ∃ cs : List Casting, cs.Nodup ∧ List.Forall₂ (Fits g look relation (some (only owned.ownership)))
      [⟨some owned.valueRole, value⟩] cs

theorem OwnsThrough.owns {relation owner value : Var} {owned : Label}
    (h : OwnsThrough g look relation owner owned value) :
    ∃ c c', g.Owns look owner owned value c c' := by
  obtain ⟨⟨i, t, ht, hl, hisA, hi⟩, ⟨cs, -, hcs⟩, ⟨cs', -, hcs'⟩⟩ := h
  obtain ⟨c, _, hc, hnil, rfl⟩ := List.forall₂_cons_left_iff.mp hcs
  obtain ⟨c', _, hc', hnil', rfl⟩ := List.forall₂_cons_left_iff.mp hcs'
  have hrelation : c.relation = i := Option.some.inj (hc.1.relation.symm.trans hi)
  have hrelation' : c'.relation = i := Option.some.inj (hc'.1.relation.symm.trans hi)
  exact ⟨c, c', hc.1.plays, hc'.1.plays, hrelation'.trans hrelation.symm,
    ⟨t, ht, hl, hrelation ▸ hisA⟩, hc.1.role _ rfl, hc'.1.role _ rfl, hc.1.player, hc'.1.player⟩

/-- The relation of an ownership may stand for a variable that is neither owner nor value. -/
theorem exists_ownsThrough {relation owner value : Var} {owned : Label} {c c' : Casting}
    (h : g.Owns look owner owned value c c') (howner : owner ≠ relation) (hvalue : value ≠ relation) :
    OwnsThrough g (Function.update look relation (some c.relation)) relation owner owned value := by
  have hrelation := Function.update_self relation (some c.relation) look
  obtain ⟨t, ht, hl, hisA⟩ := h.type
  have hamong (d : Casting) (hd : d.relation = c.relation) :
      TypeAmong g (some (only owned.ownership)) d := by
    intro labels hlabels
    obtain rfl := Option.some.inj hlabels
    exact ⟨t, ht, hd ▸ hisA, owned.ownership, by simp [only], hl⟩
  refine ⟨⟨c.relation, t, ht, hl, hisA, hrelation⟩, ⟨[c], List.nodup_singleton c, .cons ⟨⟨h.ownerPlays,
    hrelation, fun l hl => ?_, ?_⟩, hamong c rfl⟩ .nil⟩, ⟨[c'], List.nodup_singleton c', .cons
      ⟨⟨h.valuePlays, ?_, fun l hl => ?_, ?_⟩, hamong c' h.relation⟩ .nil⟩⟩
  · exact h.ownerRole.trans (Option.some.inj hl)
  · rw [Function.update_of_ne howner, h.owner]
  · rw [hrelation, h.relation]
  · exact h.valueRole.trans (Option.some.inj hl)
  · rw [Function.update_of_ne hvalue, h.value]

theorem imparts_ofHas (hg : g.WellFormed) (description : String) (owner : Var) (owned : Label)
    (value : Var) (predicate : Option Constraint) :
    Imparts g (ofHas description owner owned value predicate)
      ((Property.has owned value predicate).Names owner)
      fun look => (Property.has owned value predicate).Reads g look owner := by
  intro s
  let relation := Var.generated s.vars
  let types := some (only owned.ownership)
  let after (k : Nat) : Supply := { s with vars := s.vars + k }
  have hisa := (spells_ofIsa hg relation (.label owned.ownership) (after 1)).toConveys
  have howner := (@spells_ofPlayers g relation types [⟨some owned.ownerRole, owner⟩] hg description
    (after 2)).toConveys
  have hvalue := (@spells_ofPlayers g relation types [⟨some owned.valueRole, value⟩] hg description
    (after 3)).toConveys
  have hfilter : Imparts g (pure (predicate.toList.map fun p => ⟨description, [.valued value p]⟩))
      (fun v => predicate.isSome ∧ v = value) fun look => ∀ q ∈ predicate, q.Reads g look value := by
    intro s
    cases predicate with
    | none => exact (Conveys.nil g s.vars).of_iff (fun v => by simp) fun look => by simp
    | some p =>
      exact (spells_value description value p s).toConveys.of_iff (fun v => by simp)
        fun look => by simp
  have hall := (hisa.append (howner.append hvalue)).append (hfilter (after 4))
  refine Conveys.hide (hall.of_iff (fun v => ?_) fun look => Iff.rfl)
    (fun look h v hv => h.exists_of_names hv) (fun look look' heq h => h.congr heq) ?_ ?_
  · simp only [TypeRef.Names, Property.Names, List.mem_singleton, exists_eq_left]
    show _ ↔ v = relation ∨ _
    tauto
  · rintro look ⟨hthrough, hpredicate⟩
    exact ⟨OwnsThrough.owns hthrough, hpredicate⟩
  · rintro hnot look ⟨⟨c, c', hc⟩, hpredicate⟩
    have howner : owner ≠ relation := fun e => hnot (.inl e.symm)
    have hvalue : value ≠ relation := fun e => hnot (.inr e.symm)
    refine ⟨c.relation, exists_ownsThrough hc howner hvalue, fun q hq => (hpredicate q hq).congr ?_⟩
    exact (Function.update_of_ne hvalue _ _).symm

/-! ### Statements -/

/-- The types that the links of a relation accept. -/
def accepted : Option TypeRef → Option (SortedSet Label)
  | some (.label l) => some (only l)
  | _ => none

/-- The castings of a relation are of its type, where the relation is read to have it. -/
theorem forall₂_fits_iff {x : Var} {type : Option TypeRef} (htype : ∀ t ∈ type, t.Reads g look x)
    {ps : List RolePlayer} {cs : List Casting} :
    List.Forall₂ (Fits g look x (accepted type)) ps cs ↔
      List.Forall₂ (fun p c => g.Stands look x p.role p.player c) ps cs := by
  constructor
  · exact List.Forall₂.imp fun p c h => h.1
  · refine List.Forall₂.imp fun p c h => ⟨h, fun labels hlabels => ?_⟩
    unfold accepted at hlabels
    split at hlabels
    · next l =>
      obtain rfl := Option.some.inj hlabels
      obtain ⟨i, t, ht, hl, hisA, hi⟩ := htype _ rfl
      obtain rfl := Option.some.inj (hi.symm.trans h.relation)
      exact ⟨t, ht, hisA, l, by simp [only], hl⟩
    · cases hlabels

/-- What the sets of a property convey: what the property says, and of the castings of a relation that
they are of the type that the statement gives first. -/
def ReadsIn (g : Graph) (look : Var → Option ConceptId) (s : Statement) : Property → Prop
  | .relation ps => ∃ cs : List Casting,
      cs.Nodup ∧ List.Forall₂ (Fits g look s.subject (accepted s.type?)) ps cs
  | p => p.Reads g look s.subject

theorem imparts_ofProperty (hg : g.WellFormed) (s : Statement) (p : Property) :
    Imparts g (ofProperty s p) (p.Names s.subject) fun look => ReadsIn g look s p := by
  cases p with
  | isa t => exact (spells_ofIsa hg s.subject t).imparts
  | relation ps => exact (@spells_ofPlayers g s.subject (accepted s.type?) ps hg _).imparts
  | has owned value p => exact imparts_ofHas hg _ s.subject owned value p
  | value p => exact (spells_value _ s.subject p).imparts
  | identity id => exact (spells_identity _ s.subject id).imparts

/-- With all its properties a statement says no more of the castings. -/
theorem forall_readsIn_iff {s : Statement} :
    (∀ p ∈ s.properties, ReadsIn g look s p) ↔ s.Reads g look := by
  have htype (h : ∀ t, .isa t ∈ s.properties → t.Reads g look s.subject) :
      ∀ t ∈ s.type?, t.Reads g look s.subject := by
    intro t ht
    obtain ⟨p, hp, hpt⟩ := List.exists_of_findSome?_eq_some ht
    cases p with
    | isa t' => exact h t (Option.some.inj hpt ▸ hp)
    | _ => cases hpt
  constructor
  · intro h p hp
    have hp' := h p hp
    cases p with
    | relation ps =>
      obtain ⟨cs, hnodup, hcs⟩ := hp'
      exact ⟨cs, hnodup, (forall₂_fits_iff (htype fun t ht => h _ ht)).mp hcs⟩
    | _ => exact hp'
  · intro h p hp
    have hp' := h p hp
    cases p with
    | relation ps =>
      obtain ⟨cs, hnodup, hcs⟩ := hp'
      exact ⟨cs, hnodup, (forall₂_fits_iff (htype fun t ht => h _ ht)).mpr hcs⟩
    | _ => exact hp'

theorem imparts_ofStatement (hg : g.WellFormed) (s : Statement) :
    Imparts g (ofStatement s) s.Names (s.Reads g ·) := by
  -- the sets of the properties come one after the other
  have hlist (ps : List Property) : Imparts g (return (← ps.mapM (ofProperty s)).flatten)
      (fun v => ∃ p ∈ ps, p.Names s.subject v) fun look => ∀ p ∈ ps, ReadsIn g look s p := by
    induction ps with
    | nil => exact fun u => (Conveys.nil g u.vars).of_iff (fun v => by simp) fun look => by simp
    | cons p ps ih =>
      intro u
      have happend := (imparts_ofProperty hg s p u).append (ih ((ofProperty s p).run u).2)
      have hrun : (do return (← (p :: ps).mapM (ofProperty s)).flatten : Fresh _).run u =
          (((ofProperty s p).run u).1 ++
            ((do return (← ps.mapM (ofProperty s)).flatten : Fresh _).run
              ((ofProperty s p).run u).2).1,
            ((do return (← ps.mapM (ofProperty s)).flatten : Fresh _).run
              ((ofProperty s p).run u).2).2) := by
        rw [List.mapM_cons]
        rfl
      rw [hrun]
      exact happend.of_iff (fun v => by simp) fun look => by simp
  exact fun u => (hlist s.properties u).of_iff (fun v => Iff.rfl) fun look => forall_readsIn_iff

/-! ## Fragment sets of conjunctions -/

theorem gives_ofStatements_cons {st : Statement} {statements : List Statement} {s t : Supply}
    {sets : List FragmentSet} : (ofStatements (st :: statements)).Gives s sets t ↔
      ((ofStatement st).run s).1 ≠ [] ∧ ∃ rest,
        (ofStatements statements).Gives ((ofStatement st).run s).2 rest t ∧
          sets = ((ofStatement st).run s).1 ++ rest := by
  constructor
  · intro h
    obtain ⟨head, u, hhead, h⟩ := gives_bind.mp h
    have hhead := gives_lift.mp hhead
    dsimp only at h
    split at h
    · obtain ⟨_, _, h, -⟩ := gives_bind.mp h
      exact absurd h not_gives_throw
    · next hne =>
      obtain ⟨rest, v, hrest, h⟩ := gives_bind.mp h
      obtain ⟨rfl, rfl⟩ := gives_pure.mp h
      rw [hhead]
      exact ⟨fun e => hne (List.isEmpty_iff.mpr e), rest, hrest, rfl⟩
  · rintro ⟨hne, rest, hrest, rfl⟩
    generalize hrun : (ofStatement st).run s = head at hne hrest
    obtain ⟨head, u⟩ := head
    refine gives_bind.mpr ⟨head, u, gives_lift.mpr hrun, ?_⟩
    dsimp only
    rw [if_neg fun e => hne (List.isEmpty_iff.mp e)]
    exact gives_bind.mpr ⟨_, _, hrest, gives_pure.mpr ⟨rfl, rfl⟩⟩

/-- The sets of a conjunction convey what it says. -/
theorem conveys_of_gives (hg : g.WellFormed) {c : Conjunction} {s t : Supply}
    {sets : List FragmentSet} (h : (ofConjunction c).Gives s sets t) :
    Conveys g s.vars t.vars sets c.Names (c.Reads g ·) := by
  obtain ⟨statements⟩ := c
  have h : (ofStatements statements).Gives s sets t := h
  induction statements generalizing s sets with
  | nil =>
    obtain ⟨rfl, rfl⟩ := gives_pure.mp h
    exact (Conveys.nil g s.vars).of_iff (fun v => by simp [Conjunction.Names])
      fun look => by simp [Conjunction.Reads]
  | cons st statements ih =>
    obtain ⟨-, rest, hrest, rfl⟩ := gives_ofStatements_cons.mp h
    exact ((imparts_ofStatement hg st s).append (ih hrest hrest)).of_iff
      (fun v => by simp [Conjunction.Names]) fun look => by simp [Conjunction.Reads]

end FragmentSet

end GraphInference
