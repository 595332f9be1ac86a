import GraphInference.Proofs.Query.Class
import GraphInference.Proofs.Query.Equivalence

/-!
# What decomposition keeps

The atomic queries of a decomposed conjunction say together what its statements say, but for the types
and relations that a statement gives after its first: `Decomposition.exists_reads_joint_iff`. The
relations of owned attributes have variables of their own in the queries, which may stand for whatever
fits; every other variable keeps its concept.
-/

namespace GraphInference

/-! ## What is kept -/

namespace Statement

/-- A property that decomposition reads: of types and of relations the first. -/
def Keeps (s : Statement) : Property → Prop
  | .isa t => s.type? = some t
  | .relation ps => s.players? = some ps
  | p => p ∈ s.properties

/-- What the properties that are kept say. -/
def ReadsKept (s : Statement) (g : Graph) (look : Var → Option ConceptId) : Prop :=
  ∀ p, s.Keeps p → p.Reads g look s.subject

/-- The statement gives one type and one relation at the most. -/
structure Single (s : Statement) : Prop where
  type : ∀ t t', .isa t ∈ s.properties → .isa t' ∈ s.properties → t = t'
  relation : ∀ ps ps', .relation ps ∈ s.properties → .relation ps' ∈ s.properties → ps = ps'

variable {s : Statement} {p : Property} {g : Graph} {look : Var → Option ConceptId}

theorem mem_of_type? {t : TypeRef} (h : s.type? = some t) : .isa t ∈ s.properties := by
  obtain ⟨p, hp, hpt⟩ := List.exists_of_findSome?_eq_some h
  cases p with
  | isa t' => exact Option.some.inj hpt ▸ hp
  | _ => cases hpt

theorem mem_of_players? {ps : List RolePlayer} (h : s.players? = some ps) :
    .relation ps ∈ s.properties := by
  obtain ⟨p, hp, hps⟩ := List.exists_of_findSome?_eq_some h
  cases p with
  | relation ps' => exact Option.some.inj hps ▸ hp
  | _ => cases hps

theorem Keeps.mem (h : s.Keeps p) : p ∈ s.properties := by
  cases p with
  | isa t => exact mem_of_type? h
  | relation ps => exact mem_of_players? h
  | _ => exact h

/-- Statements with one type and one relation are kept as they are. -/
theorem Single.keeps_iff (h : s.Single) : s.Keeps p ↔ p ∈ s.properties := by
  refine ⟨Keeps.mem, fun hp => ?_⟩
  cases p with
  | isa t =>
    obtain ⟨t', ht'⟩ : ∃ t', s.type? = some t' :=
      Option.isSome_iff_exists.mp (List.findSome?_isSome_iff.mpr ⟨_, hp, rfl⟩)
    exact h.type t' t (mem_of_type? ht') hp ▸ ht'
  | relation ps =>
    obtain ⟨ps', hps'⟩ : ∃ ps', s.players? = some ps' :=
      Option.isSome_iff_exists.mp (List.findSome?_isSome_iff.mpr ⟨_, hp, rfl⟩)
    exact h.relation ps' ps (mem_of_players? hps') hp ▸ hps'
  | _ => exact hp

theorem Single.readsKept_iff (h : s.Single) : s.ReadsKept g look ↔ s.Reads g look :=
  forall_congr' fun _ => imp_congr_left h.keeps_iff

theorem ReadsKept.congr {look' : Var → Option ConceptId} (heq : ∀ v, s.Names v → look v = look' v)
    (h : s.ReadsKept g look) : s.ReadsKept g look' :=
  fun p hp => (h p hp).congr fun v hv => heq v ⟨p, hp.mem, hv⟩

theorem mem_ownerships {o : Label × Var × Option Constraint} :
    o ∈ s.ownerships ↔ .has o.1 o.2.1 o.2.2 ∈ s.properties := by
  rw [ownerships, List.mem_filterMap]
  constructor
  · rintro ⟨p, hp, ho⟩
    cases p with
    | has owned v predicate => exact Option.some.inj ho ▸ hp
    | _ => cases ho
  · exact fun h => ⟨_, h, rfl⟩

theorem mem_constraints {c : Constraint} : c ∈ s.constraints ↔ .value c ∈ s.properties := by
  rw [constraints, List.mem_filterMap]
  constructor
  · rintro ⟨p, hp, hc⟩
    cases p with
    | value c' => exact Option.some.inj hc ▸ hp
    | _ => cases hc
  · exact fun h => ⟨_, h, rfl⟩

theorem mem_ids {id : ConceptId} : id ∈ s.ids ↔ .identity id ∈ s.properties := by
  rw [ids, List.mem_filterMap]
  constructor
  · rintro ⟨p, hp, hid⟩
    cases p with
    | identity id' => exact Option.some.inj hid ▸ hp
    | _ => cases hid
  · exact fun h => ⟨_, h, rfl⟩

/-- What is kept of a statement: its type, its players, what it owns, and its predicates. -/
theorem readsKept_iff : s.ReadsKept g look ↔
    (((∀ ps ∈ s.players?, (Property.relation ps).Reads g look s.subject) ∧
        ∀ t ∈ s.type?, t.Reads g look s.subject) ∧
      ∀ o ∈ s.ownerships, ∃ c c', g.Owns look s.subject o.1 o.2.1 c c') ∧
    (∀ o ∈ s.ownerships, ∀ p ∈ o.2.2, p.Reads g look o.2.1) ∧
    (∀ p ∈ s.constraints, p.Reads g look s.subject) ∧
    ∀ id ∈ s.ids, g.Holds id ∧ look s.subject = some id := by
  simp only [mem_ownerships, mem_constraints, mem_ids]
  constructor
  · intro h
    exact ⟨⟨⟨fun ps hps => h (.relation ps) hps, fun t ht => h (.isa t) ht⟩,
      fun o ho => (h (.has o.1 o.2.1 o.2.2) ho).1⟩, fun o ho => (h (.has o.1 o.2.1 o.2.2) ho).2,
      fun p hp => h (.value p) hp, fun id hid => h (.identity id) hid⟩
  · rintro ⟨⟨⟨hps, ht⟩, howned⟩, hpredicate, hvalue, hid⟩ p hp
    cases p with
    | isa t => exact ht t hp
    | relation ps => exact hps ps hp
    | has owned v predicate => exact ⟨howned (owned, v, predicate) hp, hpredicate (owned, v, predicate) hp⟩
    | value p => exact hvalue p hp
    | identity id => exact hid id hp

end Statement

/-! ## Atoms with generated variables -/

namespace Decomposition

open Attempt FragmentSet

/-- The atoms, made while the supply went from `m` to `n` variables, ask for `P` of the concepts of
the named variables. -/
structure Asks (g : Graph) (m n : Nat) (atoms : List Atom) (names : Var → Prop)
    (P : (Var → Option ConceptId) → Prop) : Prop where
  le : m ≤ n
  scope : ∀ a ∈ atoms, ∀ v, a.Names v → names v ∨ Hidden m n v
  congr : ∀ look look', (∀ v, names v → look v = look' v) → P look → P look'
  sound : ∀ look, (∀ a ∈ atoms, a.Matches g look) → P look
  complete : (∀ k, m ≤ k → ¬ names (.generated k)) → ∀ look, P look → ∃ look',
    (∀ v, ¬ Hidden m n v → look' v = look v) ∧ ∀ a ∈ atoms, a.Matches g look'

variable {g : Graph} {t : Transaction} {l m n : Nat} {atoms atoms' : List Atom}
  {names names' : Var → Prop} {P P' : (Var → Option ConceptId) → Prop} {s s' : Supply}

namespace Asks

theorem nil (g : Graph) (m : Nat) (names : Var → Prop) : Asks g m m [] names fun _ => True where
  le := le_rfl
  scope := fun _ ha => nomatch ha
  congr := fun _ _ _ h => h
  sound := fun _ _ => trivial
  complete := fun _ look _ => ⟨look, fun _ _ => rfl, fun _ ha => nomatch ha⟩

theorem of_iff (h : Asks g m n atoms names P) (hnames : ∀ v, names v ↔ names' v)
    (hP : ∀ look, P look ↔ P' look) : Asks g m n atoms names' P' := by
  obtain rfl : names = names' := funext fun v => propext (hnames v)
  obtain rfl : P = P' := funext fun look => propext (hP look)
  exact h

/-- Atoms that name no generated variable. -/
theorem of_matches (hmn : m ≤ n) (hnames : ∀ a ∈ atoms, ∀ v, a.Names v → names v)
    (hcongr : ∀ look look', (∀ v, names v → look v = look' v) → P look → P look')
    (hP : ∀ look, (∀ a ∈ atoms, a.Matches g look) ↔ P look) : Asks g m n atoms names P where
  le := hmn
  scope a ha v hv := .inl (hnames a ha v hv)
  congr := hcongr
  sound look := (hP look).mp
  complete _ look h := ⟨look, fun _ _ => rfl, (hP look).mpr h⟩

/-- Atoms made one after the other ask together for what each asks for. -/
theorem append (hg : g.WellFormed) (hplain : ∀ a ∈ atoms, a.Plain) (h : Asks g l m atoms names P)
    (h' : Asks g m n atoms' names' P') :
    Asks g l n (atoms ++ atoms') (fun v => names v ∨ names' v) fun look => P look ∧ P' look where
  le := h.le.trans h'.le
  scope a ha v hv := by
    rw [hidden_trans h.le h'.le]
    rcases List.mem_append.mp ha with ha | ha
    · exact (h.scope a ha v hv).imp .inl .inl
    · exact (h'.scope a ha v hv).imp .inr .inr
  congr look look' heq := And.imp (h.congr look look' fun v hv => heq v (.inl hv))
    (h'.congr look look' fun v hv => heq v (.inr hv))
  sound look hmatches := ⟨h.sound look fun a ha => hmatches a (List.mem_append_left _ ha),
    h'.sound look fun a ha => hmatches a (List.mem_append_right _ ha)⟩
  complete := by
    rintro hfresh look ⟨hP, hP'⟩
    obtain ⟨look₁, heq₁, hatoms⟩ := h.complete (fun k hk hn => hfresh k hk (.inl hn)) look hP
    have hout (v : Var) (hv : names' v) : ¬ Hidden l m v := by
      rintro ⟨k, hk, -, rfl⟩
      exact hfresh k hk (.inr hv)
    have hP₁ := h'.congr look look₁ (fun v hv => (heq₁ v (hout v hv)).symm) hP'
    obtain ⟨look₂, heq₂, hatoms'⟩ :=
      h'.complete (fun k hk hn => hfresh k (h.le.trans hk) (.inr hn)) look₁ hP₁
    refine ⟨look₂, fun v hv => ?_, fun a ha => ?_⟩
    · rw [hidden_trans h.le h'.le, not_or] at hv
      rw [heq₂ v hv.2, heq₁ v hv.1]
    · rcases List.mem_append.mp ha with ha | ha
      · refine (hatoms a ha).congr hg (hplain a ha) fun v hv => (heq₂ v ?_).symm
        rcases h.scope a ha v hv with hv | hv
        · rintro ⟨k, hk, -, rfl⟩
          exact hfresh k (h.le.trans hk) (.inl hv)
        · exact not_hidden_of_hidden hv
      · exact hatoms' a ha

end Asks

/-! ## Central atoms -/

theorem label?_ofLabel? (l : Option Label) : (Role.ofLabel? l).label? = l := by
  cases l <;> rfl

/-- The anchor has the type that the statement gives. -/
theorem type?_of_gives_anchor {x : Var} {type : Option TypeRef} {c : Anchor}
    (h : (anchor t x type).Gives s c s') (htype : ∀ v, type = some (.var v) → v.isEmpty = false) :
    c.var = x ∧ c.type? = type ∧ s.vars ≤ s'.vars := by
  unfold anchor at h
  split at h
  · obtain ⟨id, u, hid, h⟩ := gives_bind.mp h
    obtain ⟨-, rfl⟩ := gives_liftExcept.mp hid
    obtain ⟨v, w, hv, h⟩ := gives_bind.mp h
    obtain ⟨rfl, rfl⟩ := gives_pure.mp h
    obtain ⟨-, rfl⟩ := Prod.mk.inj (gives_lift.mp hv)
    exact ⟨rfl, rfl, Nat.le_succ _⟩
  · next v =>
    obtain ⟨rfl, rfl⟩ := gives_pure.mp h
    refine ⟨rfl, ?_, le_rfl⟩
    simp [Anchor.type?, htype v rfl]
  · obtain ⟨rfl, rfl⟩ := gives_pure.mp h
    exact ⟨rfl, rfl, le_rfl⟩

/-- A loop whose steps draw nothing from the supply draws nothing. -/
theorem eq_of_gives_forIn {α β : Type} {f : α → β → Attempt (ForInStep β)} {l : List α} {b r : β}
    (hf : ∀ a b u x v, (f a b).Gives u x v → u = v) (h : (forIn l b f).Gives s r s') : s = s' := by
  induction l generalizing s b with
  | nil =>
    rw [List.forIn_nil] at h
    exact (gives_pure.mp h).2
  | cons a l ih =>
    rw [List.forIn_cons] at h
    obtain ⟨x, u, hx, h⟩ := gives_bind.mp h
    obtain rfl := hf a b s x u hx
    cases x with
    | done b => exact (gives_pure.mp h).2
    | yield b => exact ih h

theorem asks_of_gives_relationAtom {st : Statement} {ps : List RolePlayer} {a : Atom}
    (h : (relationAtom t st ps).Gives s a s') (hps : st.players? = some ps)
    (htype : ∀ v, st.type? = some (.var v) → v.isEmpty = false) :
    Asks g s.vars s'.vars [a] st.Names fun look =>
      (Property.relation ps).Reads g look st.subject ∧ ∀ t ∈ st.type?, t.Reads g look st.subject := by
  obtain ⟨c, u, hc, h⟩ := gives_bind.mp h
  obtain ⟨_, u', hroles, h⟩ := gives_bind.mp h
  obtain ⟨rfl, rfl⟩ := gives_pure.mp h
  obtain ⟨hvar, hctype, hle⟩ := type?_of_gives_anchor hc htype
  obtain rfl : u = u' := by
    refine eq_of_gives_forIn (fun p _ v r w h => ?_) hroles
    split at h
    · obtain ⟨_, x, hid, h⟩ := gives_bind.mp h
      exact (gives_liftExcept.mp hid).2.trans (gives_pure.mp h).2
    · exact (gives_pure.mp h).2
  refine .of_matches hle (fun a ha v hv => ?_) (fun look look' heq h => ⟨?_, ?_⟩) fun look => ?_
  · obtain rfl := List.mem_singleton.mp ha
    rcases hv with ⟨_, hp, hv⟩ | ⟨t, ht, hv⟩
    · obtain ⟨p, hp', rfl⟩ := List.mem_map.mp hp
      exact ⟨_, Statement.mem_of_players? hps, p, hp', hvar ▸ hv⟩
    · exact ⟨_, Statement.mem_of_type? (hctype ▸ ht), hvar ▸ hv⟩
  · exact h.1.congr fun v hv => heq v ⟨_, Statement.mem_of_players? hps, hv⟩
  · exact fun t ht => (h.2 t ht).congr fun v hv => heq v ⟨_, Statement.mem_of_type? ht, hv⟩
  · simp only [List.mem_singleton, forall_eq, Atom.Matches, hvar, hctype, List.forall₂_map_left_iff,
      label?_ofLabel?, Property.Reads]
    exact and_comm

theorem ownerRole_ne_valueRole (owned : Label) : owned.ownerRole ≠ owned.valueRole := by
  intro h
  have h := congrArg (fun l => l.text.toList) h
  simp [Label.ownerRole, Label.valueRole] at h

/-- What the relation of an owned attribute asks: owner and value stand in two castings of it. -/
theorem matches_ownership_iff {relation typeVar owner value : Var} {owned : Label} {o : Option IdPredicate}
    {look : Var → Option ConceptId} :
    Atom.Matches g look (.relation ⟨⟨relation, typeVar, o, some owned.ownership, none⟩,
      [(.known owned.ownerRole, owner), (.known owned.valueRole, value)]⟩) ↔
    (TypeRef.label owned.ownership).Reads g look relation ∧ ∃ c c', c ≠ c' ∧
      g.Stands look relation (some owned.ownerRole) owner c ∧
      g.Stands look relation (some owned.valueRole) value c' := by
  simp only [Atom.Matches, Anchor.type?, Option.mem_def, Option.some.injEq, forall_eq',
    List.forall₂_cons_left_iff, List.forall₂_nil_left_iff]
  refine and_congr_right fun _ => ⟨?_, ?_⟩
  · rintro ⟨_, hnodup, c, _, hc, ⟨c', _, hc', rfl, rfl⟩, rfl⟩
    exact ⟨c, c', by simpa using hnodup, hc, hc'⟩
  · rintro ⟨c, c', hne, hc, hc'⟩
    exact ⟨[c, c'], by simpa using hne, c, [c'], hc, ⟨c', [], hc', rfl, rfl⟩, rfl⟩

/-- Who owns an attribute stands with it in the relation, if the relation is what the castings are of. -/
theorem matches_ownership_of_owns {relation typeVar owner value : Var} {owned : Label} {o : Option IdPredicate}
    {look : Var → Option ConceptId} {c c' : Casting} (h : g.Owns look owner owned value c c')
    (howner : owner ≠ relation) (hvalue : value ≠ relation) :
    Atom.Matches g (Function.update look relation (some c.relation))
      (.relation ⟨⟨relation, typeVar, o, some owned.ownership, none⟩,
        [(.known owned.ownerRole, owner), (.known owned.valueRole, value)]⟩) := by
  have hrelation := Function.update_self relation (some c.relation) look
  obtain ⟨t, ht, hl, hisA⟩ := h.type
  refine matches_ownership_iff.mpr ⟨⟨c.relation, t, ht, hl, hisA, hrelation⟩, c, c', ?_,
    ⟨h.ownerPlays, hrelation, ?_, ?_⟩, ⟨h.valuePlays, ?_, ?_, ?_⟩⟩
  · rintro rfl
    exact ownerRole_ne_valueRole owned (h.ownerRole.symm.trans h.valueRole)
  · exact fun l hl => h.ownerRole.trans (Option.some.inj hl)
  · rw [Function.update_of_ne howner, h.owner]
  · rw [hrelation, h.relation]
  · exact fun l hl => h.valueRole.trans (Option.some.inj hl)
  · rw [Function.update_of_ne hvalue, h.value]

/-- The relation of an owned attribute has a variable of its own. -/
theorem asks_of_gives_hasAtom {owner value : Var} {owned : Label} {a : Atom}
    (h : (hasAtom t owner owned value).Gives s a s') :
    Asks g s.vars s'.vars [a] (fun v => v = owner ∨ v = value) fun look =>
      ∃ c c', g.Owns look owner owned value c c' := by
  unfold hasAtom at h
  split at h
  · exact absurd h not_gives_throw
  · next id hid =>
    obtain ⟨v, u, hv, h⟩ := gives_bind.mp h
    obtain ⟨w, u', hw, h⟩ := gives_bind.mp h
    obtain ⟨rfl, rfl⟩ := gives_pure.mp h
    obtain ⟨rfl, rfl⟩ := Prod.mk.inj (gives_lift.mp hv)
    obtain ⟨rfl, rfl⟩ := Prod.mk.inj (gives_lift.mp hw)
    let relation := Var.generated (s.vars + 1)
    refine ⟨Nat.le_add_right _ 2, fun a ha v hv => ?_, ?_, fun look h => ?_, fun hfresh look h => ?_⟩
    · obtain rfl := List.mem_singleton.mp ha
      have hhidden : Hidden s.vars (s.vars + 2) relation := ⟨s.vars + 1, by omega, by omega, rfl⟩
      rcases hv with ⟨p, hp, rfl | rfl⟩ | ⟨t, ht, hv⟩
      · exact .inr hhidden
      · rcases List.mem_pair.mp hp with rfl | rfl
        · exact .inl (.inl rfl)
        · exact .inl (.inr rfl)
      · obtain rfl := Option.some.inj ht
        exact .inr (hv ▸ hhidden)
    · rintro look look' heq ⟨c, c', hc⟩
      exact ⟨c, c', { hc with
        owner := (heq owner (.inl rfl)).symm.trans hc.owner
        value := (heq value (.inr rfl)).symm.trans hc.value }⟩
    · obtain ⟨⟨i, t, ht, hl, hisA, hi⟩, c, c', -, hc, hc'⟩ := matches_ownership_iff.mp (h _ (.head _))
      have hrelation : c.relation = i := Option.some.inj (hc.relation.symm.trans hi)
      have hrelation' : c'.relation = i := Option.some.inj (hc'.relation.symm.trans hi)
      exact ⟨c, c', hc.plays, hc'.plays, hrelation'.trans hrelation.symm, ⟨t, ht, hl, hrelation ▸ hisA⟩,
        hc.role _ rfl, hc'.role _ rfl, hc.player, hc'.player⟩
    · obtain ⟨c, c', hc⟩ := h
      have howner : owner ≠ relation := fun e => hfresh (s.vars + 1) (Nat.le_succ _) (.inl e.symm)
      have hvalue : value ≠ relation := fun e => hfresh (s.vars + 1) (Nat.le_succ _) (.inr e.symm)
      refine ⟨Function.update look relation (some c.relation), fun v hv => ?_,
        List.forall_mem_singleton.mpr (matches_ownership_of_owns hc howner hvalue)⟩
      refine Function.update_of_ne ?_ _ _
      rintro rfl
      exact hv ⟨s.vars + 1, Nat.le_succ _, Nat.lt_succ_self _, rfl⟩

/-- Atoms that are made from a list ask together for what is asked for each member. -/
theorem asks_of_gives_mapM {α β : Type} (hg : g.WellFormed) {f : α → Attempt β} (atoms : β → List Atom)
    {names : α → Var → Prop} {P : α → (Var → Option ConceptId) → Prop} {l : List α} {bs : List β}
    (hf : ∀ a ∈ l, ∀ s b s', (f a).Gives s b s' →
      (∀ c ∈ atoms b, c.Plain) ∧ Asks g s.vars s'.vars (atoms b) (names a) (P a))
    (h : (l.mapM f).Gives s bs s') : Asks g s.vars s'.vars (bs.flatMap atoms)
      (fun v => ∃ a ∈ l, names a v) fun look => ∀ a ∈ l, P a look := by
  induction l generalizing s bs with
  | nil =>
    obtain ⟨rfl, rfl⟩ := gives_pure.mp h
    exact (Asks.nil g s.vars fun _ => False).of_iff (fun v => by simp) fun look => by simp
  | cons a l ih =>
    rw [List.mapM_cons] at h
    obtain ⟨b, u, hb, h⟩ := gives_bind.mp h
    obtain ⟨bs, u', hbs, h⟩ := gives_bind.mp h
    obtain ⟨rfl, rfl⟩ := gives_pure.mp h
    obtain ⟨hplain, hasks⟩ := hf a (.head _) s b u hb
    have hrest := ih (fun a ha => hf a (.tail _ ha)) hbs
    rw [List.flatMap_cons]
    exact (Asks.append hg hplain hasks hrest).of_iff (fun v => by simp) fun look => by simp

/-- What the central atoms of a statement ask for. -/
theorem asks_of_gives_centralAtoms (hg : g.WellFormed) {st : Statement} {as : List Atom}
    (h : (centralAtoms t st).Gives s as s')
    (htype : ∀ v, st.type? = some (.var v) → v.isEmpty = false) :
    Asks g s.vars s'.vars as st.Names fun look =>
      ((∀ ps ∈ st.players?, (Property.relation ps).Reads g look st.subject) ∧
        ∀ t ∈ st.type?, t.Reads g look st.subject) ∧
      ∀ o ∈ st.ownerships, ∃ c c', g.Owns look st.subject o.1 o.2.1 c c' := by
  have hcentral := centralIn_of_gives_centralAtoms h
  obtain ⟨first, u, owned, rfl, howned, hcases⟩ := exists_of_gives_centralAtoms h
  have hplain : ∀ a ∈ first, a.Plain := fun a ha c hc =>
    ((hcentral a (List.mem_append_left _ ha)).2 c hc).plain
  have hfirst : Asks g s.vars u.vars first st.Names fun look =>
      (∀ ps ∈ st.players?, (Property.relation ps).Reads g look st.subject) ∧
        ∀ t ∈ st.type?, t.Reads g look st.subject := by
    rcases hcases with ⟨ps, b, hps, rfl, hb⟩ | ⟨tr, c, hps, htr, rfl, hc⟩ | ⟨hps, htr, rfl, rfl⟩
    · refine (asks_of_gives_relationAtom hb hps htype).of_iff (fun v => Iff.rfl) fun look => ?_
      simp [hps]
    · obtain ⟨hvar, hctype, hle⟩ := type?_of_gives_anchor hc (htr ▸ htype)
      refine .of_matches hle (fun a ha v hv => ?_) (fun look look' heq h => ⟨?_, ?_⟩) fun look => ?_
      · obtain rfl := List.mem_singleton.mp ha
        obtain ⟨t', ht', hv⟩ := hv
        exact ⟨_, Statement.mem_of_type? (htr.trans (hctype.symm.trans ht')), hvar ▸ hv⟩
      · exact fun ps hps' => absurd (hps.symm.trans hps') (by simp)
      · exact fun t ht => (h.2 t ht).congr fun v hv => heq v ⟨_, Statement.mem_of_type? ht, hv⟩
      · simp [Atom.Matches, hvar, hctype, hps, htr]
    · exact (Asks.nil g u.vars st.Names).of_iff (fun v => Iff.rfl) fun look => by simp [hps, htr]
  have howned := asks_of_gives_mapM hg (fun a => [a]) (fun o _ u a u' ha =>
    ⟨List.forall_mem_singleton.mpr fun c hc => ((centralIn_of_gives_hasAtom ha).2 c hc).plain,
      asks_of_gives_hasAtom ha⟩) howned
  rw [List.flatMap_singleton'] at howned
  refine (Asks.append hg hplain hfirst howned).of_iff (fun v => ⟨?_, .inl⟩) fun look => Iff.rfl
  rintro (hv | ⟨o, ho, hv⟩)
  · exact hv
  · exact ⟨_, Statement.mem_ownerships.mp ho, hv⟩

/-! ## Queries -/

theorem mem_cover_of_mem {central predicates : List Atom} {a : Atom} (h : a ∈ central) :
    a ∈ cover central predicates := by
  induction predicates generalizing central with
  | nil => exact h
  | cons p predicates ih =>
    rw [cover]
    split
    · exact ih h
    · exact ih (List.mem_append_left _ h)

/-- Covering leaves no predicate without an atom that has its variable. -/
theorem exists_mem_cover {central predicates : List Atom} {p : Atom} (hp : p ∈ predicates)
    (hpresent : p.var.isEmpty = false) : ∃ a ∈ cover central predicates, p.var ∈ a.vars := by
  induction predicates generalizing central with
  | nil => cases hp
  | cons p' predicates ih =>
    rw [cover]
    rcases List.mem_cons.mp hp with rfl | hp
    · split
      · next h =>
        obtain ⟨a, ha, hvar⟩ := List.any_eq_true.mp h
        exact ⟨a, mem_cover_of_mem ha, SortedSet.contains_iff.mp hvar⟩
      · refine ⟨.untyped p.var, mem_cover_of_mem (List.mem_append_right _ (.head _)), ?_⟩
        exact SortedSet.mem_ofList.mpr (by simp [Atom.untyped, Anchor.vars, hpresent])
    · split
      · exact ih hp
      · exact ih hp

/-- The queries of a decomposed conjunction: its central atoms, covered, with the predicates on their
variables. -/
theorem exists_of_gives_ofConjunction {c : Conjunction} {d : DecomposedQuery}
    (h : (ofConjunction t c).Gives s d s') : ∃ central u,
      (c.statements.mapM (centralAtoms t)).Gives s central u ∧ u.vars = s'.vars ∧ List.Forall₂
        (fun a q => ∃ id, q = AtomicQuery.renumber ⟨default, a,
          (c.statements.flatMap predicates).filter fun p => a.vars.contains p.var⟩ id)
        (cover central.flatten (c.statements.flatMap predicates)) d.queries := by
  unfold ofConjunction at h
  dsimp only at h
  split at h
  · obtain ⟨_, _, h, -⟩ := gives_bind.mp h
    exact absurd h not_gives_throw
  · obtain ⟨central, u, hcentral, h⟩ := gives_bind.mp h
    obtain ⟨queries, v, hqueries, h⟩ := gives_bind.mp h
    obtain ⟨rfl, rfl⟩ := gives_pure.mp h
    have hrun := gives_lift.mp hqueries
    have hall := Fresh.always_forall₂_mapM (r := fun a q => ∃ id, q = AtomicQuery.renumber
      ⟨default, a, (c.statements.flatMap predicates).filter fun p => a.vars.contains p.var⟩ id)
      (f := attach (c.statements.flatMap predicates))
      (l := cover central.flatten (c.statements.flatMap predicates)) fun a _ =>
        Fresh.always_bind fun id => Fresh.always_pure ⟨id, rfl⟩
    have hvars := Fresh.vars_mapM (f := attach (c.statements.flatMap predicates)) (fun _ _ => rfl)
      (cover central.flatten (c.statements.flatMap predicates)) u
    have := hall u
    rw [hrun] at this hvars
    exact ⟨central, u, hcentral, hvars.symm, this⟩

end Decomposition

/-! ## The whole conjunction -/

namespace DecomposedQuery

open Decomposition FragmentSet

/-- The patterns of all atomic queries together. -/
def joint (d : DecomposedQuery) : Conjunction :=
  ⟨d.queries.flatMap fun q => q.toConjunction.statements⟩

variable {g : Graph} {t : Transaction} {c : Conjunction} {d : DecomposedQuery} {s s' : Supply}
  {look : Var → Option ConceptId} {v : Var}

theorem reads_joint_iff (hd : (ofConjunction t c).Gives s d s') :
    d.joint.Reads g look ↔ ∀ q ∈ d.queries, ∀ a ∈ q.atoms, a.Matches g look := by
  have hplain {q : AtomicQuery} (hq : q ∈ d.queries) {a : Atom} (ha : a ∈ q.atoms) : a.Plain :=
    (decomposed_of_mem_queries hd hq).plain a ha
  simp only [Conjunction.Reads, joint, AtomicQuery.toConjunction, List.mem_flatMap]
  constructor
  · intro h q hq a ha
    exact (hplain hq ha).forall_reads_iff.mp fun st hst => h st ⟨q, hq, a, ha, hst⟩
  · rintro h st ⟨q, hq, a, ha, hst⟩
    exact (hplain hq ha).forall_reads_iff.mpr (h q hq a ha) st hst

/-- The queries say what the central atoms and the predicates say. -/
theorem forall_matches_iff {central preds : List Atom}
    (hpresent : ∀ p ∈ preds, p.var.isEmpty = false)
    (hqueries : List.Forall₂ (fun a q => ∃ id, q = AtomicQuery.renumber ⟨default, a,
      preds.filter fun p => a.vars.contains p.var⟩ id) (cover central preds) d.queries) :
    (∀ q ∈ d.queries, ∀ a ∈ q.atoms, a.Matches g look) ↔
      (∀ a ∈ central, a.Matches g look) ∧ ∀ p ∈ preds, p.Matches g look := by
  have hatoms {a : Atom} {q : AtomicQuery} (h : ∃ id, q = AtomicQuery.renumber ⟨default, a,
      preds.filter fun p => a.vars.contains p.var⟩ id) :
      (∀ b ∈ q.atoms, b.Matches g look) ↔ a.Matches g look ∧
        ∀ p ∈ preds, p.var ∈ a.vars → p.Matches g look := by
    obtain ⟨id, rfl⟩ := h
    rw [AtomicQuery.atoms_renumber, List.forall_mem_map]
    simp only [Atom.matches_withQuery, AtomicQuery.atoms, List.forall_mem_cons, List.mem_filter,
      and_imp, ← SortedSet.contains_iff]
  constructor
  · intro h
    have hcover (a : Atom) (ha : a ∈ cover central preds) :
        a.Matches g look ∧ ∀ p ∈ preds, p.var ∈ a.vars → p.Matches g look := by
      obtain ⟨q, hq, hqa⟩ := exists_of_forall₂_of_mem hqueries ha
      exact (hatoms hqa).mp (h q hq)
    refine ⟨fun a ha => (hcover a (mem_cover_of_mem ha)).1, fun p hp => ?_⟩
    obtain ⟨a, ha, hvar⟩ := exists_mem_cover hp (hpresent p hp)
    exact (hcover a ha).2 p hp hvar
  · rintro ⟨hcentral, hpreds⟩ q hq
    obtain ⟨a, ha, hqa⟩ := exists_of_forall₂_of_mem hqueries.flip hq
    refine (hatoms hqa).mpr ⟨?_, fun p hp _ => hpreds p hp⟩
    rcases mem_of_mem_cover ha with ha | ⟨p, -, rfl⟩
    · exact hcentral a ha
    · intro t ht
      cases ht

theorem mem_of_names {st : Statement} (hv : st.Names v) : v ∈ st.subject :: st.properties.flatMap Property.vars := by
  obtain ⟨p, hp, hv⟩ := hv
  refine List.mem_cons.mpr (or_iff_not_imp_left.mpr fun hne => List.mem_flatMap.mpr ⟨p, hp, ?_⟩)
  cases p with
  | isa t =>
    cases t with
    | label l => exact absurd hv hne
    | var t => exact List.mem_singleton.mpr (hv.resolve_left hne)
  | relation ps =>
    obtain ⟨p, hp, hv⟩ := hv
    exact List.mem_map.mpr ⟨p, hp, (hv.resolve_left hne).symm⟩
  | has owned w predicate => exact List.mem_singleton.mpr (hv.resolve_left hne)
  | value _ | identity _ => exact absurd hv hne

theorem exists_mem_of_names (hv : c.Names v) :
    ∃ st ∈ c.statements, v ∈ st.subject :: st.properties.flatMap Property.vars := by
  obtain ⟨st, hst, hv⟩ := hv
  exact ⟨st, hst, mem_of_names hv⟩

theorem mem_vars_of_names (hv : c.Names v) (hpresent : v.isEmpty = false) : v ∈ c.vars := by
  obtain ⟨st, hst, hv⟩ := exists_mem_of_names hv
  refine SortedSet.mem_ofList.mpr (List.mem_flatMap.mpr ⟨st, hst, ?_⟩)
  rw [← SortedSet.mem_iff_mem_toList, Statement.vars, SortedSet.mem_filter, SortedSet.mem_ofList]
  exact ⟨hv, by simp [hpresent]⟩

/-- What a statement keeps beside its central atoms: the predicates. -/
theorem forall_predicates_iff {st : Statement} : (∀ p ∈ predicates st, p.Matches g look) ↔
    (∀ o ∈ st.ownerships, ∀ p ∈ o.2.2, p.Reads g look o.2.1) ∧
      (∀ p ∈ st.constraints, p.Reads g look st.subject) ∧
        ∀ id ∈ st.ids, g.Holds id ∧ look st.subject = some id := by
  simp only [predicates, List.forall_mem_append, List.forall_mem_map, Atom.Matches, and_assoc]
  refine and_congr_left fun _ => ?_
  simp only [List.mem_filterMap, Option.map_eq_some_iff]
  constructor
  · exact fun h o ho p hp => h _ ⟨o, ho, p, hp, rfl⟩
  · rintro h _ ⟨o, ho, p, hp, rfl⟩
    exact h o ho p hp

/-- A predicate is on a variable that its statement names. -/
theorem names_var_of_mem_predicates {st : Statement} {p : Atom} (h : p ∈ predicates st) :
    st.Names p.var := by
  rcases List.mem_append.mp h with h | h
  · rcases List.mem_append.mp h with h | h
    · obtain ⟨o, ho, hp⟩ := List.mem_filterMap.mp h
      obtain ⟨c, -, rfl⟩ := Option.map_eq_some_iff.mp hp
      exact ⟨_, Statement.mem_ownerships.mp ho, .inr rfl⟩
    · obtain ⟨c, hc, rfl⟩ := List.mem_map.mp h
      exact ⟨_, Statement.mem_constraints.mp hc, rfl⟩
  · obtain ⟨id, hid, rfl⟩ := List.mem_map.mp h
    exact ⟨_, Statement.mem_ids.mp hid, rfl⟩

/-- The queries are made from central atoms, which ask for what the statements say of types, players
and ownerships. -/
theorem exists_asks (hg : g.WellFormed) (hd : (ofConjunction t c).Gives s d s')
    (hpresent : ∀ v, c.Names v → v.isEmpty = false) : ∃ central,
      (∃ u, (c.statements.mapM (centralAtoms t)).Gives s central u) ∧
      (Asks g s.vars s'.vars central.flatten (fun v => ∃ st ∈ c.statements, st.Names v) fun look =>
        ∀ st ∈ c.statements, ((∀ ps ∈ st.players?, (Property.relation ps).Reads g look st.subject) ∧
          ∀ t ∈ st.type?, t.Reads g look st.subject) ∧
        ∀ o ∈ st.ownerships, ∃ c c', g.Owns look st.subject o.1 o.2.1 c c') ∧
      List.Forall₂ (fun a q => ∃ id, q = AtomicQuery.renumber ⟨default, a,
          (c.statements.flatMap predicates).filter fun p => a.vars.contains p.var⟩ id)
        (cover central.flatten (c.statements.flatMap predicates)) d.queries := by
  obtain ⟨central, u, hcentral, hvars, hqueries⟩ := exists_of_gives_ofConjunction hd
  have hasks := asks_of_gives_mapM hg (fun as : List Atom => as) (fun st hst s as s' has =>
    ⟨fun a ha c hc => ((centralIn_of_gives_centralAtoms has a ha).2 c hc).plain,
      asks_of_gives_centralAtoms hg has fun v hv =>
        hpresent v ⟨st, hst, _, Statement.mem_of_type? hv, .inr rfl⟩⟩) hcentral
  rw [List.flatMap_id', hvars] at hasks
  exact ⟨central, ⟨u, hcentral⟩, hasks, hqueries⟩

/-- The assignments that extend to the variables of the atomic queries such that all their patterns
hold are those under which every property holds that is kept: all but the types and relations that a
statement gives after its first. -/
theorem exists_reads_joint_iff (hg : g.Reachable) (hd : (ofConjunction t c).Gives s d s')
    (hpresent : ∀ v, c.Names v → v.isEmpty = false)
    (hfresh : ∀ k, s.vars ≤ k → .generated k ∉ c.vars) (look : Var → Option ConceptId) :
    ((∃ look', (∀ v ∈ c.vars, look' v = look v) ∧ d.joint.Reads g look') ↔
        ∀ st ∈ c.statements, st.ReadsKept g look) ∧
      ((∀ st ∈ c.statements, st.Single) →
        ((∃ look', (∀ v ∈ c.vars, look' v = look v) ∧ d.joint.Reads g look') ↔ c.Reads g look)) := by
  obtain ⟨central, -, hasks, hqueries⟩ := exists_asks hg.wellFormed hd hpresent
  have hnames {st : Statement} (hst : st ∈ c.statements) {v : Var} (hv : st.Names v) : c.Names v :=
    ⟨st, hst, hv⟩
  have hpreds : ∀ p ∈ c.statements.flatMap predicates, p.var.isEmpty = false := by
    intro p hp
    obtain ⟨st, hst, hp⟩ := List.mem_flatMap.mp hp
    exact hpresent _ (hnames hst (names_var_of_mem_predicates hp))
  have hjoint (look' : Var → Option ConceptId) : d.joint.Reads g look' ↔
      (∀ a ∈ central.flatten, a.Matches g look') ∧
        ∀ st ∈ c.statements, ∀ p ∈ predicates st, p.Matches g look' := by
    rw [reads_joint_iff hd, forall_matches_iff hpreds hqueries]
    simp only [List.mem_flatMap, forall_exists_index, and_imp]
    exact and_congr_right fun _ =>
      ⟨fun h st hst p hp => h p st hst hp, fun h p st hst hp => h st hst p hp⟩
  have hkept : (∃ look', (∀ v ∈ c.vars, look' v = look v) ∧ d.joint.Reads g look') ↔
      ∀ st ∈ c.statements, st.ReadsKept g look := by
    constructor
    · rintro ⟨look', heq, hreads⟩ st hst
      obtain ⟨hatoms, hpredicates⟩ := (hjoint look').mp hreads
      have hst' : st.ReadsKept g look' := Statement.readsKept_iff.mpr
        ⟨hasks.sound look' hatoms st hst, forall_predicates_iff.mp (hpredicates st hst)⟩
      refine hst'.congr fun v hv => heq v (mem_vars_of_names (hnames hst hv) (hpresent v (hnames hst hv)))
    · intro h
      have hout {v : Var} (hv : v ∈ c.vars) : ¬ Hidden s.vars s'.vars v := by
        rintro ⟨k, hk, -, rfl⟩
        exact hfresh k hk hv
      have hvars {v : Var} (hv : c.Names v) : v ∈ c.vars := mem_vars_of_names hv (hpresent v hv)
      obtain ⟨look', heq, hatoms⟩ := hasks.complete
        (fun k hk ⟨st, hst, hv⟩ => hfresh k hk (hvars (hnames hst hv))) look
        fun st hst => (Statement.readsKept_iff.mp (h st hst)).1
      refine ⟨look', fun v hv => heq v (hout hv), (hjoint look').mpr ⟨hatoms, fun st hst => ?_⟩⟩
      have hst' : st.ReadsKept g look' := (h st hst).congr fun v hv =>
        (heq v (hout (hvars (hnames hst hv)))).symm
      exact forall_predicates_iff.mpr (Statement.readsKept_iff.mp hst').2
  refine ⟨hkept, fun hsingle => hkept.trans ?_⟩
  exact forall₂_congr fun st hst => (hsingle st hst).readsKept_iff

end DecomposedQuery

/-! ## Two patterns -/

namespace Naming

open DecomposedQuery

/-- A person with the name Bob. -/
def transaction : Transaction where
  name := ""
  graph := [.entityType ⟨"person"⟩, .attributeType ⟨"name"⟩, .entity ⟨"person"⟩,
    .attr ⟨"name"⟩ (.string "Bob"), .has ⟨"V6"⟩ ⟨"V7"⟩].foldl Graph.perform {}

/-- `$x isa person, has name "Bob";` -/
def pattern : Conjunction :=
  ⟨[⟨.named "x", [.isa (.label ⟨"person"⟩),
    .has ⟨"name"⟩ (.generated 0) (some (.eq (.string "Bob")))]⟩]⟩

def decomposed : DecomposedQuery :=
  (Decomposition.ofConjunction transaction pattern).resultOr { vars := 1 } ⟨⟨[]⟩, []⟩

def look (v : Var) : Option ConceptId :=
  if v = .named "x" then some ⟨"V6"⟩ else if v = .generated 0 then some ⟨"V7"⟩ else none

theorem reads_pattern : pattern.Reads transaction.graph look := by
  intro st hst p hp
  obtain rfl := List.mem_singleton.mp hst
  rcases List.mem_pair.mp hp with rfl | rfl
  · refine ⟨⟨"V6"⟩, ⟨⟨"T1"⟩, .entityType, some ⟨"person"⟩, none, none⟩, by decide +kernel, rfl, ?_, rfl⟩
    exact Graph.isA_iff_instances.mpr (by decide +kernel)
  · refine ⟨⟨⟨⟨"E8"⟩, Label.ownerRole ⟨"name"⟩, ⟨"V6"⟩⟩, ⟨⟨"E8"⟩, Label.valueRole ⟨"name"⟩, ⟨"V7"⟩⟩, ?_⟩,
      ?_⟩
    · have hedge : (⟨⟨"E8"⟩, ⟨"name"⟩, ⟨"V6"⟩, ⟨"V7"⟩⟩ : HasEdge) ∈ transaction.graph.edges := by
        decide +kernel
      exact ⟨⟨_, .owner hedge⟩, ⟨_, .value hedge⟩, rfl, ⟨⟨⟨"T4"⟩, .relationType, some ⟨"@has-name"⟩,
        none, none⟩, by decide +kernel, rfl, Graph.isA_iff_instances.mpr (by decide +kernel)⟩, rfl,
        rfl, rfl, rfl⟩
    · intro q hq
      obtain rfl := Option.some.inj hq
      exact ⟨⟨⟨"V7"⟩, .attr, none, some ⟨"T5"⟩, some (.string "Bob")⟩, by decide +kernel, rfl,
        .string "Bob", rfl, rfl⟩

/-- The person and the name make both queries of the pattern hold. -/
theorem exists_reads_joint_iff_named : decomposed.queries.length = 2 ∧
    ∃ look', (∀ v ∈ pattern.vars, look' v = look v) ∧
      decomposed.joint.Reads transaction.graph look' := by
  have hd := Attempt.gives_resultOr (x := Decomposition.ofConjunction transaction pattern)
    (s := { vars := 1 }) (by decide +kernel) ⟨⟨[]⟩, []⟩
  refine ⟨by decide +kernel, ((exists_reads_joint_iff ⟨_, rfl⟩ hd (fun v hv => ?_) (fun k hk hv => ?_)
    look).2 (List.forall_mem_singleton.mpr ⟨?_, ?_⟩)).mpr reads_pattern⟩
  · obtain ⟨st, hst, p, hp, hv⟩ := hv
    obtain rfl := List.mem_singleton.mp hst
    rcases List.mem_pair.mp hp with rfl | rfl
    · obtain rfl := hv
      rfl
    · rcases hv with rfl | rfl <;> decide +kernel
  · have hvars : ∀ v ∈ pattern.vars.toList, v = .named "x" ∨ v = .generated 0 := by decide +kernel
    rcases hvars _ hv with hx | hgenerated
    · cases congrArg Var.userDefined hx
    · have hk : 1 ≤ k := hk
      have := Var.generated_injective hgenerated
      omega
  · simp
  · simp

end Naming

namespace TwoTypes

/-- One thing of the first of two types. -/
def transaction : Transaction where
  name := ""
  graph := [.entityType ⟨"a"⟩, .entityType ⟨"b"⟩, .entity ⟨"a"⟩].foldl Graph.perform {}

/-- `$x isa a, isa b;` -/
def pattern : Conjunction :=
  ⟨[⟨.named "x", [.isa (.label ⟨"a"⟩), .isa (.label ⟨"b"⟩)]⟩]⟩

def decomposed : DecomposedQuery :=
  (Decomposition.ofConjunction transaction pattern).resultOr {} ⟨⟨[]⟩, []⟩

def look (v : Var) : Option ConceptId :=
  if v = .named "x" then some ⟨"V3"⟩ else none

/-- The second type, to which nothing belongs, is lost. -/
theorem not_exists_reads_joint_iff : ¬ ∀ (g : Graph) (t : Transaction) (c : Conjunction)
    (s s' : Supply) (d : DecomposedQuery) (look : Var → Option ConceptId), g.Reachable →
    (Decomposition.ofConjunction t c).Gives s d s' → (∀ v, c.Names v → v.isEmpty = false) →
    (∀ k, s.vars ≤ k → .generated k ∉ c.vars) →
    ((∃ look', (∀ v ∈ c.vars, look' v = look v) ∧ d.joint.Reads g look') ↔ c.Reads g look) := by
  intro h
  have hd := Attempt.gives_resultOr (x := Decomposition.ofConjunction transaction pattern)
    (s := {}) (by decide +kernel) ⟨⟨[]⟩, []⟩
  have hjoint : decomposed.joint = ⟨[⟨.named "x", [.isa (.label ⟨"a"⟩)]⟩]⟩ := by decide +kernel
  have hnames (v : Var) (hv : pattern.Names v) : v = .named "x" := by
    obtain ⟨st, hst, p, hp, hv⟩ := hv
    obtain rfl := List.mem_singleton.mp hst
    rcases List.mem_pair.mp hp with rfl | rfl <;> exact hv
  have hreads : decomposed.joint.Reads transaction.graph look := by
    rw [hjoint]
    refine List.forall_mem_singleton.mpr (List.forall_mem_singleton.mpr ?_)
    refine ⟨⟨"V3"⟩, ⟨⟨"T1"⟩, .entityType, some ⟨"a"⟩, none, none⟩, by decide +kernel, rfl, ?_, rfl⟩
    exact Graph.isA_iff_instances.mpr (by decide +kernel)
  have hboth := (h transaction.graph transaction pattern _ _ _ look ⟨_, rfl⟩ hd
    (fun v hv => hnames v hv ▸ rfl) (fun k _ hv => ?_)).mp ⟨look, fun _ _ => rfl, hreads⟩
  · obtain ⟨i, b, hb, hl, hisA, hi⟩ := hboth _ (.head _) _ (.tail _ (.head _))
    have hnone : ∀ b ∈ transaction.graph.concepts, b.label = some ⟨"b"⟩ →
        (⟨"V3"⟩ : ConceptId) ∉ (transaction.graph.subtypes b.id).flatMap transaction.graph.instances := by
      decide +kernel
    have hi : some (⟨"V3"⟩ : ConceptId) = some i := hi
    exact hnone b hb hl (Option.some.inj hi ▸ Graph.isA_iff_instances.mp hisA)
  · have hvars : ∀ v ∈ pattern.vars.toList, v.userDefined = true := by decide +kernel
    cases hvars _ hv

end TwoTypes

end GraphInference
