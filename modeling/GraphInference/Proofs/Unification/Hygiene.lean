import GraphInference.Proofs.Rule.Renaming
import GraphInference.Proofs.Unification.Alike

/-!
# Captured variables

The head of a rule is unified with a query as it is, without its variables being renamed apart. What the places
of the two atoms pair (`Atom.facing`) does not depend on names, but what becomes of the pairs does: a variable
that faces itself is not mapped, and what is not mapped is read in the body by its own name. A rule is hygienic
for a query (`CompiledRule.Hygienic`) if a variable that faces itself faces nothing else and every variable of
the query that the body binds faces something. Then the names of the rule's variables make no difference to its
unifier (`CompiledRule.RenamedBy.rel_unify?`).
-/

namespace GraphInference

open RelationAtom

/-! ## Places -/

namespace RelationAtom

variable {f : Role × Var → Role × Var} {u w : Unifier}

theorem freePlace?_map (hf : ∀ p, (f p).1 = p.1) (taken : List Nat) (accepts : Role → Bool) (i : Nat)
    (ps : List (Role × Var)) : freePlace? taken accepts i (ps.map f) = freePlace? taken accepts i ps := by
  induction ps generalizing i with
  | nil => rfl
  | cons p ps ih => rw [List.map_cons, freePlace?, freePlace?, hf, ih]

theorem assign_map (hf : ∀ p, (f p).1 = p.1) (ps : List (Role × Var)) (accepts : Role → Role → Bool)
    (taken : List Nat) (l : List (Role × Option Nat)) :
    assign (ps.map f) accepts taken l = assign ps accepts taken l := by
  induction l generalizing taken with
  | nil => rfl
  | cons e l ih =>
    obtain ⟨role, j | j⟩ := e
    · rw [assign, assign, freePlace?_map hf]
      simp only [ih]
    · rw [assign, assign, ih]

/-- Players get their places by their roles. -/
theorem places_rename (r s : RelationAtom) : (r.rename u).places (s.rename w) = r.places s := by
  have hroles : ((r.rename u).players.map (·.1)) = r.players.map (·.1) := by
    simp [rename, Function.comp_def]
  have hassign := assign_map (f := fun p => (p.1, w.apply p.2)) (fun _ => rfl) s.players
  unfold places
  dsimp only
  rw [hroles, show (s.rename w).players = s.players.map fun p => (p.1, w.apply p.2) from rfl, hassign, hassign]

end RelationAtom

namespace Atom

variable {q h : Atom} {u w : Unifier} {v x : Var}

/-- The pairs of variables that stand at one place of the two atoms, without anchors that face a system
variable. -/
def facing (q h : Atom) : List (Var × Var) :=
  (if h.var.userDefined then [(q.var, h.var)] else []) ++ q.typeVar?.toList.zip h.typeVar?.toList ++
    (q.players.zip (q.placed h)).filterMap fun e => (h.players[e.2]?).map fun p => (e.1.2, p.2)

theorem mem_facing : (v, x) ∈ q.facing h ↔ v = q.var ∧ x = h.var ∧ h.var.userDefined = true ∨
    q.typeVar? = some v ∧ h.typeVar? = some x ∨ Counterpart q.players h.players (q.placed h) v x := by
  have hanchor : (v, x) ∈ (if h.var.userDefined then [(q.var, h.var)] else []) ↔
      v = q.var ∧ x = h.var ∧ h.var.userDefined = true := by
    split <;> simp_all
  have htype : (v, x) ∈ q.typeVar?.toList.zip h.typeVar?.toList ↔
      q.typeVar? = some v ∧ h.typeVar? = some x := by
    cases q.typeVar? <;> cases h.typeVar? <;> simp [eq_comm]
  have hplayer : (v, x) ∈ (q.players.zip (q.placed h)).filterMap (fun e =>
      (h.players[e.2]?).map fun p => (e.1.2, p.2)) ↔ Counterpart q.players h.players (q.placed h) v x := by
    rw [List.mem_filterMap]
    constructor
    · rintro ⟨⟨p, j⟩, hmem, hp⟩
      obtain ⟨p', hp', heq⟩ := Option.map_eq_some_iff.mp hp
      obtain ⟨rfl, rfl⟩ := Prod.mk.inj heq
      obtain ⟨i, hi⟩ := List.getElem?_of_mem hmem
      obtain ⟨hp, hj⟩ := List.getElem?_zip_eq_some.mp hi
      exact ⟨i, j, p.1, p'.1, hp, hj, hp'⟩
    · rintro ⟨i, j, role, role', hp, hj, hp'⟩
      refine ⟨((role, v), j), List.mem_of_getElem? (List.getElem?_zip_eq_some.mpr ⟨hp, hj⟩), ?_⟩
      rw [hp']
      rfl
  rw [facing, List.mem_append, List.mem_append, hanchor, htype, hplayer, or_assoc]

theorem paired_iff : q.Paired h v x ↔ v ≠ x ∧ (v, x) ∈ q.facing h :=
  and_congr_right fun _ => mem_facing.symm

theorem typeVar?_rename (hu : u.Permutes) : (q.rename u).typeVar? = q.typeVar?.map u.apply := by
  rw [typeVar?, typeVar?, anchor?_rename]
  cases q.anchor? with
  | none => rfl
  | some c =>
    have hvar : (c.rename u).typeVar = if c.typeVar.isEmpty then .empty else u.apply c.typeVar := rfl
    simp only [Option.map_some, hvar]
    by_cases hempty : c.typeVar.isEmpty = true
    · rw [if_pos hempty]
      simp [Option.filter, hempty, show Var.empty.isEmpty = true from rfl]
    · rw [if_neg hempty]
      simp [Option.filter, hu.isEmpty, hempty]

theorem placed_rename : (q.rename u).placed (h.rename w) = q.placed h := by
  cases q with
  | relation r =>
    cases h with
    | relation s => exact congrArg (List.filterMap id) (places_rename r s)
    | _ => rfl
  | _ => cases h <;> rfl

theorem seated_rename : (q.rename u).Seated (h.rename w) ↔ q.Seated h := by
  cases q with
  | relation r =>
    cases h with
    | relation s =>
      show (∀ o ∈ (r.rename u).places (s.rename w), _) ↔ ∀ o ∈ r.places s, _
      rw [places_rename]
    | _ => exact Iff.rfl
  | _ => cases h <;> exact Iff.rfl

/-- What the places pair does not depend on names. -/
theorem facing_rename (hu : u.Permutes) (hw : w.Permutes) : (q.rename u).facing (h.rename w) =
    (q.facing h).map fun e => (u.apply e.1, w.apply e.2) := by
  have htypes {o o' : Option Var} : (o.map u.apply).toList.zip (o'.map w.apply).toList =
      (o.toList.zip o'.toList).map fun e => (u.apply e.1, w.apply e.2) := by
    cases o <;> cases o' <;> rfl
  have hplayers (js : List Nat) : ((q.rename u).players.zip js).filterMap (fun e =>
      ((h.rename w).players[e.2]?).map fun p => (e.1.2, p.2)) =
      ((q.players.zip js).filterMap fun e => (h.players[e.2]?).map fun p => (e.1.2, p.2)).map
        fun e => (u.apply e.1, w.apply e.2) := by
    rw [players_rename, players_rename, List.map_filterMap, List.zip_map_left, List.filterMap_map]
    refine congrArg (List.filterMap · _) (funext fun e => ?_)
    simp [Function.comp_def]
  unfold facing
  rw [placed_rename, hplayers, typeVar?_rename hu, typeVar?_rename hw, htypes, var_rename, var_rename,
    hw.userDefined, List.map_append, List.map_append]
  split <;> rfl

/-! ## Unifiers -/

/-- What faces itself faces nothing else. -/
def Settled (q h : Atom) : Prop :=
  ∀ e ∈ q.facing h, e.1 = e.2 → ∀ e' ∈ q.facing h, e'.1 = e.1 → e'.2 = e.1

instance : Decidable (q.Settled h) :=
  inferInstanceAs (Decidable (∀ _ ∈ _, _))

theorem get?_unifier_iff {y : Unifier} (hq : q.isPredicate = false) (hy : q.unifier h = .ok y) :
    y.get? v = some x ↔ v ≠ x ∧ (v, x) ∈ q.facing h := by
  rw [(get?_unifier hq hy).2]
  exact paired_iff

/-- Between settled atoms the unifier leads a variable to what it faces. -/
theorem Settled.apply_unifier {y : Unifier} (hs : q.Settled h) (hq : q.isPredicate = false)
    (hy : q.unifier h = .ok y) (hvx : (v, x) ∈ q.facing h) : y.apply v = x := by
  by_cases hne : v = x
  · subst hne
    refine Unifier.apply_of_get?_eq_none (Option.eq_none_iff_forall_ne_some.mpr fun w hw => ?_)
    obtain ⟨hne, hvw⟩ := (get?_unifier_iff hq hy).mp hw
    exact hne (hs _ hvx rfl _ hvw rfl).symm
  · exact Unifier.apply_of_get? ((get?_unifier_iff hq hy).mpr ⟨hne, hvx⟩)

/-- What faces nothing stays as it is. -/
theorem apply_unifier_eq_self {y : Unifier} (hq : q.isPredicate = false) (hy : q.unifier h = .ok y)
    (hv : ¬ ∃ e ∈ q.facing h, e.1 = v) : y.apply v = v :=
  Unifier.apply_of_get?_eq_none (Option.eq_none_iff_forall_ne_some.mpr fun _ hw =>
    hv ⟨_, ((get?_unifier_iff hq hy).mp hw).2, rfl⟩)

/-- Settled atoms have a unifier if the players have places and no variable faces two others. -/
theorem Settled.exists_unifier_iff (hs : q.Settled h) (hq : q.isPredicate = false) (hfamily : q.family = h.family) :
    (∃ y, q.unifier h = .ok y) ↔
      q.Seated h ∧ ∀ e ∈ q.facing h, ∀ e' ∈ q.facing h, e.1 = e'.1 → e.2 = e'.2 := by
  rw [Atom.exists_unifier_iff hq hfamily]
  simp only [paired_iff]
  refine and_congr_right fun _ => ⟨fun hsingle => ?_, fun hsingle v x x' hx hx' => hsingle _ hx.2 _ hx'.2 rfl⟩
  rintro ⟨v, x⟩ hx ⟨v', x'⟩ hx' heq
  obtain rfl : v = v' := heq
  by_cases hself : v = x
  · exact (hself ▸ hs _ hx hself _ hx' rfl).symm
  · by_cases hself' : v = x'
    · exact hself' ▸ hs _ hx' hself' _ hx rfl
    · exact hsingle v x x' ⟨hself, hx⟩ ⟨hself', hx'⟩

/-- So do settled atoms under other names if they did before. -/
theorem exists_unifier_rename_iff (hu : u.Permutes) (hw : w.Permutes) (hs : q.Settled h)
    (hs' : (q.rename u).Settled (h.rename w)) (hq : q.isPredicate = false) (hfamily : q.family = h.family) :
    (∃ y, (q.rename u).unifier (h.rename w) = .ok y) ↔ ∃ y, q.unifier h = .ok y := by
  have hq' : (q.rename u).isPredicate = false := isPredicate_rename.trans hq
  have hfamily' : (q.rename u).family = (h.rename w).family := by rw [family_rename, family_rename, hfamily]
  rw [hs'.exists_unifier_iff hq' hfamily', hs.exists_unifier_iff hq hfamily, seated_rename, facing_rename hu hw]
  simp only [List.forall_mem_map, hu.injective.eq_iff, hw.injective.eq_iff]

end Atom

/-! ## Rules -/

/-- The rule captures no variable of the query: what faces itself at the head faces nothing else, and what the
body binds faces something. -/
structure CompiledRule.Hygienic (c : CompiledRule) (q : AtomicQuery) : Prop where
  settled : q.central.Settled c.head.central
  uncaptured : ∀ v ∈ q.slots, Binds c.body v → ∃ e ∈ q.central.facing c.head.central, e.1 = v

/-- The rules that fit a query are hygienic for it, and equivalent queries are settled. -/
structure RuleSet.Hygienic (rules : RuleSet) (queries : List AtomicQuery) : Prop where
  rules : ∀ q ∈ queries, ∀ c ∈ rules.rules, c.Fits q.central → c.Hygienic q
  queries : ∀ q ∈ queries, ∀ r ∈ queries, q.isEquivalent r = true → q.central.Settled r.central

instance {c : CompiledRule} {a : Atom} : Decidable (c.Fits a) :=
  inferInstanceAs (Decidable (_ ∧ _))

instance {c : CompiledRule} {q : AtomicQuery} : Decidable (c.Hygienic q) :=
  decidable_of_iff (q.central.Settled c.head.central ∧
    ∀ v ∈ q.slots, Binds c.body v → ∃ e ∈ q.central.facing c.head.central, e.1 = v)
    ⟨fun ⟨h₁, h₂⟩ => ⟨h₁, h₂⟩, fun ⟨h₁, h₂⟩ => ⟨h₁, h₂⟩⟩

instance {rules : RuleSet} {queries : List AtomicQuery} : Decidable (rules.Hygienic queries) :=
  decidable_of_iff ((∀ q ∈ queries, ∀ c ∈ rules.rules, c.Fits q.central → c.Hygienic q) ∧
    ∀ q ∈ queries, ∀ r ∈ queries, q.isEquivalent r = true → q.central.Settled r.central)
    ⟨fun ⟨h₁, h₂⟩ => ⟨h₁, h₂⟩, fun ⟨h₁, h₂⟩ => ⟨h₁, h₂⟩⟩

theorem CompiledRule.unify?_eq (c : CompiledRule) (a : Atom) :
    c.unify? a = if c.Fits a then (a.unifier c.head.central).toOption else none := by
  unfold unify?
  dsimp only
  split
  · next hfamily => exact (if_neg fun h : c.Fits a => hfamily h.1).symm
  · next hfamily =>
    split
    · next htype => exact (if_neg fun h : c.Fits a => h.2 htype).symm
    · next htype => exact (if_pos (⟨not_not.mp hfamily, htype⟩ : c.Fits a)).symm

section Renamed

open AtomicQuery

variable {c c' : CompiledRule} {q r : AtomicQuery} {u w y y' : Unifier} {v : Var}

theorem AtomicQuery.mem_userVars_rename (hu : u.Permutes) :
    v ∈ (q.rename u).userVars ↔ ∃ x ∈ q.userVars, u.apply x = v := by
  simp only [userVars, SortedSet.mem_filter, mem_vars_rename (hu.renaming _)]
  constructor
  · rintro ⟨⟨x, hx, rfl⟩, hdefined⟩
    exact ⟨x, ⟨hx, (hu.userDefined x).symm.trans hdefined⟩, rfl⟩
  · rintro ⟨x, ⟨hx, hdefined⟩, rfl⟩
    exact ⟨⟨x, hx, rfl⟩, (hu.userDefined x).trans hdefined⟩

namespace CompiledRule.RenamedBy

/-- The renamed body binds the renamed variables. -/
theorem binds_iff (h : c.RenamedBy w c') : Binds c'.body (w.apply v) ↔ Binds c.body v := by
  unfold Binds
  rw [h.body]
  simp only [List.mem_map, exists_exists_and_eq_and, mem_userVars_rename h.permutes]
  refine exists_congr fun p => and_congr_right fun _ => ⟨fun ⟨x, hx, heq⟩ => ?_, fun hv => ⟨v, hv, rfl⟩⟩
  exact h.permutes.injective heq ▸ hx

theorem central_head (h : c.RenamedBy w c') : c'.head.central = c.head.central.rename w :=
  congrArg AtomicQuery.central h.head

theorem fits_iff (h : c.RenamedBy w c') : c'.Fits (q.rename u).central ↔ c.Fits q.central := by
  have hcentral : (q.rename u).central = q.central.rename u := rfl
  unfold Fits
  rw [h.central_head, hcentral, Atom.family_rename, Atom.family_rename, Atom.typeId?_rename, Atom.typeId?_rename]

/-- Where the rule is hygienic for the query, under the old names and under the new ones, what faces something
is led to it, and what faces nothing is not bound. -/
theorem tracks (h : c.RenamedBy w c') (hu : u.Permutes) (htidy : q.Tidy) (hq : q.central.isPredicate = false)
    (hold : c.Hygienic q) (hnew : c'.Hygienic (q.rename u)) (hy : q.central.unifier c.head.central = .ok y)
    (hy' : (q.rename u).central.unifier c'.head.central = .ok y') :
    y.Tracks u.apply w.apply q y' c.body c'.body := by
  have hq' : (q.rename u).central.isPredicate = false := Atom.isPredicate_rename.trans hq
  have hfacing : (q.rename u).central.facing c'.head.central =
      (q.central.facing c.head.central).map fun e => (u.apply e.1, w.apply e.2) := by
    rw [h.central_head]
    exact Atom.facing_rename hu h.permutes
  intro v hv
  by_cases hfaces : ∃ e ∈ q.central.facing c.head.central, e.1 = v
  · obtain ⟨⟨v', x⟩, hx, heq⟩ := hfaces
    obtain rfl : v' = v := heq
    have hx' : (u.apply v', w.apply x) ∈ (q.rename u).central.facing c'.head.central :=
      hfacing ▸ List.mem_map_of_mem hx
    rw [hold.settled.apply_unifier hq hy hx, hnew.settled.apply_unifier hq' hy' hx', h.binds_iff]
    exact (em (Binds c.body x)).imp (fun hbinds => ⟨hbinds, rfl⟩) fun hout => ⟨hout, hout⟩
  · have hfaces' : ¬ ∃ e ∈ (q.rename u).central.facing c'.head.central, e.1 = u.apply v := by
      rw [hfacing]
      rintro ⟨_, hmem, heq⟩
      obtain ⟨e, he, rfl⟩ := List.mem_map.mp hmem
      exact hfaces ⟨e, he, hu.injective heq⟩
    have hv' : u.apply v ∈ (q.rename u).slots := (htidy.renames_rename hu).mem_slots_iff.mpr ⟨v, hv, rfl⟩
    rw [Atom.apply_unifier_eq_self hq hy hfaces, Atom.apply_unifier_eq_self hq' hy' hfaces']
    exact .inr ⟨mt (hold.uncaptured v hv) hfaces, mt (hnew.uncaptured _ hv') hfaces'⟩

/-- Rules that are hygienic for a query, under the old names and under the new ones, have unifiers with it that
do the same, or none. -/
theorem rel_unify? (h : c.RenamedBy w c') (hu : u.Permutes) (htidy : q.Tidy)
    (hq : q.central.isPredicate = false) (hold : c.Fits q.central → c.Hygienic q)
    (hnew : c'.Fits (q.rename u).central → c'.Hygienic (q.rename u)) :
    Option.Rel (fun y y' => y.Tracks u.apply w.apply q y' c.body c'.body) (c.unify? q.central)
      (c'.unify? (q.rename u).central) := by
  by_cases hfits : c.Fits q.central
  · have hfits' : c'.Fits (q.rename u).central := h.fits_iff.mpr hfits
    rw [unify?_eq, unify?_eq, if_pos hfits, if_pos hfits']
    have hold := hold hfits
    have hnew := hnew hfits'
    have hexists : (∃ y', (q.rename u).central.unifier c'.head.central = .ok y') ↔
        ∃ y, q.central.unifier c.head.central = .ok y := by
      have hsettled := hnew.settled
      rw [h.central_head] at hsettled ⊢
      exact Atom.exists_unifier_rename_iff hu h.permutes hold.settled hsettled hq hfits.1
    cases hy : q.central.unifier c.head.central with
    | error e =>
      cases hy' : (q.rename u).central.unifier c'.head.central with
      | error e' => exact .none
      | ok y' =>
        obtain ⟨y, hok⟩ := hexists.mp ⟨y', hy'⟩
        cases hy.symm.trans hok
    | ok y =>
      obtain ⟨y', hy'⟩ := hexists.mpr ⟨y, hy⟩
      rw [hy']
      exact .some (h.tracks hu htidy hq hold hnew hy hy')
  · have hfits' : ¬ c'.Fits (q.rename u).central := mt h.fits_iff.mp hfits
    rw [unify?_eq, unify?_eq, if_neg hfits, if_neg hfits']
    exact .none

end CompiledRule.RenamedBy

/-- Every player faces another one if there is a unifier. -/
theorem Atom.exists_facing_of_player {q h : Atom} (hq : q.isPredicate = false) (hy : q.unifier h = .ok y)
    {p : Role × Var} (hp : p ∈ q.players) : ∃ x, (p.2, x) ∈ q.facing h := by
  obtain ⟨⟨hlength, -, hfits⟩, -⟩ := get?_unifier hq hy
  obtain ⟨i, hi⟩ := List.getElem?_of_mem hp
  obtain ⟨j, hj⟩ : ∃ j, (q.placed h)[i]? = some j := by
    obtain ⟨hlt, -⟩ := List.getElem?_eq_some_iff.mp hi
    exact ⟨_, List.getElem?_eq_getElem (hlength ▸ hlt)⟩
  obtain ⟨p', hp', -⟩ := hfits i j p hi hj
  exact ⟨p'.2, mem_facing.mpr (.inr (.inr ⟨i, j, p.1, p'.1, hi, hj, hp'⟩))⟩

namespace AtomicQuery

/-- The unifier of two queries maps what the unifier of their central atoms maps, the anchor aside. -/
theorem exists_central_unifier (hy : q.unifier r = .ok y) :
    ∃ x, q.central.unifier r.central = .ok x ∧ ∀ v, v ≠ q.central.var → y.apply v = x.apply v := by
  obtain ⟨x, hx, hy⟩ := Except.bind_eq_ok.mp hy
  refine ⟨x, hx, fun v hv => ?_⟩
  split at hy
  · rw [Unifier.apply, Unifier.get?_of_add hy, if_neg hv]
    rfl
  · obtain rfl := Except.ok.inj hy
    rfl

/-- Unifiers of settled queries, under the old names and under the new ones, do the same, if they are
renamings. -/
theorem apply_apply_of_settled (hu : u.Permutes) (hw : w.Permutes) (htidy : q.Tidy) (htidy' : r.Tidy)
    (hq : q.central.isPredicate = false) (hsettled : q.central.Settled r.central)
    (hsettled' : (q.rename u).central.Settled (r.rename w).central) (hy : q.unifier r = .ok y)
    (hy' : (q.rename u).unifier (r.rename w) = .ok y') (hrenames : Renames y.apply q r)
    (hrenames' : Renames y'.apply (q.rename u) (r.rename w)) :
    ∀ v ∈ q.slots, y'.apply (u.apply v) = w.apply (y.apply v) := by
  have hold := htidy.renames_rename hu
  have hnew := htidy'.renames_rename hw
  intro v hv
  by_cases hanchor : v = q.central.var
  · rw [hanchor, ← hold.var, ← hrenames'.var, hnew.var, hrenames.var]
  rcases mem_slots_of_isAttached htidy.attached hv with h | rfl | hplayer
  · exact absurd h hanchor
  · rw [← hold.typeVar, ← hrenames'.typeVar, hnew.typeVar, hrenames.typeVar]
  · obtain ⟨p, hp, rfl⟩ := List.mem_map.mp hplayer
    obtain ⟨x, hx, happly⟩ := exists_central_unifier hy
    obtain ⟨x', hx', happly'⟩ := exists_central_unifier hy'
    obtain ⟨o, ho⟩ := Atom.exists_facing_of_player hq hx hp
    have ho' : (u.apply p.2, w.apply o) ∈ (q.rename u).central.facing (r.rename w).central := by
      rw [rename, rename, Atom.facing_rename hu hw]
      exact List.mem_map.mpr ⟨_, ho, rfl⟩
    have hq' : (q.rename u).central.isPredicate = false := Atom.isPredicate_rename.trans hq
    have hanchor' : u.apply p.2 ≠ (q.rename u).central.var := by
      rw [hold.var]
      exact fun heq => hanchor (hu.injective heq)
    rw [happly _ hanchor, happly' _ hanchor', hsettled.apply_unifier hq hx ho,
      hsettled'.apply_unifier hq' hx' ho']

end AtomicQuery

end Renamed

end GraphInference
