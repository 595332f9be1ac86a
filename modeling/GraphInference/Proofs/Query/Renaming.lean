import GraphInference.Proofs.Query.Decomposed

/-!
# Renamings between queries

A renaming turns one query into another up to the order of players and predicates
(`AtomicQuery.Renames`). There is one exactly if the variables of the queries pair off by their profiles
(`AtomicQuery.exists_renames_iff`): a profile says where a variable stands, in which roles, and what is
asked of it.
-/

namespace GraphInference

/-! ## Fibres -/

section Fibers

variable {κ : Type} {ρ : Var → Var} {l m : List (κ × Var)} {v : Var}

/-- What stands beside a variable. -/
def fiber (l : List (κ × Var)) (v : Var) : Multiset κ :=
  ((l.filter fun p => p.2 = v).map (·.1) : List κ)

/-- The list with its variables renamed. -/
def relabel (ρ : Var → Var) (l : List (κ × Var)) : List (κ × Var) :=
  l.map fun p => (p.1, ρ p.2)

theorem fiber_eq_zero (h : ∀ p ∈ l, p.2 ≠ v) : fiber l v = 0 := by
  rw [fiber, List.filter_eq_nil_iff.mpr (by simpa using h)]
  rfl

/-- A renaming that tells `v` apart moves what stands beside it. -/
theorem fiber_relabel (h : ∀ p ∈ l, ρ p.2 = ρ v → p.2 = v) :
    fiber (relabel ρ l) (ρ v) = fiber l v := by
  unfold fiber relabel
  rw [List.filter_map, List.map_map]
  have hfilter : l.filter ((fun p => decide (p.2 = ρ v)) ∘ fun p => (p.1, ρ p.2)) =
      l.filter fun p => p.2 = v := by
    refine List.filter_congr fun p hp => ?_
    exact decide_eq_decide.mpr ⟨h p hp, fun e => congrArg ρ e⟩
  rw [hfilter]
  rfl

theorem fiber_eq_of_perm (h : l.Perm m) (v : Var) : fiber l v = fiber m v :=
  Multiset.coe_eq_coe.mpr ((h.filter _).map _)

/-- Lists with the same beside every variable are permutations of each other. -/
theorem perm_of_fiber_eq [DecidableEq κ] (h : ∀ v, fiber l v = fiber m v) : l.Perm m := by
  have hcount (l : List (κ × Var)) (k : κ) (v : Var) : l.count (k, v) = (fiber l v).count k := by
    rw [fiber, Multiset.coe_count]
    induction l with
    | nil => rfl
    | cons p l ih =>
      obtain ⟨k', v'⟩ := p
      by_cases hv : v' = v
      · subst hv
        rw [List.filter_cons_of_pos (by simp), List.map_cons, List.count_cons, List.count_cons, ih]
        simp
      · rw [List.filter_cons_of_neg (by simpa using hv),
          List.count_cons_of_ne fun e => hv (congrArg Prod.snd e), ih]
  refine List.perm_iff_count.mpr fun p => ?_
  obtain ⟨k, v⟩ := p
  rw [hcount, hcount, h]

end Fibers

/-- Lists without repetition whose members pair off by their images have a bijection between them. -/
theorem exists_bijection_of_perm {γ : Type} {f h : Var → γ} {l m : List Var} (hl : l.Nodup)
    (hm : m.Nodup) (hperm : (l.map f).Perm (m.map h)) :
    ∃ ρ : Var → Var, (∀ v ∈ l, ρ v ∈ m ∧ h (ρ v) = f v) ∧
      (∀ v ∈ l, ∀ w ∈ l, ρ v = ρ w → v = w) ∧ ∀ w ∈ m, ∃ v ∈ l, ρ v = w := by
  induction l generalizing m with
  | nil =>
    obtain rfl : m = [] := by simpa using hperm.symm.eq_nil
    exact ⟨id, by simp, by simp, by simp⟩
  | cons a l ih =>
    obtain ⟨ha, hl⟩ := List.nodup_cons.mp hl
    obtain ⟨b, hb, hab⟩ := List.mem_map.mp (hperm.mem_iff.mp (.head _))
    have hm' : m.Perm (b :: m.erase b) := List.perm_cons_erase hb
    have hnodup := hm'.nodup_iff.mp hm
    obtain ⟨hb', hnodup⟩ := List.nodup_cons.mp hnodup
    have hrest : (l.map f).Perm ((m.erase b).map h) := by
      refine (List.perm_cons (f a)).mp (hperm.trans ?_)
      rw [← hab]
      exact hm'.map h
    obtain ⟨ρ, hmem, hinj, hsurj⟩ := ih hl hnodup hrest
    have hne (v : Var) (hv : v ∈ l) : v ≠ a := fun e => ha (e ▸ hv)
    have hold (v : Var) (hv : v ∈ l) : Function.update ρ a b v = ρ v :=
      Function.update_of_ne (hne v hv) b ρ
    have hnew : Function.update ρ a b a = b := Function.update_self a b ρ
    have hout (v : Var) (hv : v ∈ l) : ρ v ≠ b := fun e => hb' (e ▸ (hmem v hv).1)
    refine ⟨Function.update ρ a b, ?_, ?_, fun w hw => ?_⟩
    · refine List.forall_mem_cons.mpr ⟨?_, fun v hv => ?_⟩
      · rw [hnew]
        exact ⟨hb, hab⟩
      · rw [hold v hv]
        exact ⟨List.mem_of_mem_erase (hmem v hv).1, (hmem v hv).2⟩
    · intro v hv w hw heq
      rcases List.mem_cons.mp hv with rfl | hv' <;> rcases List.mem_cons.mp hw with rfl | hw'
      · rfl
      · rw [hnew, hold w hw'] at heq
        exact absurd heq.symm (hout w hw')
      · rw [hnew, hold v hv'] at heq
        exact absurd heq (hout v hv')
      · rw [hold v hv', hold w hw'] at heq
        exact hinj v hv' w hw' heq
    · rcases List.mem_cons.mp (hm'.mem_iff.mp hw) with rfl | hw
      · exact ⟨a, .head _, hnew⟩
      · obtain ⟨v, hv, rfl⟩ := hsurj w hw
        exact ⟨v, .tail _ hv, hold v hv⟩

/-! ## Renamings -/

/-- What a predicate asks of its variable. -/
inductive Demand where
  | value (constraint : Constraint)
  | identity (id : ConceptId)
  | substitution (value : String)
deriving DecidableEq

namespace Atom

def demand? : Atom → Option Demand
  | .value p => some (.value p.constraint)
  | .identity p => some (.identity p.id)
  | .substitution s => some (.substitution s.value)
  | _ => none

/-- The variable of the type, absent if the atom has none. -/
def typeVar (a : Atom) : Var :=
  a.anchor?.elim .empty Anchor.typeVar

end Atom

namespace AtomicQuery

/-- What the predicates ask, with the variables that they ask it of. -/
def demands (q : AtomicQuery) : List (Option Demand × Var) :=
  q.predicates.map fun p => (p.demand?, p.var)

/-- The variables at the places of the query, an absent type variable among them. -/
def slots (q : AtomicQuery) : List Var :=
  q.central.var :: q.central.typeVar :: (q.central.players.map (·.2) ++ q.demands.map (·.2))

/-- A one-to-one renaming of the variables that keeps which of them are user-defined and turns the
central atom and the predicates of `q` into those of `r`, players and predicates in any order. -/
structure Renames (ρ : Var → Var) (q r : AtomicQuery) : Prop where
  injective : ∀ v ∈ q.slots, ∀ w ∈ q.slots, ρ v = ρ w → v = w
  userDefined : ∀ v ∈ q.slots, (ρ v).userDefined = v.userDefined
  absent : ∀ v ∈ q.slots, (ρ v).isEmpty = v.isEmpty
  family : r.central.family = q.central.family
  var : r.central.var = ρ q.central.var
  typeVar : r.central.typeVar = ρ q.central.typeVar
  type : r.central.typePredicate?.map (fun p => (p.id, p.var)) =
    q.central.typePredicate?.map fun p => (p.id, ρ p.var)
  players : r.central.players.Perm (relabel ρ q.central.players)
  demands : r.demands.Perm (relabel ρ q.demands)

instance {ρ : Var → Var} {q r : AtomicQuery} : Decidable (Renames ρ q r) :=
  decidable_of_iff ((∀ v ∈ q.slots, ∀ w ∈ q.slots, ρ v = ρ w → v = w) ∧
      (∀ v ∈ q.slots, (ρ v).userDefined = v.userDefined) ∧
      (∀ v ∈ q.slots, (ρ v).isEmpty = v.isEmpty) ∧ r.central.family = q.central.family ∧
      r.central.var = ρ q.central.var ∧ r.central.typeVar = ρ q.central.typeVar ∧
      r.central.typePredicate?.map (fun p => (p.id, p.var)) =
        q.central.typePredicate?.map (fun p => (p.id, ρ p.var)) ∧
      r.central.players.Perm (relabel ρ q.central.players) ∧ r.demands.Perm (relabel ρ q.demands))
    ⟨fun ⟨h₁, h₂, h₃, h₄, h₅, h₆, h₇, h₈, h₉⟩ => ⟨h₁, h₂, h₃, h₄, h₅, h₆, h₇, h₈, h₉⟩,
      fun ⟨h₁, h₂, h₃, h₄, h₅, h₆, h₇, h₈, h₉⟩ => ⟨h₁, h₂, h₃, h₄, h₅, h₆, h₇, h₈, h₉⟩⟩

/-- Where a variable stands in a query and what is asked of it, whatever it is called. -/
structure Profile where
  userDefined : Bool
  isAbsent : Bool
  isAnchor : Bool
  isType : Bool
  roles : Multiset Role
  demands : Multiset (Option Demand)
deriving DecidableEq

def profile (q : AtomicQuery) (v : Var) : Profile where
  userDefined := v.userDefined
  isAbsent := v.isEmpty
  isAnchor := q.central.var = v
  isType := q.central.typeVar = v
  roles := fiber q.central.players v
  demands := fiber q.demands v

/-- The profiles of the variables, one for each. -/
def profiles (q : AtomicQuery) : Multiset Profile :=
  (q.slots.dedup.map q.profile : List Profile)

variable {q r : AtomicQuery} {ρ : Var → Var} {v w : Var}

theorem mem_slots : v ∈ q.slots ↔ v = q.central.var ∨ v = q.central.typeVar ∨
    (∃ p ∈ q.central.players, p.2 = v) ∨ ∃ p ∈ q.demands, p.2 = v := by
  simp only [slots, List.mem_cons, List.mem_append, List.mem_map]

theorem var_mem_slots : q.central.var ∈ q.slots :=
  mem_slots.mpr (.inl rfl)

theorem typeVar_mem_slots : q.central.typeVar ∈ q.slots :=
  mem_slots.mpr (.inr (.inl rfl))

theorem player_mem_slots {p : Role × Var} (hp : p ∈ q.central.players) : p.2 ∈ q.slots :=
  mem_slots.mpr (.inr (.inr (.inl ⟨p, hp, rfl⟩)))

theorem demand_mem_slots {p : Option Demand × Var} (hp : p ∈ q.demands) : p.2 ∈ q.slots :=
  mem_slots.mpr (.inr (.inr (.inr ⟨p, hp, rfl⟩)))

namespace Renames

/-- A renaming reaches exactly the variables of the other query. -/
theorem mem_slots_iff (h : Renames ρ q r) : w ∈ r.slots ↔ ∃ v ∈ q.slots, ρ v = w := by
  have hlist {κ : Type} {l m : List (κ × Var)} (hperm : m.Perm (relabel ρ l)) :
      (∃ p ∈ m, p.2 = w) ↔ ∃ p ∈ l, ρ p.2 = w := by
    simp only [hperm.mem_iff, relabel, List.mem_map, exists_exists_and_eq_and]
  rw [mem_slots, hlist h.players, hlist h.demands, h.var, h.typeVar]
  constructor
  · rintro (rfl | rfl | ⟨p, hp, rfl⟩ | ⟨p, hp, rfl⟩)
    · exact ⟨_, var_mem_slots, rfl⟩
    · exact ⟨_, typeVar_mem_slots, rfl⟩
    · exact ⟨_, player_mem_slots hp, rfl⟩
    · exact ⟨_, demand_mem_slots hp, rfl⟩
  · rintro ⟨v, hv, rfl⟩
    rcases mem_slots.mp hv with rfl | rfl | ⟨p, hp, rfl⟩ | ⟨p, hp, rfl⟩
    · exact .inl rfl
    · exact .inr (.inl rfl)
    · exact .inr (.inr (.inl ⟨p, hp, rfl⟩))
    · exact .inr (.inr (.inr ⟨p, hp, rfl⟩))

theorem eq_iff (h : Renames ρ q r) (hv : v ∈ q.slots) (hw : w ∈ q.slots) : ρ v = ρ w ↔ v = w :=
  ⟨h.injective v hv w hw, congrArg ρ⟩

/-- A variable has the profile of the variable that it is renamed to. -/
theorem profile_eq (h : Renames ρ q r) (hv : v ∈ q.slots) : r.profile (ρ v) = q.profile v := by
  unfold profile
  rw [h.userDefined v hv, h.absent v hv, h.var, h.typeVar, fiber_eq_of_perm h.players,
    fiber_eq_of_perm h.demands, fiber_relabel fun p hp => h.injective _ (player_mem_slots hp) v hv,
    fiber_relabel fun p hp => h.injective _ (demand_mem_slots hp) v hv]
  simp only [h.eq_iff var_mem_slots hv, h.eq_iff typeVar_mem_slots hv]

theorem profiles_eq (h : Renames ρ q r) : q.profiles = r.profiles := by
  have hslots : (q.slots.dedup.map ρ).Perm r.slots.dedup := by
    refine (List.perm_ext_iff_of_nodup ?_ (List.nodup_dedup _)).mpr fun w => ?_
    · refine (List.nodup_dedup _).map_on fun v hv w hw => h.injective v ?_ w ?_
      · exact List.mem_dedup.mp hv
      · exact List.mem_dedup.mp hw
    · simp only [List.mem_map, List.mem_dedup, h.mem_slots_iff]
  have hmap : q.slots.dedup.map q.profile = (q.slots.dedup.map ρ).map r.profile := by
    rw [List.map_map]
    refine List.map_congr_left fun v hv => (h.profile_eq ?_).symm
    exact List.mem_dedup.mp hv
  unfold profiles
  rw [hmap]
  exact Multiset.coe_eq_coe.mpr (hslots.map _)

end Renames

/-- Pairs of the same fibers, along a bijection of the variables, are each other's renamings. -/
theorem perm_relabel_of_fiber_eq {κ : Type} [DecidableEq κ] {l m : List (κ × Var)} {ρ : Var → Var}
    (hinj : ∀ v ∈ q.slots, ∀ w ∈ q.slots, ρ v = ρ w → v = w) (hmaps : ∀ v ∈ q.slots, ρ v ∈ r.slots)
    (hsurj : ∀ w ∈ r.slots, ∃ v ∈ q.slots, ρ v = w) (hl : ∀ p ∈ l, p.2 ∈ q.slots)
    (hm : ∀ p ∈ m, p.2 ∈ r.slots) (heq : ∀ v ∈ q.slots, fiber m (ρ v) = fiber l v) :
    m.Perm (relabel ρ l) := by
  refine perm_of_fiber_eq fun w => ?_
  by_cases hw : w ∈ r.slots
  · obtain ⟨v, hv, rfl⟩ := hsurj w hw
    rw [heq v hv, fiber_relabel fun p hp => hinj _ (hl p hp) v hv]
  · have hout : ∀ p ∈ relabel ρ l, p.2 ≠ w := by
      rintro p hp rfl
      obtain ⟨p', hp', rfl⟩ := List.mem_map.mp hp
      exact hw (hmaps p'.2 (hl p' hp'))
    have hout' : ∀ p ∈ m, p.2 ≠ w := by
      rintro p hp rfl
      exact hw (hm p hp)
    rw [fiber_eq_zero hout', fiber_eq_zero hout]

/-- Queries of one family and type, each with its type variable at the type, are renamings of each
other exactly if the profiles of their variables are the same. -/
theorem exists_renames_iff (hfamily : r.central.family = q.central.family)
    (htype : r.central.typeId? = q.central.typeId?)
    (hq : ∀ p, q.central.typePredicate? = some p → p.var = q.central.typeVar)
    (hr : ∀ p, r.central.typePredicate? = some p → p.var = r.central.typeVar) :
    (∃ ρ, Renames ρ q r) ↔ q.profiles = r.profiles := by
  constructor
  · rintro ⟨ρ, h⟩
    exact h.profiles_eq
  · intro h
    obtain ⟨ρ, hprofile, hinj, hsurj⟩ := exists_bijection_of_perm (List.nodup_dedup q.slots)
      (List.nodup_dedup r.slots) (Multiset.coe_eq_coe.mp h)
    simp only [List.mem_dedup] at hprofile hinj hsurj
    have hmaps : ∀ v ∈ q.slots, ρ v ∈ r.slots := fun v hv => (hprofile v hv).1
    have hvar : r.central.var = ρ q.central.var := by
      have := congrArg Profile.isAnchor (hprofile _ var_mem_slots).2
      simpa [profile] using this
    have htypeVar : r.central.typeVar = ρ q.central.typeVar := by
      have := congrArg Profile.isType (hprofile _ typeVar_mem_slots).2
      simpa [profile] using this
    refine ⟨ρ, hinj, fun v hv => congrArg Profile.userDefined (hprofile v hv).2,
      fun v hv => congrArg Profile.isAbsent (hprofile v hv).2, hfamily, hvar, htypeVar, ?_, ?_, ?_⟩
    · have htype : r.central.typePredicate?.map IdPredicate.id =
          q.central.typePredicate?.map IdPredicate.id := by
        have hmap (a : Atom) : a.typeId? = a.typePredicate?.map IdPredicate.id := by
          cases a <;> rfl
        rw [← hmap, ← hmap, htype]
      cases hq' : q.central.typePredicate? with
      | none =>
        rw [hq', Option.map_none, Option.map_eq_none_iff] at htype
        rw [htype]
        rfl
      | some p =>
        rw [hq', Option.map_some, Option.map_eq_some_iff] at htype
        obtain ⟨p', hp', hid⟩ := htype
        rw [hp', Option.map_some, Option.map_some, hid, hq p hq', hr p' hp', htypeVar]
    · exact perm_relabel_of_fiber_eq hinj hmaps hsurj (fun p hp => player_mem_slots hp)
        (fun p hp => player_mem_slots hp) fun v hv => congrArg Profile.roles (hprofile v hv).2
    · exact perm_relabel_of_fiber_eq hinj hmaps hsurj (fun p hp => demand_mem_slots hp)
        (fun p hp => demand_mem_slots hp) fun v hv => congrArg Profile.demands (hprofile v hv).2

end AtomicQuery

end GraphInference
