import GraphInference.Graph
import GraphInference.Proofs.Sorted

/-!
# The type hierarchy as a closure

`supertypes` follows one chain of parents and `subtypes` grows a queue of children. Both compute the
reflexive and transitive closure of the parent relation, also where parents run in a cycle:
`mem_supertypes` and `mem_subtypes`.

Each loop takes a new key of the parent map per step, so the number of keys not yet seen bounds it.
-/

namespace GraphInference.Graph

open Relation (ReflTransGen)

variable (g : Graph)

/-- `sup` is the parent of `sub`. -/
def HasParent (sub sup : ConceptId) : Prop :=
  g.parents.find? sub = some sup

/-- `sup` is `sub` or reached from it by parents. -/
def Below : ConceptId → ConceptId → Prop :=
  ReflTransGen g.HasParent

/-- The types with a parent that are not in a list. -/
def unseen (seen : List ConceptId) : Finset ConceptId :=
  g.parents.keys.toFinset.filter (· ∉ seen)

variable {g}

theorem mem_unseen {seen : List ConceptId} {a : ConceptId} :
    a ∈ g.unseen seen ↔ (∃ p, g.HasParent a p) ∧ a ∉ seen := by
  rw [unseen, Finset.mem_filter, List.mem_toFinset, SortedMap.mem_keys_iff,
    SortedMap.contains_iff_isSome]
  rfl

theorem card_unseen_le (seen : List ConceptId) : (g.unseen seen).card ≤ g.parents.size := by
  calc (g.unseen seen).card ≤ g.parents.keys.toFinset.card := Finset.card_filter_le _ _
    _ ≤ g.parents.keys.length := List.toFinset_card_le _
    _ = g.parents.size := List.length_map _

theorem unseen_cons (a : ConceptId) (seen : List ConceptId) :
    g.unseen (a :: seen) = (g.unseen seen).erase a := by
  ext b
  simp only [Finset.mem_erase, mem_unseen, List.mem_cons, not_or]
  tauto

/-- A type with a parent is one unseen type less once it is seen. -/
theorem card_unseen_cons_lt {seen : List ConceptId} {a p : ConceptId} (hp : g.HasParent a p)
    (ha : a ∉ seen) : (g.unseen (a :: seen)).card < (g.unseen seen).card := by
  rw [unseen_cons]
  exact Finset.card_erase_lt_of_mem (mem_unseen.mpr ⟨⟨p, hp⟩, ha⟩)

/-! ## Supertypes -/

theorem below_of_mem_parentChain {n : Nat} {seen : List ConceptId} {a b : ConceptId}
    (h : b ∈ g.parentChain n seen a) : g.Below a b := by
  induction n generalizing seen a with
  | zero => cases h
  | succ n ih =>
    rw [parentChain] at h
    split at h
    · cases h
    · next p hp =>
      split at h
      · cases h
      · rcases List.mem_cons.mp h with rfl | h
        · exact .single hp
        · exact .head hp (ih h)

/-- What is seen, with the rest of the chain, is closed under parents. -/
theorem mem_parentChain_of_hasParent {n : Nat} {seen : List ConceptId} {a : ConceptId}
    (ha : a ∈ seen) (hseen : ∀ b ∈ seen, b ≠ a → ∀ c, g.HasParent b c → c ∈ seen)
    (hn : (∃ p, g.HasParent a p) → (g.unseen seen).card < n) {b c : ConceptId}
    (hb : b ∈ seen ∨ b ∈ g.parentChain n seen a) (hc : g.HasParent b c) :
    c ∈ seen ∨ c ∈ g.parentChain n seen a := by
  induction n generalizing seen a with
  | zero =>
    have hb : b ∈ seen := hb.resolve_right List.not_mem_nil
    by_cases e : b = a
    · exact absurd (hn ⟨c, e ▸ hc⟩) (Nat.not_lt_zero _)
    · exact .inl (hseen b hb e c hc)
  | succ n ih =>
    rw [parentChain] at hb ⊢
    cases hp : g.parents.find? a with
    | none =>
      simp only [hp, List.not_mem_nil, or_false] at hb ⊢
      refine hseen b hb (fun e => ?_) c hc
      subst e
      exact absurd (hp.symm.trans hc) (by simp)
    | some p =>
      simp only [hp] at hb ⊢
      by_cases hps : p ∈ seen
      · rw [if_pos hps] at hb ⊢
        have hb : b ∈ seen := hb.resolve_right List.not_mem_nil
        by_cases e : b = a
        · subst e
          obtain rfl : p = c := Option.some.inj (hp.symm.trans hc)
          exact .inl hps
        · exact .inl (hseen b hb e c hc)
      · rw [if_neg hps] at hb ⊢
        have hlt := hn ⟨p, hp⟩
        have key : c ∈ p :: seen ∨ c ∈ g.parentChain n (p :: seen) p := by
          refine ih (.head _) (fun d hd hne e he => ?_) (fun ⟨q, hq⟩ => ?_) ?_
          · have hd := (List.mem_cons.mp hd).resolve_left hne
            by_cases hda : d = a
            · subst hda
              exact Option.some.inj (hp.symm.trans he) ▸ .head _
            · exact .tail _ (hseen d hd hda e he)
          · have := card_unseen_cons_lt hq hps
            omega
          · rw [List.mem_cons] at hb ⊢
            tauto
        rw [List.mem_cons] at key ⊢
        tauto

/-- The supertypes of a type are those that it is below. -/
theorem mem_supertypes {a b : ConceptId} : b ∈ g.supertypes a ↔ g.Below a b := by
  rw [supertypes, List.mem_cons]
  constructor
  · rintro (rfl | h)
    · exact .refl
    · exact below_of_mem_parentChain h
  · intro h
    suffices b ∈ [a] ∨ b ∈ g.parentChain g.parents.size [a] a by simpa using this
    induction h with
    | refl => exact .inl (.head _)
    | tail _ hbc ih =>
      refine mem_parentChain_of_hasParent (.head _) (fun b hb hne => ?_) (fun ⟨p, hp⟩ => ?_) ih hbc
      · exact absurd (List.mem_singleton.mp hb) hne
      · have := card_unseen_cons_lt hp (List.not_mem_nil (a := a))
        have := card_unseen_le (g := g) []
        omega

/-! ## Subtypes -/

theorem mem_newChildren {seen : List ConceptId} {a b : ConceptId} :
    b ∈ g.newChildren seen a ↔ g.HasParent b a ∧ b ∉ seen := by
  simp only [newChildren, List.mem_map, List.mem_filter, Bool.and_eq_true, decide_eq_true_eq,
    Prod.exists, exists_and_right, exists_eq_right, ← SortedMap.find?_eq_some_iff]
  exact ⟨fun ⟨p, hp, e, hb⟩ => ⟨e ▸ hp, hb⟩, fun ⟨hp, hb⟩ => ⟨a, hp, rfl, hb⟩⟩

theorem nodup_newChildren (seen : List ConceptId) (a : ConceptId) :
    (g.newChildren seen a).Nodup := by
  have h : (g.newChildren seen a).Sublist g.parents.keys := by
    rw [newChildren, SortedMap.keys]
    exact List.filter_sublist.map _
  exact h.nodup g.parents.nodup_keys

theorem below_of_mem_descend {n : Nat} {seen queue : List ConceptId} {b : ConceptId}
    (h : b ∈ g.descend n seen queue) : ∃ a ∈ queue, g.Below b a := by
  induction n generalizing seen queue with
  | zero => cases h
  | succ n ih =>
    cases queue with
    | nil => cases h
    | cons a queue =>
      rcases List.mem_append.mp h with h | h
      · exact ⟨a, .head _, .single (mem_newChildren.mp h).1⟩
      · obtain ⟨c, hc, hbc⟩ := ih h
        rcases List.mem_append.mp hc with hc | hc
        · exact ⟨c, .tail _ hc, hbc⟩
        · exact ⟨a, .head _, hbc.tail (mem_newChildren.mp hc).1⟩

theorem card_unseen_append_newChildren (seen : List ConceptId) (a : ConceptId) :
    (g.unseen (seen ++ g.newChildren seen a)).card + (g.newChildren seen a).length =
      (g.unseen seen).card := by
  have hsub : (g.newChildren seen a).toFinset ⊆ g.unseen seen := fun b hb => by
    have hb := mem_newChildren.mp (List.mem_toFinset.mp hb)
    exact mem_unseen.mpr ⟨⟨a, hb.1⟩, hb.2⟩
  have hdiff : g.unseen (seen ++ g.newChildren seen a) =
      g.unseen seen \ (g.newChildren seen a).toFinset := by
    ext b
    simp only [Finset.mem_sdiff, mem_unseen, List.mem_append, List.mem_toFinset, not_or]
    tauto
  rw [hdiff, Finset.card_sdiff_of_subset hsub,
    List.toFinset_card_of_nodup (nodup_newChildren seen a)]
  have := Finset.card_le_card hsub
  rw [List.toFinset_card_of_nodup (nodup_newChildren seen a)] at this
  omega

/-- What is seen, with what is found below the queue, is closed under children. -/
theorem mem_descend_of_hasParent {n : Nat} {seen queue : List ConceptId}
    (hqueue : ∀ a ∈ queue, a ∈ seen)
    (hseen : ∀ b ∈ seen, b ∉ queue → ∀ c, g.HasParent c b → c ∈ seen)
    (hn : (g.unseen seen).card + queue.length ≤ n) {b c : ConceptId}
    (hb : b ∈ seen ∨ b ∈ g.descend n seen queue) (hc : g.HasParent c b) :
    c ∈ seen ∨ c ∈ g.descend n seen queue := by
  induction n generalizing seen queue with
  | zero =>
    have hq : queue = [] := List.length_eq_zero_iff.mp (by omega)
    subst hq
    exact .inl (hseen b (hb.resolve_right List.not_mem_nil) List.not_mem_nil c hc)
  | succ n ih =>
    cases queue with
    | nil => exact .inl (hseen b (hb.resolve_right List.not_mem_nil) List.not_mem_nil c hc)
    | cons a queue =>
      have hcard := card_unseen_append_newChildren (g := g) seen a
      rw [List.length_cons] at hn
      have key : c ∈ seen ++ g.newChildren seen a ∨
          c ∈ g.descend n (seen ++ g.newChildren seen a) (queue ++ g.newChildren seen a) := by
        refine ih (fun d hd => ?_) (fun d hd hdq e he => ?_) ?_ ?_
        · rcases List.mem_append.mp hd with hd | hd
          · exact List.mem_append_left _ (hqueue d (.tail _ hd))
          · exact List.mem_append_right _ hd
        · rw [List.mem_append, not_or] at hdq
          have hd := (List.mem_append.mp hd).resolve_right hdq.2
          by_cases hes : e ∈ seen
          · exact List.mem_append_left _ hes
          · by_cases hda : d = a
            · subst hda
              exact List.mem_append_right _ (mem_newChildren.mpr ⟨he, hes⟩)
            · have hdq : d ∉ a :: queue := fun h => hdq.1 ((List.mem_cons.mp h).resolve_left hda)
              exact absurd (hseen d hd hdq e he) hes
        · rw [List.length_append]
          omega
        · rw [descend, List.mem_append] at hb
          rw [List.mem_append]
          tauto
      rw [descend, List.mem_append]
      rw [List.mem_append] at key
      tauto

/-- The subtypes of a type are those below it. -/
theorem mem_subtypes {a b : ConceptId} : b ∈ g.subtypes a ↔ g.Below b a := by
  rw [subtypes, List.mem_cons]
  constructor
  · rintro (rfl | h)
    · exact .refl
    · obtain ⟨c, hc, hbc⟩ := below_of_mem_descend h
      exact List.mem_singleton.mp hc ▸ hbc
  · intro h
    suffices b ∈ [a] ∨ b ∈ g.descend (g.parents.size + 1) [a] [a] by simpa using this
    induction h using ReflTransGen.head_induction_on with
    | refl => exact .inl (.head _)
    | head hcd _ ih =>
      refine mem_descend_of_hasParent (fun _ h => h) (fun _ h hn => absurd h hn) ?_ ih hcd
      have := card_unseen_le (g := g) [a]
      rw [List.length_singleton]
      omega

end GraphInference.Graph
