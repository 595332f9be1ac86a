import Mathlib
import GraphInference.Sorted.Map
import GraphInference.Sorted.Set

/-!
# Look-ups and membership

What the operations of sorted maps and sets do, seen through `find?` and `∈`. Both containers are
extensional: maps with the same look-ups are equal, and so are sets with the same members.
-/

namespace GraphInference

open Std

/-! ## Ascending lists -/

theorem nodup_of_ascending {α : Type} [Ord α] [ReflOrd α] {l : List α}
    (h : l.Pairwise fun a b => compare a b = .lt) : l.Nodup := by
  refine h.imp fun {a b} hab e => ?_
  subst e
  simp at hab

theorem eq_of_ascending_of_mem_iff {α : Type} [Ord α] [TransOrd α] {l m : List α}
    (hl : l.Pairwise fun a b => compare a b = .lt) (hm : m.Pairwise fun a b => compare a b = .lt)
    (h : ∀ a, a ∈ l ↔ a ∈ m) : l = m := by
  refine List.Perm.eq_of_pairwise (fun a b _ _ hab hba => ?_) hl hm
    ((List.perm_ext_iff_of_nodup (nodup_of_ascending hl) (nodup_of_ascending hm)).mpr h)
  rw [OrientedCmp.gt_of_lt hab] at hba
  cases hba

namespace SortedMap

variable {α β γ : Type} [Ord α]

@[simp] theorem find?_empty (k : α) : (empty : SortedMap α β).find? k = none := rfl

theorem contains_iff_isSome {m : SortedMap α β} {k : α} :
    m.contains k = true ↔ ∃ v, m.find? k = some v := by
  rw [contains, Option.isSome_iff_exists]

theorem contains_eq_false_iff {m : SortedMap α β} {k : α} :
    m.contains k = false ↔ m.find? k = none := by
  rw [contains, Option.isSome_eq_false_iff, Option.isNone_iff_eq_none]

theorem nodup_keys [ReflOrd α] (m : SortedMap α β) : m.keys.Nodup := by
  refine nodup_of_ascending ?_
  rw [keys, List.pairwise_map]
  exact m.ascending

theorem find?_foldl_insert [TransOrd α] (l : List (α × β)) (m : SortedMap α β) (k : α) :
    (l.foldl (fun m e => m.insert e.1 e.2) m).find? k =
      ((l.reverse.find? fun e => compare k e.1 == .eq).map (·.2)).or (m.find? k) := by
  induction l generalizing m with
  | nil => simp
  | cons hd tl ih =>
    rw [List.foldl_cons, ih, List.reverse_cons, List.find?_append, find?_insert]
    by_cases h : compare k hd.1 = .eq <;> cases tl.reverse.find? fun e => compare k e.1 == .eq <;>
      simp [h]

/-- A look-up finds exactly the entries. -/
theorem find?_eq_some_iff [LawfulEqOrd α] {m : SortedMap α β} {k : α} {v : β} :
    m.find? k = some v ↔ (k, v) ∈ m.entries := by
  obtain ⟨l, hl⟩ := m
  show (l.find? fun e => compare k e.1 == .eq).map (·.2) = some v ↔ (k, v) ∈ l
  induction l with
  | nil => simp
  | cons hd tl ih =>
    obtain ⟨a, b⟩ := hd
    obtain ⟨hhd, htl⟩ := List.pairwise_cons.mp hl
    by_cases h : compare k a = .eq
    · obtain rfl := LawfulEqCmp.eq_of_compare h
      have hne : (k, v) ∉ tl := fun hv => by
        have := hhd _ hv
        simp at this
      simp [hne, eq_comm]
    · have hne : k ≠ a := fun e => h (e ▸ ReflCmp.compare_self)
      simpa [h, hne] using ih htl

theorem mem_keys_iff [LawfulEqOrd α] {m : SortedMap α β} {k : α} : k ∈ m.keys ↔ m.contains k = true := by
  rw [contains_iff_isSome]
  simp only [keys, List.mem_map, Prod.exists, exists_and_right, exists_eq_right, find?_eq_some_iff]

/-- The entries whose keys pass `p`. -/
def restrict (m : SortedMap α β) (p : α → Bool) : SortedMap α β :=
  ⟨m.entries.filter fun e => p e.1, m.ascending.filter _⟩

theorem find?_restrict [LawfulEqOrd α] (m : SortedMap α β) (p : α → Bool) (k : α) :
    (m.restrict p).find? k = if p k then m.find? k else none := by
  refine Option.ext fun v => ?_
  rw [find?_eq_some_iff, restrict, List.mem_filter, ← find?_eq_some_iff]
  by_cases h : p k <;> simp [h]

section Lawful

variable [TransOrd α] [LawfulEqOrd α]

theorem find?_insert_self (m : SortedMap α β) (k : α) (v : β) : (m.insert k v).find? k = some v := by
  rw [find?_insert, if_pos ReflCmp.compare_self]

theorem find?_insert_of_ne (m : SortedMap α β) {k j : α} (v : β) (h : j ≠ k) :
    (m.insert k v).find? j = m.find? j := by
  rw [find?_insert, if_neg fun e => h (LawfulEqCmp.eq_of_compare e)]

theorem ext_find? {m n : SortedMap α β} (h : ∀ k, m.find? k = n.find? k) : m = n := by
  refine eq_of_entries (List.Perm.eq_of_pairwise (fun a b _ _ hab hba => ?_) m.ascending n.ascending
    ((List.perm_ext_iff_of_nodup ?_ ?_).mpr fun ⟨k, v⟩ => ?_))
  · rw [OrientedCmp.gt_of_lt hab] at hba
    cases hba
  · exact List.Nodup.of_map _ m.nodup_keys
  · exact List.Nodup.of_map _ n.nodup_keys
  · rw [← find?_eq_some_iff, ← find?_eq_some_iff, h]

theorem mem_keys_ofList {l : List (α × β)} {k : α} : k ∈ (ofList l).keys ↔ ∃ v, (k, v) ∈ l := by
  rw [mem_keys_iff, contains, ofList, find?_foldl_insert, find?_empty, Option.or_none,
    Option.isSome_map, List.find?_isSome]
  constructor
  · rintro ⟨⟨j, v⟩, hj, hk⟩
    obtain rfl := LawfulEqCmp.eq_of_compare (by simpa using hk : compare k j = .eq)
    exact ⟨v, List.mem_reverse.mp hj⟩
  · rintro ⟨v, hv⟩
    exact ⟨(k, v), List.mem_reverse.mpr hv, by simp⟩

/-- The map of a list with at most one value for a key finds the members of the list. -/
theorem find?_ofList {l : List (α × β)} (h : ∀ k v w, (k, v) ∈ l → (k, w) ∈ l → v = w) {k : α}
    {v : β} : (ofList l).find? k = some v ↔ (k, v) ∈ l := by
  rw [ofList, find?_foldl_insert, find?_empty, Option.or_none]
  constructor
  · intro hv
    obtain ⟨⟨j, w⟩, hw, rfl⟩ := Option.map_eq_some_iff.mp hv
    have hj : compare k j = .eq := by simpa using List.find?_some hw
    obtain rfl := LawfulEqCmp.eq_of_compare hj
    exact List.mem_reverse.mp (List.mem_of_find?_eq_some hw)
  · intro hv
    cases hw : l.reverse.find? fun e => compare k e.1 == .eq with
    | none =>
      have := List.find?_eq_none.mp hw (k, v) (List.mem_reverse.mpr hv)
      simp [ReflCmp.compare_self] at this
    | some e =>
      obtain ⟨j, w⟩ := e
      have hj : compare k j = .eq := by simpa using List.find?_some hw
      obtain rfl := LawfulEqCmp.eq_of_compare hj
      have hmem := List.mem_reverse.mp (List.mem_of_find?_eq_some hw)
      simpa using h k w v hmem hv

theorem ofList_entries (m : SortedMap α β) : ofList m.entries = m := by
  refine ext_find? fun k => Option.ext fun v => ?_
  rw [find?_ofList, find?_eq_some_iff]
  intro j v w hv hw
  exact Option.some.inj ((find?_eq_some_iff.mpr hv).symm.trans (find?_eq_some_iff.mpr hw))

/-- Changing the values of a map entry by entry changes what is found. -/
theorem find?_ofList_filterMap (m : SortedMap α β) (h : β → Option γ) (k : α) :
    (ofList (m.entries.filterMap fun e => (h e.2).map (e.1, ·))).find? k = (m.find? k).bind h := by
  have hmem (j : α) (w : γ) : (j, w) ∈ m.entries.filterMap (fun e => (h e.2).map (e.1, ·)) ↔
      (m.find? j).bind h = some w := by
    simp only [List.mem_filterMap, Prod.exists, Option.map_eq_some_iff, Prod.mk.injEq,
      Option.bind_eq_some_iff, find?_eq_some_iff]
    constructor
    · rintro ⟨j, v, hv, w, hw, rfl, rfl⟩
      exact ⟨v, hv, hw⟩
    · rintro ⟨v, hv, hw⟩
      exact ⟨j, v, hv, w, hw, rfl, rfl⟩
  refine Option.ext fun w => ?_
  rw [find?_ofList, hmem]
  intro j v w hv hw
  rw [hmem] at hv hw
  exact Option.some.inj (hv.symm.trans hw)

theorem find?_ofList_map (m : SortedMap α β) (h : β → γ) (k : α) :
    (ofList (m.entries.map fun e => (e.1, h e.2))).find? k = (m.find? k).map h := by
  rw [← List.filterMap_eq_map, Option.map_eq_bind]
  exact m.find?_ofList_filterMap (some ∘ h) k

/-- The map of the values that the keys of a list have. -/
theorem find?_ofList_keys {l : List α} {h : α → Option β} {k : α} {v : β} :
    (ofList (l.filterMap fun j => (h j).map (j, ·))).find? k = some v ↔ k ∈ l ∧ h k = some v := by
  have hmem (j : α) (v : β) :
      (j, v) ∈ l.filterMap (fun j => (h j).map (j, ·)) ↔ j ∈ l ∧ h j = some v := by
    simp only [List.mem_filterMap, Option.map_eq_some_iff, Prod.mk.injEq]
    constructor
    · rintro ⟨j, hj, v, hv, rfl, rfl⟩
      exact ⟨hj, hv⟩
    · rintro ⟨hj, hv⟩
      exact ⟨j, hj, v, hv, rfl, rfl⟩
  rw [find?_ofList, hmem]
  intro j v w hv hw
  rw [hmem] at hv hw
  exact Option.some.inj (hv.2.symm.trans hw.2)

instance [Ord β] [TransOrd β] [LawfulEqOrd β] : LawfulEqOrd (SortedMap α β) where
  compare_self {m} := by
    let _ : Ord (α × β) := lexOrd
    exact (ReflCmp.compare_self : compare m.entries m.entries = .eq)
  eq_of_compare {m n} h := by
    let _ : Ord (α × β) := lexOrd
    have h : compare m.entries n.entries = .eq := h
    exact eq_of_entries (LawfulEqCmp.eq_of_compare h)

end Lawful

end SortedMap

namespace SortedSet

variable {α : Type} [Ord α]

theorem mem_iff_mem_toList {s : SortedSet α} {a : α} : a ∈ s ↔ a ∈ s.toList := Iff.rfl

@[simp] theorem not_mem_empty (a : α) : a ∉ (empty : SortedSet α) := List.not_mem_nil

@[simp] theorem mem_filter {s : SortedSet α} {p : α → Bool} {a : α} :
    a ∈ s.filter p ↔ a ∈ s ∧ p a = true :=
  List.mem_filter

theorem subset_iff [LawfulEqOrd α] {s t : SortedSet α} :
    s.subset t = true ↔ ∀ a ∈ s, a ∈ t := by
  rw [subset, List.all_eq_true]
  exact forall₂_congr fun a _ => contains_iff

section Lawful

variable [TransOrd α] [LawfulEqOrd α]

theorem mem_foldl_insert {l : List α} {s : SortedSet α} {a : α} :
    a ∈ l.foldl insert s ↔ a ∈ s ∨ a ∈ l := by
  induction l generalizing s with
  | nil => simp
  | cons b l ih => rw [List.foldl_cons, ih, mem_insert, List.mem_cons]; tauto

@[simp] theorem mem_ofList {l : List α} {a : α} : a ∈ ofList l ↔ a ∈ l := by
  rw [ofList, mem_foldl_insert]
  simp

@[simp] theorem mem_union {s t : SortedSet α} {a : α} : a ∈ s.union t ↔ a ∈ s ∨ a ∈ t := by
  rw [union, mem_foldl_insert, mem_iff_mem_toList (s := t)]

end Lawful

end SortedSet

end GraphInference
