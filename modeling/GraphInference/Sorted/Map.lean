/-!
# Sorted maps

A finite map held as its entries in ascending key order, so that two maps are equal exactly when
they have the same entries. `find?_insert` says what an insertion does to every key.
-/

namespace GraphInference

open Std

/-- A finite map: its entries, strictly ascending by key. -/
structure SortedMap (α β : Type) [Ord α] where
  entries : List (α × β)
  ascending : entries.Pairwise fun a b => compare a.1 b.1 = .lt

namespace SortedMap

variable {α β : Type} [Ord α]

theorem eq_of_entries {m n : SortedMap α β} (h : m.entries = n.entries) : m = n := by
  cases m; cases n; cases h; rfl

instance [DecidableEq α] [DecidableEq β] : DecidableEq (SortedMap α β) := fun m n =>
  if h : m.entries = n.entries then .isTrue (eq_of_entries h)
  else .isFalse fun e => h (e ▸ rfl)

/-- The map without entries. -/
def empty : SortedMap α β := ⟨[], .nil⟩

instance : Inhabited (SortedMap α β) := ⟨empty⟩

/-- The entries with `k ↦ v` written in its place, over any entry of the same key. -/
def insertEntry (k : α) (v : β) : List (α × β) → List (α × β)
  | [] => [(k, v)]
  | (a, b) :: rest =>
    match compare k a with
    | .lt => (k, v) :: (a, b) :: rest
    | .eq => (k, v) :: rest
    | .gt => (a, b) :: insertEntry k v rest

theorem mem_insertEntry {k : α} {v : β} {l : List (α × β)} {e : α × β}
    (h : e ∈ insertEntry k v l) : e = (k, v) ∨ e ∈ l := by
  induction l with
  | nil => exact .inl (List.mem_singleton.mp h)
  | cons hd tl ih =>
    obtain ⟨a, b⟩ := hd
    rw [insertEntry] at h
    split at h
    · simpa using h
    · rcases List.mem_cons.mp h with h | h
      · exact .inl h
      · exact .inr (.tail _ h)
    · rcases List.mem_cons.mp h with h | h
      · exact .inr (h ▸ .head _)
      · exact (ih h).imp id (.tail _)

theorem ascending_insertEntry [TransOrd α] (k : α) (v : β) {l : List (α × β)}
    (h : l.Pairwise fun a b => compare a.1 b.1 = .lt) :
    (insertEntry k v l).Pairwise fun a b => compare a.1 b.1 = .lt := by
  induction l with
  | nil => exact List.pairwise_singleton _ _
  | cons hd tl ih =>
    obtain ⟨a, b⟩ := hd
    obtain ⟨hhd, htl⟩ := List.pairwise_cons.mp h
    rw [insertEntry]
    split
    · next hk =>
      refine List.pairwise_cons.mpr ⟨fun e he => ?_, h⟩
      rcases List.mem_cons.mp he with he | he
      · exact he ▸ hk
      · exact TransCmp.lt_trans hk (hhd e he)
    · next hk => exact List.pairwise_cons.mpr ⟨fun e he => TransCmp.lt_of_eq_of_lt hk (hhd e he), htl⟩
    · next hk =>
      refine List.pairwise_cons.mpr ⟨fun e he => ?_, ih htl⟩
      rcases mem_insertEntry he with he | he
      · exact he ▸ OrientedCmp.lt_of_gt hk
      · exact hhd e he

/-- The map with `k ↦ v` in place of what `k` had. -/
def insert [TransOrd α] (m : SortedMap α β) (k : α) (v : β) : SortedMap α β :=
  ⟨insertEntry k v m.entries, ascending_insertEntry k v m.ascending⟩

/-- The value at `k`. -/
def find? (m : SortedMap α β) (k : α) : Option β :=
  (m.entries.find? fun e => compare k e.1 == .eq).map (·.2)

/-- Whether `k` has a value. -/
def contains (m : SortedMap α β) (k : α) : Bool :=
  (m.find? k).isSome

/-- The keys, ascending. -/
def keys (m : SortedMap α β) : List α :=
  m.entries.map (·.1)

/-- The number of entries. -/
def size (m : SortedMap α β) : Nat :=
  m.entries.length

/-- The map of a list of entries, a later one over an earlier one of the same key. -/
def ofList [TransOrd α] (l : List (α × β)) : SortedMap α β :=
  l.foldl (fun m e => m.insert e.1 e.2) empty

/-- The map with the value at `k` changed by `f`, which gets none where `k` has none. -/
def alter [TransOrd α] (m : SortedMap α β) (k : α) (f : Option β → β) : SortedMap α β :=
  m.insert k (f (m.find? k))

theorem find?_insertEntry [TransOrd α] (k : α) (v : β) (j : α) (l : List (α × β)) :
    ((insertEntry k v l).find? fun e => compare j e.1 == .eq).map (·.2) =
      if compare j k = .eq then some v
      else (l.find? fun e => compare j e.1 == .eq).map (·.2) := by
  induction l with
  | nil => by_cases h : compare j k = .eq <;> simp [insertEntry, h]
  | cons hd tl ih =>
    obtain ⟨a, b⟩ := hd
    rw [insertEntry]
    split
    · by_cases h : compare j k = .eq <;> simp [h]
    · next hk =>
      by_cases h : compare j k = .eq
      · simp [h]
      · have : ¬ compare j a = .eq := fun e => h (TransCmp.eq_trans e (OrientedCmp.eq_symm hk))
        simp [h, this]
    · next hk =>
      by_cases ha : compare j a = .eq
      · have : ¬ compare j k = .eq := fun e => by
          have := TransCmp.eq_trans (OrientedCmp.eq_symm e) ha
          rw [hk] at this; cases this
        simp [ha, this]
      · simpa [ha] using ih

/-- Maps are ordered by their entries, entry by entry, keys before values. -/
instance [Ord β] : Ord (SortedMap α β) :=
  let _ : Ord (α × β) := lexOrd
  ⟨compareOn entries⟩

instance [Ord β] [TransOrd α] [TransOrd β] : TransOrd (SortedMap α β) :=
  let _ : Ord (α × β) := lexOrd
  inferInstanceAs (TransCmp (compareOn entries))

/-- An insertion changes the value at its key and at no other. -/
theorem find?_insert [TransOrd α] (m : SortedMap α β) (k j : α) (v : β) :
    (m.insert k v).find? j = if compare j k = .eq then some v else m.find? j :=
  find?_insertEntry k v j m.entries

end SortedMap

end GraphInference
