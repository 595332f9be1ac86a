/-!
# Sorted sets

A finite set held as its members in ascending order. `mem_insert` says what an insertion does to
membership.
-/

namespace GraphInference

open Std

/-- A finite set: its members, strictly ascending. -/
structure SortedSet (α : Type) [Ord α] where
  toList : List α
  ascending : toList.Pairwise fun a b => compare a b = .lt

namespace SortedSet

variable {α : Type} [Ord α]

theorem eq_of_toList {s t : SortedSet α} (h : s.toList = t.toList) : s = t := by
  cases s; cases t; cases h; rfl

instance [DecidableEq α] : DecidableEq (SortedSet α) := fun s t =>
  if h : s.toList = t.toList then .isTrue (eq_of_toList h)
  else .isFalse fun e => h (e ▸ rfl)

/-- The set without members. -/
def empty : SortedSet α := ⟨[], .nil⟩

instance : Inhabited (SortedSet α) := ⟨empty⟩

/-- The list with `a` in its place, unless it is there already. -/
def insertMember (a : α) : List α → List α
  | [] => [a]
  | b :: rest =>
    match compare a b with
    | .lt => a :: b :: rest
    | .eq => b :: rest
    | .gt => b :: insertMember a rest

theorem mem_of_mem_insertMember {a b : α} {l : List α} (h : b ∈ insertMember a l) :
    b = a ∨ b ∈ l := by
  induction l with
  | nil => exact .inl (List.mem_singleton.mp h)
  | cons c l ih =>
    rw [insertMember] at h
    split at h
    · simpa using h
    · exact .inr h
    · rcases List.mem_cons.mp h with h | h
      · exact .inr (h ▸ .head _)
      · exact (ih h).imp id (.tail _)

theorem ascending_insertMember [TransOrd α] (a : α) {l : List α}
    (h : l.Pairwise fun a b => compare a b = .lt) :
    (insertMember a l).Pairwise fun a b => compare a b = .lt := by
  induction l with
  | nil => exact List.pairwise_singleton _ _
  | cons c l ih =>
    obtain ⟨hc, hl⟩ := List.pairwise_cons.mp h
    rw [insertMember]
    split
    · next hk =>
      refine List.pairwise_cons.mpr ⟨fun e he => ?_, h⟩
      rcases List.mem_cons.mp he with he | he
      · exact he ▸ hk
      · exact TransCmp.lt_trans hk (hc e he)
    · exact h
    · next hk =>
      refine List.pairwise_cons.mpr ⟨fun e he => ?_, ih hl⟩
      rcases mem_of_mem_insertMember he with he | he
      · exact he ▸ OrientedCmp.lt_of_gt hk
      · exact hc e he

/-- The set with `a` as a member. -/
def insert [TransOrd α] (s : SortedSet α) (a : α) : SortedSet α :=
  ⟨insertMember a s.toList, ascending_insertMember a s.ascending⟩

instance : Membership α (SortedSet α) := ⟨fun s a => a ∈ s.toList⟩

/-- Whether `a` is a member. -/
def contains (s : SortedSet α) (a : α) : Bool :=
  s.toList.any fun b => compare a b == .eq

/-- The set of the members of a list. -/
def ofList [TransOrd α] (l : List α) : SortedSet α :=
  l.foldl insert empty

/-- The members of both sets. -/
def union [TransOrd α] (s t : SortedSet α) : SortedSet α :=
  t.toList.foldl insert s

/-- The members that pass `p`. -/
def filter (s : SortedSet α) (p : α → Bool) : SortedSet α :=
  ⟨s.toList.filter p, s.ascending.filter p⟩

/-- Whether every member of `s` is one of `t`. -/
def subset (s t : SortedSet α) : Bool :=
  s.toList.all t.contains

theorem mem_insert [TransOrd α] [LawfulEqOrd α] {s : SortedSet α} {a b : α} :
    b ∈ s.insert a ↔ b = a ∨ b ∈ s := by
  refine ⟨mem_of_mem_insertMember, fun h => ?_⟩
  show b ∈ insertMember a s.toList
  replace h : b = a ∨ b ∈ s.toList := h
  generalize s.toList = l at h
  induction l with
  | nil => simpa [insertMember] using h
  | cons c l ih =>
    rw [insertMember]
    split
    · simpa using h
    · next hk =>
      rcases h with h | h
      · exact h ▸ LawfulEqCmp.eq_of_compare hk ▸ .head _
      · exact h
    · rcases h with h | h
      · exact .tail _ (ih (.inl h))
      · rcases List.mem_cons.mp h with h | h
        · exact h ▸ .head _
        · exact .tail _ (ih (.inr h))

theorem contains_iff [LawfulEqOrd α] {s : SortedSet α} {a : α} : s.contains a ↔ a ∈ s := by
  show (s.toList.any fun b => compare a b == .eq) = true ↔ a ∈ s.toList
  simp only [List.any_eq_true, beq_iff_eq]
  exact ⟨fun ⟨b, hb, he⟩ => LawfulEqCmp.eq_of_compare he ▸ hb, fun h => ⟨a, h, ReflCmp.compare_self⟩⟩

end SortedSet

end GraphInference
