import GraphInference.Proofs.Outcome
import GraphInference.Traversal.ProgramCache

/-!
# What the program cache keeps

A cache gives the program that it keeps under the text of a conjunction, or else one that it plans and
then keeps (`ProgramCache.run_plan`).
-/

namespace GraphInference.ProgramCache

variable {c : Conjunction} {cache : ProgramCache} {key : String} {p : Program} {e : String × Program}
  {s : Supply}

theorem mem_of_mem_insert (h : e ∈ (cache.insert key p).entries) : e = (key, p) ∨ e ∈ cache.entries :=
  (List.mem_cons.mp (List.mem_of_mem_take h)).imp_right List.mem_of_mem_filter

theorem mem_of_mem_get (h : e ∈ (cache.get key).2.entries) : e ∈ cache.entries := by
  unfold get at h
  split at h
  · next e' he' =>
    rcases List.mem_cons.mp h with rfl | h
    · exact List.mem_of_find?_eq_some he'
    · exact List.mem_of_mem_filter h
  · exact h

theorem get_fst (cache : ProgramCache) (key : String) :
    (cache.get key).1 = (cache.entries.find? (·.1 = key)).map (·.2) := by
  unfold get
  split
  · next e he => rw [he, Option.map_some]
  · next he => rw [he, Option.map_none]

/-- The cache with a program that was planned; an error is not kept. -/
def keep (cache : ProgramCache) (key : String) : Except InferenceError Program → ProgramCache
  | .ok p => cache.insert key p
  | .error _ => cache

theorem run_plan (c : Conjunction) (cache : ProgramCache) (s : Supply) : (plan c cache).run s =
    match (cache.get c.text).1 with
    | some p => ((.ok p, (cache.get c.text).2), s)
    | none =>
      let r := (Planner.planWithBound c .empty).run s
      ((r.1, (cache.get c.text).2.keep c.text r.1), r.2) := by
  have hkeep (cache : ProgramCache) (x : Except InferenceError Program × Supply) : (match x.1 with
      | .ok p => pure (.ok p, cache.insert c.text p)
      | .error e => pure (.error e, cache) :
        Fresh (Except InferenceError Program × ProgramCache)).run x.2 =
          ((x.1, cache.keep c.text x.1), x.2) := by
    rcases x with ⟨_ | _, _⟩ <;> rfl
  unfold plan
  rcases cache.get c.text with ⟨_ | p, cache⟩
  · exact hkeep cache ((Planner.planWithBound c .empty).run s)
  · rfl

/-- A program is the kept one, or else the planned one, which is then kept besides what was kept
before. -/
theorem cases_of_plan {t : Supply} {cache' : ProgramCache} {r : Except InferenceError Program}
    (h : (plan c cache).run s = ((r, cache'), t)) :
    (∃ e, cache.entries.find? (·.1 = c.text) = some e ∧ r = .ok e.2 ∧ t = s ∧
        ∀ e ∈ cache'.entries, e ∈ cache.entries) ∨
      cache.entries.find? (·.1 = c.text) = none ∧ (Planner.planWithBound c .empty).run s = (r, t) ∧
        ∀ e ∈ cache'.entries, e ∈ cache.entries ∨ e.1 = c.text ∧ r = .ok e.2 := by
  rw [run_plan, get_fst] at h
  cases hfound : cache.entries.find? (·.1 = c.text) with
  | some e =>
    rw [hfound] at h
    cases h
    exact .inl ⟨e, rfl, rfl, rfl, fun e he => mem_of_mem_get he⟩
  | none =>
    rw [hfound] at h
    rcases hrun : (Planner.planWithBound c .empty).run s with ⟨e | p, u⟩
    · rw [hrun] at h
      cases h
      exact .inr ⟨rfl, rfl, fun e he => .inl (mem_of_mem_get he)⟩
    · rw [hrun] at h
      cases h
      refine .inr ⟨rfl, rfl, fun e he => ?_⟩
      rcases mem_of_mem_insert he with rfl | he
      · exact .inr ⟨rfl, rfl⟩
      · exact .inl (mem_of_mem_get he)

end GraphInference.ProgramCache
