import GraphInference.Proofs.Outcome
import GraphInference.Resolution.Stream

/-!
# Outcomes of resolution

When work on the knowledge of a reasoner gives a result: `Resolve.Gives`, with one rule for each way
to build it.
-/

namespace GraphInference.Resolve

variable {α β : Type} {k k' : Knowledge} {s s' : Supply}

/-- The work succeeds with `a` on the knowledge `k` and the supply `s` and leaves `k'` and `s'`. -/
def Gives (x : Resolve α) (k : Knowledge) (s : Supply) (a : α) (k' : Knowledge) (s' : Supply) :
    Prop :=
  (x.run.run k).run s = ((.ok a, k'), s')

/-- The result on a knowledge and a supply, or `a` if there is none. -/
def resultOr (x : Resolve α) (k : Knowledge) (s : Supply) (a : α) : α :=
  match ((x.run.run k).run s).1.1 with
  | .ok b => b
  | .error _ => a

theorem gives_resultOr {x : Resolve α} (h : ((x.run.run k).run s).1.1.isOk = true) (a : α) :
    x.Gives k s (x.resultOr k s a) ((x.run.run k).run s).1.2 ((x.run.run k).run s).2 := by
  unfold Gives resultOr
  generalize (x.run.run k).run s = r at h
  rcases r with ⟨⟨b | b, l⟩, t⟩
  · cases h
  · rfl

theorem resultOr_eq_of_gives {x : Resolve α} {a : α} (h : x.Gives k s a k' s') (b : α) :
    x.resultOr k s b = a := by
  unfold resultOr
  rw [h]

/-- What the answers bind that are found on a knowledge and a supply, if there is a result. -/
def bindings? (x : Resolve (List Answer)) (k : Knowledge) (s : Supply) : Option (List Binding) :=
  ((x.run.run k).run s).1.1.toOption.map (List.map Answer.binding)

theorem exists_gives_of_bindings? {x : Resolve (List Answer)} {bs : List Binding}
    (h : x.bindings? k s = some bs) :
    ∃ as k' s', x.Gives k s as k' s' ∧ ∀ b, (∃ a ∈ as, a.binding = b) ↔ b ∈ bs := by
  obtain ⟨as, has, rfl⟩ := Option.map_eq_some_iff.mp h
  exact ⟨as, _, _, Prod.ext (Prod.ext (Except.toOption_eq_some_iff.mp has) rfl) rfl,
    fun _ => List.mem_map.symm⟩

theorem gives_pure {a b : α} : Gives (pure a) k s b k' s' ↔ a = b ∧ k = k' ∧ s = s' := by
  constructor
  · intro h
    cases h
    exact ⟨rfl, rfl, rfl⟩
  · rintro ⟨rfl, rfl, rfl⟩
    rfl

theorem not_gives_throw {e : InferenceError} {b : α} : ¬ Gives (throw e) k s b k' s' :=
  fun h => nomatch h

theorem run_bind (x : Resolve α) (f : α → Resolve β) :
    ((x >>= f).run.run k).run s =
      ((ExceptT.bindCont f ((x.run.run k).run s).1.1).run ((x.run.run k).run s).1.2).run
        ((x.run.run k).run s).2 := rfl

theorem gives_bind {x : Resolve α} {f : α → Resolve β} {b : β} :
    (x >>= f).Gives k s b k' s' ↔ ∃ a l t, x.Gives k s a l t ∧ (f a).Gives l t b k' s' := by
  unfold Gives
  rw [run_bind]
  rcases (x.run.run k).run s with ⟨⟨a | a, l⟩, t⟩
  · exact ⟨fun h => (nomatch h), fun ⟨_, _, _, h, _⟩ => nomatch h⟩
  · refine ⟨fun h => ⟨a, l, t, rfl, h⟩, fun ⟨_, _, _, h, hf⟩ => ?_⟩
    cases h
    exact hf

theorem gives_lift {x : Fresh α} {a : α} :
    Gives (x : Resolve α) k s a k' s' ↔ x.run s = (a, s') ∧ k = k' := by
  constructor
  · intro h
    have h : (((.ok (x.run s).1, k), (x.run s).2) :
      (Except InferenceError α × Knowledge) × Supply) = ((.ok a, k'), s') := h
    cases h
    exact ⟨rfl, rfl⟩
  · rintro ⟨h, rfl⟩
    show (((.ok (x.run s).1, k), (x.run s).2) :
      (Except InferenceError α × Knowledge) × Supply) = ((.ok a, k), s')
    rw [h]

theorem gives_ofAttempt {x : Attempt α} {a : α} :
    (ofAttempt x).Gives k s a k' s' ↔ x.Gives s a s' ∧ k = k' := by
  have hrun : ((ofAttempt x).run.run k).run s = (((x.run s).1, k), (x.run s).2) := rfl
  unfold Gives Attempt.Gives
  rw [hrun]
  rcases x.run s with ⟨r, t⟩
  constructor
  · intro h
    cases h
    exact ⟨rfl, rfl⟩
  · rintro ⟨h, rfl⟩
    cases h
    rfl

theorem gives_liftExcept {x : Except InferenceError α} {a : α} :
    Gives (liftExcept x) k s a k' s' ↔ x = .ok a ∧ k = k' ∧ s = s' := by
  cases x with
  | error e => exact ⟨fun h => (nomatch h), fun ⟨h, _⟩ => nomatch h⟩
  | ok b =>
    refine gives_pure.trans (and_congr_left fun _ => ?_)
    exact ⟨fun h => h ▸ rfl, Except.ok.inj⟩

/-- Every result of a list of pieces of work is the result of one piece. -/
theorem exists_of_gives_mapM {f : α → Resolve β} {l : List α} {bs : List β}
    (h : (l.mapM f).Gives k s bs k' s') {b : β} (hb : b ∈ bs) :
    ∃ a ∈ l, ∃ k s k' s', (f a).Gives k s b k' s' := by
  induction l generalizing k s bs with
  | nil =>
    obtain ⟨rfl, -⟩ := gives_pure.mp h
    cases hb
  | cons a l ih =>
    rw [List.mapM_cons] at h
    obtain ⟨c, k₁, s₁, hc, h⟩ := gives_bind.mp h
    obtain ⟨cs, k₂, s₂, hcs, h⟩ := gives_bind.mp h
    obtain ⟨rfl, rfl, rfl⟩ := gives_pure.mp h
    rcases List.mem_cons.mp hb with rfl | hb
    · exact ⟨a, .head _, k, s, k₁, s₁, hc⟩
    · obtain ⟨a', ha', hf⟩ := ih hcs hb
      exact ⟨a', .tail _ ha', hf⟩

/-- Pieces of work that succeed on every knowledge and supply succeed one after the other. -/
theorem exists_gives_mapM {f : α → Resolve β} {r : α → β → Prop}
    (h : ∀ a k s, ∃ b k' s', (f a).Gives k s b k' s' ∧ r a b) (l : List α) (k : Knowledge)
    (s : Supply) : ∃ bs k' s', (l.mapM f).Gives k s bs k' s' ∧ List.Forall₂ r l bs := by
  induction l generalizing k s with
  | nil => exact ⟨[], k, s, gives_pure.mpr ⟨rfl, rfl, rfl⟩, .nil⟩
  | cons a l ih =>
    obtain ⟨b, k₁, s₁, hb, hr⟩ := h a k s
    obtain ⟨bs, k₂, s₂, hbs, hforall⟩ := ih k₁ s₁
    refine ⟨b :: bs, k₂, s₂, ?_, .cons hr hforall⟩
    rw [List.mapM_cons]
    exact gives_bind.mpr ⟨b, k₁, s₁, hb, gives_bind.mpr ⟨bs, k₂, s₂, hbs,
      gives_pure.mpr ⟨rfl, rfl, rfl⟩⟩⟩

/-- What every piece of work preserves is preserved by one after the other. -/
theorem mapM_preserves {f : α → Resolve β} {p : Knowledge → Supply → Prop}
    (hf : ∀ a k s b k' s', (f a).Gives k s b k' s' → p k s → p k' s') {l : List α} {bs : List β}
    (h : (l.mapM f).Gives k s bs k' s') (hp : p k s) : p k' s' := by
  induction l generalizing k s bs with
  | nil =>
    obtain ⟨-, rfl, rfl⟩ := gives_pure.mp h
    exact hp
  | cons a l ih =>
    rw [List.mapM_cons] at h
    obtain ⟨b, k₁, s₁, hb, h⟩ := gives_bind.mp h
    obtain ⟨bs, k₂, s₂, hbs, h⟩ := gives_bind.mp h
    obtain ⟨-, rfl, rfl⟩ := gives_pure.mp h
    exact ih hbs (hf a k s b k₁ s₁ hb hp)

end GraphInference.Resolve
