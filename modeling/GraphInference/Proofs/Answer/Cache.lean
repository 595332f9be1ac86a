import GraphInference.Proofs.Query.Class
import GraphInference.Proofs.Query.Equivalence

/-!
# What the answer cache serves

The cache gives a query the answers of its class, renamed to the variables of the query
(`AnswerCache.Serves`). Recording answers takes nothing away from what the cache serves and adds
nothing but these answers, renamed.
-/

namespace GraphInference

/-! ## Sets of answers -/

namespace AnswerSet

variable {s : AnswerSet} {a : Answer} {as : List Answer} {b : Binding}

/-- The set has an answer with the binding. -/
def Has (s : AnswerSet) (b : Binding) : Prop :=
  ∃ a ∈ s.answers, a.binding = b

theorem contains_iff_has : s.contains b = true ↔ s.Has b := by
  rw [contains, get?, List.find?_isSome]
  simp only [decide_eq_true_eq]
  rfl

theorem binding_addExplanation (a : Answer) (e : Explanation) :
    (a.addExplanation e).binding = a.binding := by
  unfold Answer.addExplanation
  dsimp only
  split <;> rfl

theorem binding_foldl_addExplanation (a : Answer) (es : List Explanation) :
    (es.foldl Answer.addExplanation a).binding = a.binding := by
  induction es generalizing a with
  | nil => rfl
  | cons e es ih => rw [List.foldl_cons, ih, binding_addExplanation]

/-- Inserting an answer adds its binding and no other. -/
theorem has_insert : (s.insert a).2.Has b ↔ s.Has b ∨ a.binding = b := by
  unfold insert
  split
  · next hcontains =>
    have hmap (d : Answer) : (if d.binding = a.binding then
        a.explanations.foldl Answer.addExplanation d else d).binding = d.binding := by
      split
      · exact binding_foldl_addExplanation d a.explanations
      · rfl
    have hhas : Has ⟨s.answers.map fun d => if d.binding = a.binding then
        a.explanations.foldl Answer.addExplanation d else d⟩ b ↔ s.Has b := by
      simp only [Has, List.mem_map, exists_exists_and_eq_and, hmap]
    refine hhas.trans (iff_self_or.mpr ?_)
    rintro rfl
    exact contains_iff_has.mp hcontains
  · simp only [Has, List.mem_append, List.mem_singleton, or_and_right, exists_or, exists_eq_left]

/-- An answer is new if its binding is. -/
theorem insert_fst : (s.insert a).1 = true ↔ ¬ s.Has a.binding := by
  rw [← contains_iff_has]
  unfold insert
  split <;> simp_all

end AnswerSet

theorem Answer.binding_rename (a : Answer) (u : Unifier) :
    (a.rename u).binding = a.binding.relabel u.apply := rfl

/-! ## Classes -/

namespace AnswerCache

variable {c : AnswerCache} {q r : AtomicQuery} {as : List Answer} {e : AnswerClass} {b : Binding}

theorem has_insertRenamed {u : Unifier} {s : AnswerSet} : (insertRenamed u s as).2.Has b ↔
    s.Has b ∨ ∃ a ∈ as, a.binding.relabel u.apply = b := by
  have hfold (n : Nat) : (as.foldl (fun p a => (if (p.2.insert (a.rename u)).1 then p.1 + 1 else p.1,
      (p.2.insert (a.rename u)).2)) (n, s)).2.Has b ↔
        s.Has b ∨ ∃ a ∈ as, a.binding.relabel u.apply = b := by
    induction as generalizing n s with
    | nil => simp
    | cons a as ih =>
      rw [List.foldl_cons, ih, AnswerSet.has_insert, Answer.binding_rename, List.exists_mem_cons_iff,
        or_assoc]
  exact hfold 0

theorem query_recordIn : (recordIn e q as).2.query = e.query := by
  unfold recordIn
  split <;> rfl

/-- A class gets the answers, renamed by the unifier with its first query. -/
theorem has_recordIn : (recordIn e q as).2.answers.Has b ↔ e.answers.Has b ∨
    ∃ u, q.unifier e.query = .ok u ∧ ∃ a ∈ as, a.binding.relabel u.apply = b := by
  unfold recordIn
  split
  · next hu => simp [hu]
  · next u hu =>
    refine has_insertRenamed.trans (or_congr_right ?_)
    rw [hu]
    exact ⟨fun h => ⟨u, rfl, h⟩, fun ⟨u', hu', h⟩ => Except.ok.inj hu' ▸ h⟩

/-- Answers are recorded in one class: the first of equivalent queries or else a new one. -/
theorem exists_recordAmong (q : AtomicQuery) (as : List Answer) (classes : List AnswerClass) :
    ∃ pre e post, (∀ d ∈ pre, d.query.isEquivalent q = false) ∧
      (classes = pre ++ e :: post ∧ e.query.isEquivalent q = true ∨
        classes = pre ∧ post = [] ∧ e = ⟨q, {}⟩) ∧
      (recordAmong q as classes).2 = pre ++ (recordIn e q as).2 :: post := by
  induction classes with
  | nil => exact ⟨[], ⟨q, {}⟩, [], by simp, .inr ⟨rfl, rfl, rfl⟩, rfl⟩
  | cons d classes ih =>
    rw [recordAmong]
    split
    · next hd => exact ⟨[], d, classes, by simp, .inl ⟨rfl, hd⟩, rfl⟩
    · next hd =>
      obtain ⟨pre, e, post, hpre, hclasses, hrecord⟩ := ih
      refine ⟨d :: pre, e, post, List.forall_mem_cons.mpr ⟨Bool.eq_false_iff.mpr hd, hpre⟩, ?_, ?_⟩
      · exact hclasses.imp (fun h => ⟨congrArg _ h.1, h.2⟩) fun h => ⟨congrArg _ h.1, h.2⟩
      · show d :: (recordAmong q as classes).2 = _
        rw [hrecord]
        rfl

/-- The cache keeps every class with its first query and its answers. -/
def Grows (c c' : AnswerCache) : Prop :=
  ∀ q e, c.class? q = some e → ∃ e', c'.class? q = some e' ∧ e'.query = e.query ∧
    ∀ b, e.answers.Has b → e'.answers.Has b

theorem Grows.refl (c : AnswerCache) : c.Grows c :=
  fun _ e h => ⟨e, h, rfl, fun _ hb => hb⟩

theorem Grows.trans {c c' c'' : AnswerCache} (h : c.Grows c') (h' : c'.Grows c'') : c.Grows c'' := by
  intro q e he
  obtain ⟨e', he', hquery, hhas⟩ := h q e he
  obtain ⟨e'', he'', hquery', hhas'⟩ := h' q e' he'
  exact ⟨e'', he'', hquery'.trans hquery, fun b hb => hhas' b (hhas b hb)⟩

/-- The cache gives the query an answer with the binding. -/
def Serves (c : AnswerCache) (q : AtomicQuery) (b : Binding) : Prop :=
  ∃ as, c.get? q = some as ∧ ∃ a ∈ as, a.binding = b

theorem get?_eq_some_iff : c.get? q = some as ↔ ∃ e u w, c.class? q = some e ∧
    q.unifier e.query = .ok u ∧ u.inverse = .ok w ∧ e.answers.answers.map (·.rename w) = as := by
  unfold get?
  constructor
  · intro has
    obtain ⟨e, he, has⟩ := Option.bind_eq_some_iff.mp has
    obtain ⟨u, hu, has⟩ := Option.bind_eq_some_iff.mp has
    obtain ⟨w, hw, has⟩ := Option.bind_eq_some_iff.mp has
    exact ⟨e, u, w, he, Except.toOption_eq_some_iff.mp hu, Except.toOption_eq_some_iff.mp hw,
      Option.some.inj has⟩
  · rintro ⟨e, u, w, he, hu, hw, rfl⟩
    refine Option.bind_eq_some_iff.mpr ⟨e, he, Option.bind_eq_some_iff.mpr ⟨u, ?_, ?_⟩⟩
    · exact Except.toOption_eq_some_iff.mpr hu
    · exact Option.bind_eq_some_iff.mpr ⟨w, Except.toOption_eq_some_iff.mpr hw, rfl⟩

theorem serves_iff : c.Serves q b ↔ ∃ e u w, c.class? q = some e ∧ q.unifier e.query = .ok u ∧
    u.inverse = .ok w ∧ ∃ d, e.answers.Has d ∧ d.relabel w.apply = b := by
  unfold Serves
  simp only [get?_eq_some_iff]
  constructor
  · rintro ⟨as, ⟨e, u, w, he, hu, hw, rfl⟩, a, ha, rfl⟩
    obtain ⟨d, hd, rfl⟩ := List.mem_map.mp ha
    exact ⟨e, u, w, he, hu, hw, d.binding, ⟨d, hd, rfl⟩, rfl⟩
  · rintro ⟨e, u, w, he, hu, hw, _, ⟨d, hd, rfl⟩, rfl⟩
    exact ⟨_, ⟨e, u, w, he, hu, hw, rfl⟩, d.rename w, List.mem_map.mpr ⟨d, hd, rfl⟩, rfl⟩

theorem Grows.serves {c' : AnswerCache} (h : c.Grows c') (hb : c.Serves q b) : c'.Serves q b := by
  obtain ⟨e, u, w, he, hu, hw, d, hd, rfl⟩ := serves_iff.mp hb
  obtain ⟨e', he', hquery, hhas⟩ := h q e he
  exact serves_iff.mpr ⟨e', u, w, he', hquery ▸ hu, hw, d, hhas d hd, rfl⟩

/-! ## Recording -/

theorem class?_cons (e : AnswerClass) (classes : List AnswerClass) (q : AtomicQuery) :
    class? ⟨e :: classes⟩ q = if e.query.isEquivalent q then some e else class? ⟨classes⟩ q := by
  rw [class?, List.find?_cons]
  split <;> simp_all [class?]

theorem class?_append (pre post : List AnswerClass) (q : AtomicQuery) :
    class? ⟨pre ++ post⟩ q = (class? ⟨pre⟩ q).or (class? ⟨post⟩ q) :=
  List.find?_append

theorem class?_of_equivalent {pre post : List AnswerClass}
    (hpre : ∀ d ∈ pre, d.query.isEquivalent q = false) (he : e.query.isEquivalent q = true) :
    class? ⟨pre ++ e :: post⟩ q = some e := by
  have hnone : class? ⟨pre⟩ q = none := List.find?_eq_none.mpr fun d hd => by simp [hpre d hd]
  rw [class?_append, hnone, class?_cons, if_pos he]
  rfl

/-- Recording answers only adds to the cache. -/
theorem grows_record : c.Grows (c.record q as).2 := by
  intro r d hd
  obtain ⟨pre, e, post, -, hclasses, hrecord⟩ := exists_recordAmong q as c.classes
  show ∃ d', class? ⟨(recordAmong q as c.classes).2⟩ r = some d' ∧ _
  have hd : class? ⟨c.classes⟩ r = some d := hd
  rw [hrecord, class?_append]
  rcases hclasses with ⟨hclasses, -⟩ | ⟨hclasses, -, -⟩
  · rw [hclasses, class?_append, Option.or_eq_some_iff] at hd
    rcases hd with hd | ⟨hnone, hd⟩
    · exact ⟨d, by rw [hd]; rfl, rfl, fun _ hb => hb⟩
    · rw [hnone, Option.none_or, class?_cons, query_recordIn]
      rw [class?_cons] at hd
      split at hd
      · next he =>
        obtain rfl := Option.some.inj hd
        exact ⟨_, if_pos he, query_recordIn, fun b hb => has_recordIn.mpr (.inl hb)⟩
      · next he => exact ⟨d, (if_neg he).trans hd, rfl, fun _ hb => hb⟩
  · exact ⟨d, by rw [← hclasses, hd]; rfl, rfl, fun _ hb => hb⟩

/-- The query in whose variables the cache keeps answers to `q`: the first one of its class. -/
def keeper (c : AnswerCache) (q : AtomicQuery) : AtomicQuery :=
  ((c.class? q).map AnswerClass.query).getD q

theorem keeper_isEquivalent (c : AnswerCache) (q : AtomicQuery) :
    (c.keeper q).isEquivalent q = true := by
  unfold keeper
  cases he : c.class? q with
  | none => exact AtomicQuery.isEquivalent_refl q
  | some e => simpa using List.find?_some he

/-- After answers were recorded, the class of the query has them in the variables of its first query. -/
theorem exists_class?_record (c : AnswerCache) (q : AtomicQuery) (as : List Answer) :
    ∃ e, (c.record q as).2.class? q = some e ∧ e.query = c.keeper q ∧
      ∀ b, e.answers.Has b ↔ (∃ d, c.class? q = some d ∧ d.answers.Has b) ∨
        ∃ u, q.unifier e.query = .ok u ∧ ∃ a ∈ as, a.binding.relabel u.apply = b := by
  obtain ⟨pre, e, post, hpre, hclasses, hrecord⟩ := exists_recordAmong q as c.classes
  have hnone : class? ⟨pre⟩ q = none := List.find?_eq_none.mpr fun d hd => by simp [hpre d hd]
  obtain ⟨he, hkeeper, hhas⟩ : e.query.isEquivalent q = true ∧ e.query = c.keeper q ∧
      ∀ b, e.answers.Has b ↔ ∃ d, c.class? q = some d ∧ d.answers.Has b := by
    rcases hclasses with ⟨hclasses, he⟩ | ⟨hclasses, -, rfl⟩
    · have hclass : c.class? q = some e := by
        show class? ⟨c.classes⟩ q = some e
        rw [hclasses, class?_of_equivalent hpre he]
      refine ⟨he, by rw [keeper, hclass]; rfl, fun b => ?_⟩
      simp [hclass]
    · have hclass : c.class? q = none := by
        show class? ⟨c.classes⟩ q = none
        rw [hclasses, hnone]
      refine ⟨AtomicQuery.isEquivalent_refl q, by rw [keeper, hclass]; rfl, fun b => ?_⟩
      refine iff_of_false (fun ⟨a, ha, _⟩ => nomatch ha) ?_
      simp [hclass]
  refine ⟨(recordIn e q as).2, ?_, by rw [query_recordIn, hkeeper], fun b => ?_⟩
  · show class? ⟨(recordAmong q as c.classes).2⟩ q = _
    rw [hrecord]
    exact class?_of_equivalent hpre (by rw [query_recordIn]; exact he)
  · rw [has_recordIn, hhas, query_recordIn]

/-- Every answer of a cache has a property that recorded answers have after renaming. -/
theorem forall_has_record {P : AtomicQuery → Binding → Prop} {A : AtomicQuery → Prop} (hq : A q)
    (hself : q.isEquivalent q = true) (hc : ∀ e ∈ c.classes, A e.query ∧ ∀ b, e.answers.Has b →
      P e.query b) (has : ∀ r u, A r → r.isEquivalent q = true → q.unifier r = .ok u →
        ∀ a ∈ as, P r (a.binding.relabel u.apply)) :
    ∀ e ∈ (c.record q as).2.classes, A e.query ∧ ∀ b, e.answers.Has b → P e.query b := by
  obtain ⟨pre, e, post, -, hclasses, hrecord⟩ := exists_recordAmong q as c.classes
  obtain ⟨he, hequery, hpre, hpost, hold⟩ : e.query.isEquivalent q = true ∧ A e.query ∧
      (∀ d ∈ pre, d ∈ c.classes) ∧ (∀ d ∈ post, d ∈ c.classes) ∧
      ∀ b, e.answers.Has b → P e.query b := by
    rcases hclasses with ⟨hclasses, he⟩ | ⟨hclasses, rfl, rfl⟩
    · have hmem : e ∈ c.classes := hclasses ▸ List.mem_append_right _ (.head _)
      exact ⟨he, (hc e hmem).1, fun d hd => hclasses ▸ List.mem_append_left _ hd,
        fun d hd => hclasses ▸ List.mem_append_right _ (.tail _ hd), (hc e hmem).2⟩
    · exact ⟨hself, hq, fun d hd => by rw [hclasses]; exact hd, fun _ hd => (nomatch hd),
        fun _ ⟨_, hd, _⟩ => (nomatch hd)⟩
  intro d hd
  have hd : d ∈ pre ++ (recordIn e q as).2 :: post := hrecord ▸ hd
  rcases List.mem_append.mp hd with hd | hd
  · exact hc d (hpre d hd)
  · rcases List.mem_cons.mp hd with rfl | hd
    · rw [query_recordIn]
      refine ⟨hequery, fun b hb => ?_⟩
      rcases has_recordIn.mp hb with hb | ⟨u, hu, a, ha, rfl⟩
      · exact hold b hb
      · exact has e.query u hequery he hu a ha
    · exact hc d (hpost d hd)

end AnswerCache

end GraphInference
