import GraphInference.Proofs.Answer.Cache
import GraphInference.Proofs.Answer.Joins
import GraphInference.Proofs.Resolution.RuleApplication

/-!
# Trees of explanations

An explanation holds the answers it was made from, with explanations of their own. It is faithful to the
binding that it explains (`Explanation.Faithful`) if the answers are those to the queries of a rule's body,
agree with each other and bind every concept of the binding. An answer is `Explained` in some respect if
each of its explanations is. This outlasts projection and renaming, which bind nothing new, and the merging
of answers with the same binding, hence whatever sets and caches do with answers.
-/

namespace GraphInference

/-! ## Faithful explanations -/

/-- Every concept of the first binding is bound by the second one, whatever the variables. -/
def Binding.Within (b c : Binding) : Prop :=
  ∀ v i, b.find? v = some i → ∃ w, c.find? w = some i

/-- The answers agree on every variable that two of them bind, and bind every concept of the binding. -/
structure Supports (as : List Answer) (b : Binding) : Prop where
  agree : ∀ a ∈ as, ∀ a' ∈ as, ∀ v i j, a.binding.find? v = some i → a'.binding.find? v = some j → i = j
  covered : ∀ v i, b.find? v = some i → ∃ a ∈ as, ∃ w, a.binding.find? w = some i

/-- What explains the answer is look-ups of equivalent queries, or rules applied to them. -/
def Answer.Answers (q : AtomicQuery) (a : Answer) : Prop :=
  ∀ e ∈ a.explanations, ∃ r : AtomicQuery, r.isEquivalent q = true ∧ e.query? = some r.snapshot

/-- A derivation names a rule, with an answer to each query of its body in turn; the answers of a
derivation or join support the binding. -/
inductive Explanation.Faithful (rules : RuleSet) (b : Binding) : Explanation → Prop where
  | lookup (query : QuerySnapshot) : Faithful rules b (.lookup query)
  | rule {ref : RuleRef} {query : QuerySnapshot} {as : List Answer} {c : CompiledRule}
    (registered : rules.get? ref.id = some c) (label : c.rule.label = ref.label)
    (answered : List.Forall₂ Answer.Answers c.body as) (supports : Supports as b) :
    Faithful rules b (.rule ref query as)
  | join {as : List Answer} (supports : Supports as b) : Faithful rules b (.join as)

namespace Answer

/-- The second answer is the first one or stands below it in some explanation. -/
inductive Reaches : Answer → Answer → Prop where
  | refl (a : Answer) : Reaches a a
  | step {a b c : Answer} {e : Explanation} (he : e ∈ a.explanations) (hb : b ∈ e.answers)
    (h : Reaches b c) : Reaches a c

/-- It is so of the answer and of every answer below it. -/
def Throughout (P : Answer → Prop) (a : Answer) : Prop :=
  ∀ b, a.Reaches b → P b

/-- Every explanation in the tree of the answer is faithful to the binding that it explains. -/
def Faithful (rules : RuleSet) (a : Answer) : Prop :=
  ∀ b, a.Reaches b → ∀ e ∈ b.explanations, e.Faithful rules b.binding

/-- Every explanation of the answer is right for the binding of it. -/
def Explained (J : Binding → Explanation → Prop) (a : Answer) : Prop :=
  ∀ e ∈ a.explanations, J a.binding e

variable {J J' : Binding → Explanation → Prop} {a : Answer} {b c : Binding} {e : Explanation}
  {rules : RuleSet}

theorem Explained.imp (h : a.Explained J) (himp : ∀ e, J a.binding e → J' a.binding e) :
    a.Explained J' :=
  fun e he => himp e (h e he)

/-- The tree of an answer is the answer with the trees below its explanations. -/
theorem throughout_iff {P : Answer → Prop} :
    a.Throughout P ↔ P a ∧ ∀ e ∈ a.explanations, ∀ d ∈ e.answers, d.Throughout P := by
  constructor
  · exact fun h => ⟨h a (.refl a), fun e he d hd b hb => h b (.step he hd hb)⟩
  · intro ⟨hself, hbelow⟩ b hb
    cases hb with
    | refl => exact hself
    | step he hd hb => exact hbelow _ he _ hd b hb

theorem faithful_iff : a.Faithful rules ↔
    a.Explained fun b e => e.Faithful rules b ∧ ∀ d ∈ e.answers, d.Faithful rules := by
  refine throughout_iff.trans ⟨fun h e he => ⟨h.1 e he, h.2 e he⟩, fun h => ?_⟩
  exact ⟨fun e he => (h e he).1, fun e he => (h e he).2⟩

theorem answers_iff {q : AtomicQuery} : a.Answers q ↔
    a.Explained fun _ e => ∃ r : AtomicQuery, r.isEquivalent q = true ∧ e.query? = some r.snapshot :=
  Iff.rfl

end Answer

theorem Explanation.sizeOf_lt_of_mem_answers {e : Explanation} {a : Answer} (ha : a ∈ e.answers) :
    sizeOf a < sizeOf e := by
  have hlt := List.sizeOf_lt_of_mem ha
  cases e with
  | empty => cases ha
  | lookup query => cases ha
  | rule ref query as =>
    rw [answers] at hlt
    rw [rule.sizeOf_spec]
    omega
  | join as =>
    rw [answers] at hlt
    rw [join.sizeOf_spec]
    omega

theorem Answer.sizeOf_lt_of_mem_explanations {a : Answer} {e : Explanation} (he : e ∈ a.explanations) :
    sizeOf e < sizeOf a := by
  obtain ⟨id, b, f, es⟩ := a
  rw [mk.sizeOf_spec]
  rcases List.mem_cons.mp he with rfl | he
  · omega
  · have hlt := List.sizeOf_lt_of_mem he
    rw [alternatives] at hlt
    omega

/-- What holds of an explanation if it holds of those of the answers that it was made from, holds of every
explanation. -/
theorem Explanation.induction {P : Explanation → Prop}
    (step : ∀ e : Explanation, (∀ a ∈ e.answers, ∀ f ∈ a.explanations, P f) → P e) (e : Explanation) : P e :=
  step e fun _ ha f hf =>
    have := (Answer.sizeOf_lt_of_mem_explanations hf).trans (sizeOf_lt_of_mem_answers ha)
    Explanation.induction step f
termination_by sizeOf e

namespace Binding.Within

variable {b c d : Binding}

theorem trans (h : b.Within c) (h' : c.Within d) : b.Within d := fun v i hi =>
  have ⟨w, hw⟩ := h v i hi
  h' w i hw

/-- A map made from a list has no value that the list does not have. -/
theorem of_entries {l : List (Var × ConceptId)} (h : ∀ p ∈ l, ∃ w, c.find? w = some p.2) :
    Binding.Within (SortedMap.ofList l) c := by
  intro v i hi
  rw [SortedMap.ofList, SortedMap.find?_foldl_insert, SortedMap.find?_empty, Option.or_none] at hi
  obtain ⟨p, hp, rfl⟩ := Option.map_eq_some_iff.mp hi
  exact h p (List.mem_reverse.mp (List.mem_of_find?_eq_some hp))

theorem project (a : Answer) (vars : List Var) : (a.project vars).binding.Within a.binding :=
  fun v _ hi => ⟨v, (AnswerStream.find?_project.mp hi).2⟩

theorem rename (a : Answer) (u : Unifier) : (a.rename u).binding.Within a.binding := by
  refine of_entries fun p hp => ?_
  obtain ⟨⟨v, i⟩, hvi, rfl⟩ := List.mem_map.mp hp
  exact ⟨v, SortedMap.find?_eq_some_iff.mpr hvi⟩

theorem pullBack (q : AtomicQuery) (u : Unifier) (b : Binding) :
    (AnswerStream.pullBack q u b).Within b :=
  fun v _ hi => ⟨u.apply v, (AnswerStream.find?_pullBack.mp hi).2⟩

end Binding.Within

theorem Supports.within {as : List Answer} {b c : Binding} (h : Supports as b) (hc : c.Within b) :
    Supports as c where
  agree := h.agree
  covered := fun v i hi =>
    have ⟨w, hw⟩ := hc v i hi
    h.covered w i hw

theorem Explanation.Faithful.within {rules : RuleSet} {b c : Binding} {e : Explanation}
    (h : e.Faithful rules b) (hc : c.Within b) : e.Faithful rules c := by
  cases h with
  | lookup query => exact .lookup query
  | rule registered label answered supports => exact .rule registered label answered (supports.within hc)
  | join supports => exact .join (supports.within hc)

/-! ## What sets of answers keep -/

/-- What is right for a binding is right for all that bind nothing more. -/
def Shrinks (J : Binding → Explanation → Prop) : Prop :=
  ∀ b c e, c.Within b → J b e → J c e

section Sets

variable {J : Binding → Explanation → Prop} {a : Answer} {as : List Answer}

theorem Answer.Explained.project (hJ : Shrinks J) (h : a.Explained J) (vars : List Var) :
    (a.project vars).Explained J :=
  fun e he => hJ _ _ e (.project a vars) (h e he)

theorem Answer.Explained.rename (hJ : Shrinks J) (h : a.Explained J) (u : Unifier) :
    (a.rename u).Explained J :=
  fun e he => hJ _ _ e (.rename a u) (h e he)

theorem Answer.Explained.addExplanation {e : Explanation} (h : a.Explained J) (he : J a.binding e) :
    (a.addExplanation e).Explained J := by
  unfold Answer.addExplanation
  dsimp only
  split
  · exact h
  · rintro f hf
    rcases List.mem_cons.mp hf with rfl | hf
    · exact h _ (.head _)
    · rcases List.mem_append.mp hf with hf | hf
      · exact h f (.tail _ hf)
      · exact List.mem_singleton.mp hf ▸ he

theorem Answer.Explained.foldl_addExplanation {es : List Explanation} (h : a.Explained J)
    (hes : ∀ e ∈ es, J a.binding e) : (es.foldl Answer.addExplanation a).Explained J := by
  induction es generalizing a with
  | nil => exact h
  | cons e es ih =>
    obtain ⟨he, hes⟩ := List.forall_mem_cons.mp hes
    exact ih (h.addExplanation he) fun f hf => AnswerSet.binding_addExplanation a e ▸ hes f hf

namespace AnswerSet

/-- Every answer of the set is explained. -/
def Explained (J : Binding → Explanation → Prop) (s : AnswerSet) : Prop :=
  ∀ a ∈ s.answers, a.Explained J

variable {s : AnswerSet}

/-- An answer whose binding is there already adds its explanations to that binding. -/
theorem Explained.insert (h : s.Explained J) (ha : a.Explained J) : (s.insert a).2.Explained J := by
  unfold AnswerSet.insert
  split
  · intro c hc
    obtain ⟨d, hd, rfl⟩ := List.mem_map.mp hc
    split
    · next heq => exact (h d hd).foldl_addExplanation (heq ▸ ha)
    · exact h d hd
  · intro c hc
    rcases List.mem_append.mp hc with hc | hc
    · exact h c hc
    · exact List.mem_singleton.mp hc ▸ ha

theorem Explained.foldl_insert (h : s.Explained J) (has : ∀ a ∈ as, a.Explained J) :
    (as.foldl (fun s a => (s.insert a).2) s).Explained J := by
  induction as generalizing s with
  | nil => exact h
  | cons a as ih =>
    obtain ⟨ha, has⟩ := List.forall_mem_cons.mp has
    exact ih (h.insert ha) has

theorem explained_ofList (has : ∀ a ∈ as, a.Explained J) : (ofList as).Explained J :=
  Explained.foldl_insert (fun _ ha => nomatch ha) has

end AnswerSet

end Sets

/-! ## What the answer cache keeps -/

/-- What is right for the explanations of the answers to a query: less bound is no worse, and equivalent
queries do not differ. -/
structure Standard (J : AtomicQuery → Binding → Explanation → Prop) : Prop where
  shrinks : ∀ q, Shrinks (J q)
  equivalent : ∀ q r b e, q.isEquivalent r = true → J q b e → J r b e

namespace AnswerCache

variable {J : AtomicQuery → Binding → Explanation → Prop} {c : AnswerCache} {q : AtomicQuery}
  {as : List Answer} {e : AnswerClass}

/-- The answers of every class are explained, as answers to its first query. -/
def Explained (J : AtomicQuery → Binding → Explanation → Prop) (c : AnswerCache) : Prop :=
  ∀ e ∈ c.classes, e.answers.Explained (J e.query)

theorem explained_insertRenamed {J : Binding → Explanation → Prop} (hJ : Shrinks J) {s : AnswerSet}
    (hs : s.Explained J) (has : ∀ a ∈ as, a.Explained J) (u : Unifier) :
    (insertRenamed u s as).2.Explained J := by
  have hfold (n : Nat) : (as.foldl (fun p a => (if (p.2.insert (a.rename u)).1 then p.1 + 1 else p.1,
      (p.2.insert (a.rename u)).2)) (n, s)).2.Explained J := by
    induction as generalizing n s with
    | nil => exact hs
    | cons a as ih =>
      obtain ⟨ha, has⟩ := List.forall_mem_cons.mp has
      exact ih (hs.insert (ha.rename hJ u)) has _
  exact hfold 0

theorem explained_recordIn (hJ : Standard J) (he : e.answers.Explained (J e.query))
    (has : ∀ a ∈ as, a.Explained (J e.query)) :
    (recordIn e q as).2.answers.Explained (J (recordIn e q as).2.query) := by
  rw [query_recordIn]
  unfold recordIn
  split
  · exact he
  · next u _ => exact explained_insertRenamed (hJ.shrinks e.query) he has u

/-- What is recorded for a query is explained as answers to the first query of its class. -/
theorem Explained.record (hJ : Standard J) (h : c.Explained J) (has : ∀ a ∈ as, a.Explained (J q)) :
    (c.record q as).2.Explained J := by
  obtain ⟨pre, e, post, -, hclasses, hrecord⟩ := exists_recordAmong q as c.classes
  have hsame : (c.record q as).2.classes = pre ++ (recordIn e q as).2 :: post := hrecord
  have hold : ∀ d ∈ pre ++ post, d.answers.Explained (J d.query) := by
    rcases hclasses with ⟨hclasses, -⟩ | ⟨hclasses, rfl, -⟩
    · exact fun d hd => h d (hclasses ▸ (List.mem_append.mp hd).elim (List.mem_append_left _)
        fun hd => List.mem_append_right _ (.tail _ hd))
    · exact fun d hd => h d (hclasses ▸ List.append_nil pre ▸ hd)
  have hnew : (recordIn e q as).2.answers.Explained (J (recordIn e q as).2.query) := by
    rcases hclasses with ⟨hclasses, hequivalent⟩ | ⟨-, -, rfl⟩
    · have he := h e (hclasses ▸ List.mem_append_right _ (.head _))
      refine explained_recordIn hJ he fun a ha => (has a ha).imp fun f hf => ?_
      exact hJ.equivalent q e.query _ f (AtomicQuery.isEquivalent_symm hequivalent) hf
    · exact explained_recordIn hJ (fun _ ha => nomatch ha) has
  intro d hd
  rw [hsame] at hd
  rcases List.mem_append.mp hd with hd | hd
  · exact hold d (List.mem_append_left _ hd)
  · rcases List.mem_cons.mp hd with rfl | hd
    · exact hnew
    · exact hold d (List.mem_append_right _ hd)

theorem Explained.get? (hJ : Standard J) (h : c.Explained J) (has : c.get? q = some as) :
    ∀ a ∈ as, a.Explained (J q) := by
  obtain ⟨e, he, has⟩ := Option.bind_eq_some_iff.mp has
  obtain ⟨u, -, has⟩ := Option.bind_eq_some_iff.mp has
  obtain ⟨inverse, -, has⟩ := Option.bind_eq_some_iff.mp has
  obtain rfl := Option.some.inj has
  have hequivalent : e.query.isEquivalent q = true :=
    List.find?_some (p := fun e : AnswerClass => e.query.isEquivalent q) he
  intro a ha
  obtain ⟨d, hd, rfl⟩ := List.mem_map.mp ha
  refine ((h e (List.mem_of_find?_eq_some he) d hd).rename (hJ.shrinks _) inverse).imp fun f hf => ?_
  exact hJ.equivalent e.query q _ f hequivalent hf

end AnswerCache

/-! ## What joins keep -/

namespace JoinRow

variable {J : AtomicQuery → Binding → Explanation → Prop} {row : JoinRow} {rows : List JoinRow}
  {queries : List AtomicQuery} {q : AtomicQuery} {as : List Answer}

/-- The row has an explained answer to each query in turn and binds what these bind. -/
structure Joins (J : AtomicQuery → Binding → Explanation → Prop) (queries : List AtomicQuery)
    (row : JoinRow) : Prop where
  answers : List.Forall₂ (fun q a => a.Explained (J q)) queries row.answers
  bound : ∀ v i, row.binding.find? v = some i ↔ ∃ a ∈ row.answers, a.binding.find? v = some i

theorem joins_empty : Joins J [] .empty :=
  ⟨.nil, fun v i => by simp [JoinRow.empty]⟩

/-- The rows of a join have one answer more, which agrees with those before. -/
theorem Joins.join (h : ∀ row ∈ rows, Joins J queries row) (has : ∀ a ∈ as, a.Explained (J q)) :
    ∀ row ∈ join rows as, Joins J (queries ++ [q]) row := by
  intro row hrow
  obtain ⟨old, hold, hrow⟩ := List.mem_flatMap.mp hrow
  obtain ⟨a, ha, hrow⟩ := List.mem_filterMap.mp hrow
  obtain ⟨b, hb, rfl⟩ := Option.map_eq_some_iff.mp hrow
  obtain ⟨-, hfind⟩ := Binding.merge?_eq_some_iff.mp hb
  refine ⟨List.rel_append (h old hold).answers (.cons (has a ha) .nil), fun v i => ?_⟩
  simp only [hfind, (h old hold).bound, List.mem_append, List.mem_singleton, or_and_right, exists_or,
    exists_eq_left]

/-- The answers of a row support whatever binds no more than the row. -/
theorem Joins.supports (h : Joins J queries row) {b : Binding} (hb : b.Within row.binding) :
    Supports row.answers b where
  agree := fun a ha a' ha' v i j hi hj =>
    Option.some.inj (((h.bound v i).mpr ⟨a, ha, hi⟩).symm.trans ((h.bound v j).mpr ⟨a', ha', hj⟩))
  covered := fun v i hi => by
    obtain ⟨w, hw⟩ := hb v i hi
    obtain ⟨a, ha, hi⟩ := (h.bound w i).mp hw
    exact ⟨a, ha, w, hi⟩

end JoinRow

/-! ## Explanations of the answers to a query -/

/-- A query is equivalent to itself under another number. -/
theorem AtomicQuery.isEquivalent_renumber {q : AtomicQuery} {i : QueryId} :
    (q.renumber i).isEquivalent q = true := by
  refine isEquivalent_iff_kind.mpr ⟨Atom.isEquivalent_withQuery.trans q.central.isEquivalent_refl, ?_⟩
  have hkinds : (q.renumber i).predicates.map (q.renumber i).kind = q.predicates.map q.kind := by
    show (q.predicates.map (·.withQuery i)).map _ = _
    rw [List.map_map]
    refine List.map_congr_left fun a _ => Prod.ext (funext fun _ => Atom.isEquivalent_withQuery) ?_
    show (q.central.withQuery i).position? (a.withQuery i).var = q.central.position? a.var
    rw [Atom.var_withQuery, Atom.position?_withQuery]
  exact .of_eq hkinds

/-- The explanation is a look-up of an equivalent query or a rule applied to one, and so is each in the
tree below it; all are faithful. -/
def RuleSet.Explains (rules : RuleSet) (q : AtomicQuery) (b : Binding) (e : Explanation) : Prop :=
  (∃ r : AtomicQuery, r.isEquivalent q = true ∧ e.query? = some r.snapshot) ∧ e.Faithful rules b ∧
    ∀ a ∈ e.answers, a.Faithful rules

namespace RuleSet

variable {rules : RuleSet} {q : AtomicQuery} {b : Binding}

theorem standard_explains (rules : RuleSet) : Standard rules.Explains where
  shrinks := fun _ _ _ _ hc ⟨hquery, hfaithful, hbelow⟩ => ⟨hquery, hfaithful.within hc, hbelow⟩
  equivalent := fun _ _ _ _ hqr ⟨⟨p, hp, hsnapshot⟩, hrest⟩ =>
    ⟨⟨p, AtomicQuery.isEquivalent_trans hp hqr, hsnapshot⟩, hrest⟩

theorem explained_explains_iff {a : Answer} :
    a.Explained (rules.Explains q) ↔ a.Answers q ∧ a.Faithful rules := by
  rw [Answer.faithful_iff]
  constructor
  · exact fun h => ⟨fun e he => (h e he).1, fun e he => (h e he).2⟩
  · exact fun h e he => ⟨h.1 e he, h.2 e he⟩

theorem explains_lookup (rules : RuleSet) (q : AtomicQuery) (b : Binding) :
    rules.Explains q b (.lookup q.snapshot) :=
  ⟨⟨q, q.isEquivalent_refl, rfl⟩, .lookup _, fun _ ha => nomatch ha⟩

/-- The answers of a row to the queries of a rule's body explain what the rule derives from the row. -/
theorem explains_rule {ref : RuleRef} {c : CompiledRule} (hc : rules.get? ref.id = some c)
    (hlabel : c.rule.label = ref.label) {row : JoinRow} (hrow : row.Joins rules.Explains c.body)
    (hb : b.Within row.binding) : rules.Explains q b (.rule ref q.snapshot row.answers) := by
  refine ⟨⟨q, q.isEquivalent_refl, rfl⟩, .rule hc hlabel ?_ (hrow.supports hb), fun a ha => ?_⟩
  · exact hrow.answers.imp fun _ _ h => (explained_explains_iff.mp h).1
  · obtain ⟨_, -, h⟩ := exists_of_forall₂_of_mem hrow.answers.flip ha
    exact (explained_explains_iff.mp h).2

end RuleSet

end GraphInference
