import GraphInference.Answer.Json
import GraphInference.Proofs.Answer.Explanations
import GraphInference.Proofs.Json.RoundTrip

/-!
# Answers read back

An answer whose variables are all made from names is the one that its document stands for
(`Answer.document_reads_back`):

1. a variable is written with its name, from which it is made again (`Var.named_iff`), so maps from variables
   come back key by key;
2. explanations come back by induction on the answers that they were made from, for which the depth of the
   document is fuel enough (`Explanation.ofJson?_toJson`);
3. the tree of an answer has no number but those of answers, queries and rules, so that where these fit 64 bits
   its text is read as the same tree (`Json.ofText?_pretty`).
-/

namespace GraphInference

open Json (Exact)

/-! ## Parts -/

/-- Parts that are read back one by one are read back as a list. -/
theorem mapM_map_of_reads {α β : Type} {f : α → β} {g : β → Option α} {l : List α}
    (hg : ∀ a ∈ l, g (f a) = some a) : (l.map f).mapM g = some l := by
  induction l with
  | nil => rfl
  | cons a l ih =>
    obtain ⟨ha, hl⟩ := List.forall_mem_cons.mp hg
    rw [List.map_cons, List.mapM_cons, ha, ih hl]
    rfl

namespace Var

variable {v : Var}

/-- The variable is made from a name. -/
def Named (v : Var) : Prop :=
  ∃ name, v = .ofName name

theorem bareName_dollar (name : String) : bareName ("$" ++ name) = name := by
  have hname : ("$" ++ name).toList = '$' :: name.toList := String.toList_append
  rw [bareName, hname]
  exact String.ofList_toList

/-- What is written for a variable stands for it again exactly if the variable is made from a name. -/
theorem named_iff : v.Named ↔ .ofName v.text = v := by
  refine ⟨?_, fun h => ⟨v.text, h.symm⟩⟩
  rintro ⟨name, rfl⟩
  by_cases hbare : bareName name = ""
  · have hempty : ofName name = empty := by
      rw [ofName, hbare]
      rfl
    rw [hempty]
    rfl
  · have htext : (ofName name).text = "$" ++ bareName name :=
      if_neg (by simpa [isEmpty, ofName] using hbare)
    rw [htext, ofName, bareName_dollar]
    rfl

/-- A user-defined variable is lost if its name is one of system variables. -/
example : ¬ (Var.named "_x").Named := fun h => absurd (named_iff.mp h) (by decide)

end Var

/-- A map from variables is read back if its fields are. -/
theorem mapM_entries {β : Type} {m : SortedMap Var β} (hm : ∀ v ∈ m.keys, v.Named)
    {f : Var × β → String × Json} {g : String × Json → Option (Var × β)}
    (hg : ∀ v b, g (f (v, b)) = some (.ofName v.text, b)) : (m.entries.map f).mapM g = some m.entries := by
  refine mapM_map_of_reads fun (v, b) hp => ?_
  rw [hg, Var.named_iff.mp (hm v (List.mem_map_of_mem hp))]

theorem Binding.ofJson?_toJson {b : Binding} (hb : ∀ v ∈ b.keys, v.Named) :
    Binding.ofJson? b.toJson = some b := by
  rw [ofJson?, toJson, Json.object?, Option.bind_eq_bind, Option.bind_some, mapM_entries hb fun _ _ => rfl]
  exact congrArg some (SortedMap.ofList_entries b)

namespace QuerySnapshot

theorem playersOfJson?_object {m : SortedMap Var (List String)} (hm : ∀ v ∈ m.keys, v.Named) :
    playersOfJson? (.object (m.entries.map fun (v, roles) => (v.text, .array (roles.map .string)))) =
      some m := by
  have hroles (roles : List String) : (roles.map Json.string).mapM Json.string? = some roles :=
    mapM_map_of_reads fun _ _ => rfl
  rw [playersOfJson?, Json.object?, Option.bind_eq_bind, Option.bind_some, mapM_entries hm fun v roles => ?_]
  · exact congrArg some (SortedMap.ofList_entries m)
  · simp [Json.array?, hroles]

theorem labelOfJson?_elim (label : Option Label) :
    labelOfJson? (label.elim .null fun l => .string l.text) = some label := by
  cases label <;> rfl

theorem ofJson?_toJson {q : QuerySnapshot} (hq : ∀ v ∈ q.players.keys, v.Named) :
    ofJson? q.toJson = some q := by
  simp [ofJson?, toJson, Json.field?, Json.natural?, Json.string?, AtomFamily.ofTag?_tag, labelOfJson?_elim,
    playersOfJson?_object hq]

end QuerySnapshot

theorem RuleRef.ofJson?_toJson (r : RuleRef) : RuleRef.ofJson? r.toJson = some r := by
  simp [ofJson?, toJson, Json.field?, Json.natural?, Json.string?]

/-! ## Depth -/

namespace Json

theorem depthFields_eq (fields : List (String × Json)) :
    depthFields fields = depthItems (fields.map (·.2)) := by
  induction fields with
  | nil => rfl
  | cons f fields ih => rw [depthFields, ih, List.map_cons, depthItems]

theorem depth_lt_array {v : Json} {items : List Json} (hv : v ∈ items) : v.depth < (array items).depth := by
  rw [depth.eq_def (array items)]
  refine Nat.lt_succ_of_le ?_
  induction items with
  | nil => cases hv
  | cons w items ih =>
    rw [depthItems]
    rcases List.mem_cons.mp hv with rfl | hv
    · exact le_max_left ..
    · exact (ih hv).trans (le_max_right ..)

theorem depth_lt_object {v : Json} {fields : List (String × Json)} (hv : v ∈ fields.map (·.2)) :
    v.depth < (object fields).depth := by
  have h := depth_lt_array hv
  rwa [depth, ← depthFields_eq] at h

end Json

theorem answersToJson_eq (as : List Answer) : answersToJson as = as.map Answer.toJson := by
  induction as with
  | nil => rfl
  | cons a as ih => rw [answersToJson, ih, List.map_cons]

theorem explanationsToJson_eq (es : List Explanation) : explanationsToJson es = es.map Explanation.toJson := by
  induction es with
  | nil => rfl
  | cons e es ih => rw [explanationsToJson, ih, List.map_cons]

theorem Explanation.depth_lt_of_mem_answers {e : Explanation} {a : Answer} (ha : a ∈ e.answers) :
    a.toJson.depth < e.toJson.depth := by
  have harray := Json.depth_lt_array (List.mem_map_of_mem (f := Answer.toJson) ha)
  cases e with
  | empty => cases ha
  | lookup query => cases ha
  | rule ref query as | join as =>
    refine harray.trans ?_
    rw [toJson, answersToJson_eq]
    exact Json.depth_lt_object (by simp [answers])

theorem Answer.depth_lt_of_mem_explanations {a : Answer} {e : Explanation} (he : e ∈ a.explanations) :
    e.toJson.depth < a.toJson.depth := by
  obtain ⟨id, b, f, es⟩ := a
  rcases List.mem_cons.mp he with rfl | he
  · exact Json.depth_lt_object (by simp)
  · have harray := Json.depth_lt_array (List.mem_map_of_mem (f := Explanation.toJson) he)
    refine harray.trans (Json.depth_lt_object ?_)
    have hes : es ≠ [] := List.ne_nil_of_mem he
    simp [explanationsToJson_eq, alternatives, hes]

/-! ## Trees read back -/

/-- The variables of the binding and of the queries in the explanations are made from names. -/
structure Answer.Named (a : Answer) : Prop where
  binding : ∀ v ∈ a.binding.keys, v.Named
  queries : ∀ e ∈ a.explanations, ∀ q ∈ e.query?, ∀ v ∈ q.players.keys, v.Named

theorem Answer.ofJsonWith?_toJson {explain? : Json → Option Explanation} {a : Answer}
    (hbinding : ∀ v ∈ a.binding.keys, v.Named)
    (hexplain : ∀ e ∈ a.explanations, explain? e.toJson = some e) :
    ofJsonWith? explain? a.toJson = some a := by
  obtain ⟨id, b, e, es⟩ := a
  obtain ⟨he, hes⟩ := List.forall_mem_cons.mp hexplain
  have hb := Binding.ofJson?_toJson hbinding
  have hread := mapM_map_of_reads hes
  rw [explanation] at he
  rw [binding] at hb
  rw [alternatives, ← explanationsToJson_eq] at hread
  rw [toJson]
  cases es with
  | nil => simp [ofJsonWith?, Json.field?, Json.natural?, hb, he]
  | cons f es =>
    generalize explanationsToJson (f :: es) = items at hread ⊢
    simp [ofJsonWith?, Json.field?, Json.natural?, Json.array?, hb, he, hread]

/-- An explanation is read back with as much fuel as its tree is deep. -/
theorem Explanation.ofJson?_toJson {e : Explanation}
    (hquery : ∀ q ∈ e.query?, ∀ v ∈ q.players.keys, v.Named)
    (hanswers : ∀ a ∈ e.answers, a.Throughout Answer.Named) {n : Nat} (hn : e.toJson.depth ≤ n) :
    ofJson? n e.toJson = some e := by
  induction e using Explanation.induction generalizing n with
  | step e ih =>
    cases n with
    | zero => cases e <;> exact absurd hn (Nat.not_succ_le_zero _)
    | succ n =>
      have hread : (answersToJson e.answers).mapM (Answer.ofJsonWith? (ofJson? n)) = some e.answers := by
        rw [answersToJson_eq]
        refine mapM_map_of_reads fun a ha => ?_
        obtain ⟨hnamed, hbelow⟩ := Answer.throughout_iff.mp (hanswers a ha)
        refine Answer.ofJsonWith?_toJson hnamed.binding fun f hf => ?_
        refine ih a ha f hf (hnamed.queries f hf) (hbelow f hf) ?_
        have hf := Answer.depth_lt_of_mem_explanations hf
        have ha := depth_lt_of_mem_answers ha
        omega
      cases e with
      | empty => simp [ofJson?, toJson, Json.field?, Json.string?]
      | lookup query =>
        have hq := QuerySnapshot.ofJson?_toJson (hquery query rfl)
        simp [ofJson?, toJson, Json.field?, Json.string?, hq]
      | rule ref query as =>
        have hq := QuerySnapshot.ofJson?_toJson (hquery query rfl)
        rw [answers] at hread
        simp [ofJson?, toJson, Json.field?, Json.string?, Json.array?, hq, RuleRef.ofJson?_toJson, hread]
      | join as =>
        rw [answers] at hread
        simp [ofJson?, toJson, Json.field?, Json.string?, Json.array?, hread]

/-! ## Trees in text -/

/-- The numbers of the answer and of the queries and rules in the explanations fit 64 bits. -/
structure Answer.Numbered (a : Answer) : Prop where
  id : a.id.number < UInt64.size
  queries : ∀ e ∈ a.explanations, ∀ q ∈ e.query?, q.id.number < UInt64.size
  rules : ∀ e ∈ a.explanations, ∀ r ∈ e.rule?, r.id.index < UInt64.size

theorem Binding.exact_toJson (b : Binding) : b.toJson.Exact := by
  refine .object fun f hf => ?_
  obtain ⟨p, -, rfl⟩ := List.mem_map.mp hf
  exact .string _

theorem QuerySnapshot.exact_toJson {q : QuerySnapshot} (hq : q.id.number < UInt64.size) : q.toJson.Exact := by
  refine .object ?_
  simp only [List.forall_mem_cons, List.not_mem_nil, false_imp_iff, implies_true, and_true]
  refine ⟨.natural hq, .string _, .string _, ?_, .object fun f hf => ?_⟩
  · cases q.label with
    | none => exact .null
    | some l => exact .string _
  · obtain ⟨p, -, rfl⟩ := List.mem_map.mp hf
    refine .array fun v hv => ?_
    obtain ⟨role, -, rfl⟩ := List.mem_map.mp hv
    exact .string _

theorem RuleRef.exact_toJson {r : RuleRef} (hr : r.id.index < UInt64.size) : r.toJson.Exact := by
  refine .object ?_
  simp only [List.forall_mem_cons, List.not_mem_nil, false_imp_iff, implies_true, and_true]
  exact ⟨.natural hr, .string _⟩

theorem Answer.exact_toJson {a : Answer} (hid : a.id.number < UInt64.size)
    (hexplanations : ∀ e ∈ a.explanations, e.toJson.Exact) : a.toJson.Exact := by
  obtain ⟨id, b, e, es⟩ := a
  obtain ⟨he, hes⟩ := List.forall_mem_cons.mp hexplanations
  refine .object (List.forall_mem_append.mpr ⟨?_, ?_⟩)
  · simp only [List.forall_mem_cons, List.not_mem_nil, false_imp_iff, implies_true, and_true]
    exact ⟨.natural hid, b.exact_toJson, he⟩
  · split
    · exact fun _ h => nomatch h
    · refine List.forall_mem_singleton.mpr (.array fun v hv => ?_)
      rw [explanationsToJson_eq] at hv
      obtain ⟨f, hf, rfl⟩ := List.mem_map.mp hv
      exact hes f hf

theorem Explanation.exact_toJson {e : Explanation} (hquery : ∀ q ∈ e.query?, q.id.number < UInt64.size)
    (hrule : ∀ r ∈ e.rule?, r.id.index < UInt64.size)
    (hanswers : ∀ a ∈ e.answers, a.Throughout Answer.Numbered) : e.toJson.Exact := by
  induction e using Explanation.induction with
  | step e ih =>
    have hitems : (Json.array (answersToJson e.answers)).Exact := by
      refine .array fun v hv => ?_
      rw [answersToJson_eq] at hv
      obtain ⟨a, ha, rfl⟩ := List.mem_map.mp hv
      obtain ⟨hnumbered, hbelow⟩ := Answer.throughout_iff.mp (hanswers a ha)
      exact Answer.exact_toJson hnumbered.id fun f hf =>
        ih a ha f hf (hnumbered.queries f hf) (hnumbered.rules f hf) (hbelow f hf)
    cases e <;> refine .object ?_ <;>
      simp only [List.forall_mem_cons, List.not_mem_nil, false_imp_iff, implies_true, and_true]
    case empty => exact .string _
    case lookup query => exact ⟨.string _, QuerySnapshot.exact_toJson (hquery query rfl)⟩
    case rule ref query as =>
      exact ⟨.string _, RuleRef.exact_toJson (hrule ref rfl), QuerySnapshot.exact_toJson (hquery query rfl),
        hitems⟩
    case join as => exact ⟨.string _, hitems⟩

/-! ## Documents -/

/-- The tree of an answer is read back as the answer, with every explanation in it. So is the text, for numbers
of 64 bits; the reader of documents refuses it where it is nested too deep, and gives the answer elsewhere. -/
theorem Answer.document_reads_back {a : Answer} (hnamed : a.Throughout Named) :
    ofJson? a.toJson = some a ∧
    (a.Throughout Numbered → (Json.ofText? a.document).bind ofJson? = some a ∧
      ofDocument? a.document = if a.toJson.depth ≤ maxDocumentDepth then some a else none) := by
  have htree : ofJson? a.toJson = some a := by
    obtain ⟨hself, hbelow⟩ := throughout_iff.mp hnamed
    refine ofJsonWith?_toJson hself.binding fun e he => ?_
    exact Explanation.ofJson?_toJson (hself.queries e he) (hbelow e he) (depth_lt_of_mem_explanations he).le
  refine ⟨htree, fun hnumbered => ?_⟩
  have htext : Json.ofText? a.document = some a.toJson := by
    obtain ⟨hself, hbelow⟩ := throughout_iff.mp hnumbered
    refine Json.ofText?_pretty (exact_toJson hself.id fun e he => ?_)
    exact Explanation.exact_toJson (hself.queries e he) (hself.rules e he) (hbelow e he)
  refine ⟨by rw [htext, Option.bind_some, htree], ?_⟩
  rw [ofDocument?, htext, Option.bind_eq_bind, Option.bind_some, htree]

namespace Lineage

/-- A map from the variables of names. -/
def ofNames {β : Type} (l : List (String × β)) : SortedMap Var β :=
  .ofList (l.map fun (name, b) => (.ofName name, b))

theorem named_ofNames {β : Type} (l : List (String × β)) : ∀ v ∈ (ofNames l).keys, v.Named := by
  intro v hv
  obtain ⟨b, hb⟩ := SortedMap.mem_keys_ofList.mp hv
  obtain ⟨p, -, hp⟩ := List.mem_map.mp hb
  exact ⟨p.1, (congrArg Prod.fst hp).symm⟩

/-- The query for parents of a child that is not asked for. -/
def parents : QuerySnapshot :=
  ⟨⟨7⟩, "(parent: $x, child: $_y) isa parentship;", .relation, some ⟨"parentship"⟩,
    ofNames [("$x", ["parent"]), ("_y", ["child"])]⟩

def ancestors : RuleRef :=
  ⟨⟨0⟩, "ancestors"⟩

def found : Answer :=
  .mk ⟨1⟩ (ofNames [("$x", ⟨"V1"⟩), ("_y", ⟨"V2"⟩)]) (.lookup parents) []

/-- By a rule from a join, or else from the graph or by a join of nothing. -/
def derived : Answer :=
  .mk ⟨3⟩ (ofNames [("$x", ⟨"V1"⟩)])
    (.rule ancestors parents [.mk ⟨2⟩ (ofNames []) (.join [found, found]) [.empty]])
    [.lookup parents, .join []]

theorem throughout_mk {id : AnswerId} {l : List (String × ConceptId)} {e : Explanation} {es : List Explanation}
    (hid : id.number < UInt64.size) (hquery : ∀ f ∈ e :: es, ∀ q ∈ f.query?, q = parents)
    (hrule : ∀ f ∈ e :: es, ∀ r ∈ f.rule?, r = ancestors)
    (hbelow : ∀ f ∈ e :: es, ∀ d ∈ f.answers, d.Throughout fun b => b.Named ∧ b.Numbered) :
    (Answer.mk id (ofNames l) e es).Throughout fun b => b.Named ∧ b.Numbered := by
  refine Answer.throughout_iff.mpr ⟨⟨⟨named_ofNames l, ?_⟩, hid, ?_, ?_⟩, hbelow⟩
  · intro f hf q hq
    obtain rfl := hquery f hf q hq
    exact named_ofNames _
  · intro f hf q hq
    obtain rfl := hquery f hf q hq
    decide
  · intro f hf r hr
    obtain rfl := hrule f hf r hr
    decide

theorem throughout_derived : derived.Throughout fun b => b.Named ∧ b.Numbered := by
  have hfound : found.Throughout fun b => b.Named ∧ b.Numbered :=
    throughout_mk (by decide) (by simp [Explanation.query?]) (by simp [Explanation.rule?])
      (by simp [Explanation.answers])
  refine throughout_mk (by decide) (by simp [Explanation.query?]) (by simp [Explanation.rule?]) ?_
  simp only [List.forall_mem_cons, Explanation.answers, List.not_mem_nil, false_imp_iff, implies_true, and_true]
  refine throughout_mk (by decide) (by simp [Explanation.query?]) (by simp [Explanation.rule?]) ?_
  simp [Explanation.answers, hfound]

/-- An answer with explanations of every kind. -/
theorem document_reads_back_derived : derived.Throughout Answer.Named ∧ derived.Throughout Answer.Numbered ∧
    Answer.ofJson? derived.toJson = some derived ∧
    (Json.ofText? derived.document).bind Answer.ofJson? = some derived ∧
    Answer.ofDocument? derived.document = some derived := by
  have hnamed : derived.Throughout Answer.Named := fun b hb => (throughout_derived b hb).1
  have hnumbered : derived.Throughout Answer.Numbered := fun b hb => (throughout_derived b hb).2
  obtain ⟨htree, htext⟩ := Answer.document_reads_back hnamed
  obtain ⟨htext, hdocument⟩ := htext hnumbered
  have hdepth : derived.toJson.depth ≤ Answer.maxDocumentDepth := by decide
  exact ⟨hnamed, hnumbered, htree, htext, hdocument.trans (if_pos hdepth)⟩

end Lineage

end GraphInference
