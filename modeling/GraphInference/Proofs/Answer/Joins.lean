import GraphInference.Proofs.Answer.Cache
import GraphInference.Proofs.Query.Preservation

/-!
# Joined answers

Bindings merge if they agree wherever both bind. A binding combines a list of queries if it gives their
user-defined variables what a match of each query gives them (`Combines`); such bindings are those merged
from one match of each query. They are the matches of all queries together, as far as no two queries
share a variable that is not user-defined: `combines_iff_isMatch_joint`.
-/

namespace GraphInference

/-! ## Merging -/

namespace Binding

/-- The binding with one more entry, unless it binds the variable to another concept. -/
def mergeEntry? (b : Binding) (e : Var × ConceptId) : Option Binding :=
  match b.find? e.1 with
  | some old => if old = e.2 then some b else none
  | none => some (b.insert e.1 e.2)

theorem merge?_eq_foldlM (left right : Binding) :
    merge? left right = right.entries.foldlM mergeEntry? left := rfl

/-- The binding binds what `left` binds and the entries of a list, which agree with it. -/
def Unites (left : Binding) (l : List (Var × ConceptId)) (b : Binding) : Prop :=
  (∀ v i j, left.find? v = some i → (v, j) ∈ l → i = j) ∧
    ∀ v i, b.find? v = some i ↔ left.find? v = some i ∨ (v, i) ∈ l

variable {left right b : Binding} {e : Var × ConceptId} {l : List (Var × ConceptId)}

theorem unites_insert (left : Binding) (e : Var × ConceptId) (h : ∀ i, left.find? e.1 = some i → i = e.2) :
    Unites left [e] (left.insert e.1 e.2) := by
  obtain ⟨v, id⟩ := e
  refine ⟨fun w i j hi hj => ?_, fun w i => ?_⟩
  · obtain ⟨rfl, rfl⟩ := Prod.mk.inj (List.mem_singleton.mp hj)
    exact h i hi
  · rw [List.mem_singleton, Prod.mk.injEq]
    by_cases hwv : w = v
    · subst hwv
      rw [SortedMap.find?_insert_self, Option.some.injEq]
      exact ⟨fun hi => .inr ⟨rfl, hi.symm⟩, fun hi => (hi.elim (h i) And.right).symm⟩
    · rw [left.find?_insert_of_ne id hwv]
      exact ⟨.inl, fun hi => hi.resolve_right fun hi => hwv hi.1⟩

theorem Unites.unique {b' : Binding} (h : Unites left l b) (h' : Unites left l b') : b = b' :=
  SortedMap.ext_find? fun v => Option.ext fun i => (h.2 v i).trans (h'.2 v i).symm

theorem mergeEntry?_eq_some_iff : mergeEntry? left e = some b ↔ Unites left [e] b := by
  unfold mergeEntry?
  cases hold : left.find? e.1 with
  | some old =>
    dsimp only
    split
    · next heq =>
      have hinsert := unites_insert left e fun i hi =>
        heq ▸ Option.some.inj (hi.symm.trans hold)
      have hleft : left.insert e.1 e.2 = left := SortedMap.ext_find? fun v => Option.ext fun i => by
        rw [hinsert.2, List.mem_singleton]
        refine or_iff_left_of_imp fun he => ?_
        rw [← he] at hold heq
        exact hold.trans (congrArg some heq)
      rw [hleft] at hinsert
      exact ⟨fun h => Option.some.inj h ▸ hinsert, fun h => congrArg some (hinsert.unique h)⟩
    · next hne =>
      exact iff_of_false (fun h => nomatch h) fun h => hne (h.1 e.1 old e.2 hold (.head _))
  | none =>
    have hinsert := unites_insert left e fun i hi => nomatch hold.symm.trans hi
    exact ⟨fun h => Option.some.inj h ▸ hinsert, fun h => congrArg some (hinsert.unique h)⟩

theorem unites_cons (hne : ∀ f ∈ l, e.1 ≠ f.1) :
    Unites left (e :: l) b ↔ ∃ mid, Unites left [e] mid ∧ Unites mid l b := by
  constructor
  · rintro ⟨hagree, hfind⟩
    have hinsert := unites_insert left e fun i hi => hagree e.1 i e.2 hi (.head _)
    refine ⟨_, hinsert, fun v i j hi hj => ?_, fun v i => ?_⟩
    · rcases (hinsert.2 v i).mp hi with hi | hi
      · exact hagree v i j hi (.tail _ hj)
      · exact absurd (congrArg Prod.fst (List.mem_singleton.mp hi)).symm (hne (v, j) hj)
    · rw [hfind, hinsert.2, List.mem_singleton, or_assoc, List.mem_cons]
  · rintro ⟨mid, ⟨hagree, hmid⟩, hagree', hfind⟩
    refine ⟨fun v i j hi hj => ?_, fun v i => ?_⟩
    · rcases List.mem_cons.mp hj with rfl | hj
      · exact hagree v i j hi (.head _)
      · exact hagree' v i j ((hmid v i).mpr (.inl hi)) hj
    · rw [hfind, hmid, List.mem_singleton, or_assoc, List.mem_cons]

theorem foldlM_mergeEntry?_eq_some_iff (hl : l.Pairwise fun e f => e.1 ≠ f.1) :
    l.foldlM mergeEntry? left = some b ↔ Unites left l b := by
  induction l generalizing left with
  | nil =>
    have hleft : Unites left [] left := ⟨fun _ _ _ _ h => (nomatch h), fun _ _ => by simp⟩
    exact ⟨fun h => Option.some.inj h ▸ hleft, fun h => congrArg some (hleft.unique h)⟩
  | cons e l ih =>
    obtain ⟨hne, hl⟩ := List.pairwise_cons.mp hl
    rw [List.foldlM_cons, unites_cons hne]
    refine Option.bind_eq_some_iff.trans (exists_congr fun mid => ?_)
    rw [mergeEntry?_eq_some_iff, ih hl]

/-- Merging fails on a variable with two concepts, and else binds what either binding binds. -/
theorem merge?_eq_some_iff : merge? left right = some b ↔
    (∀ v i j, left.find? v = some i → right.find? v = some j → i = j) ∧
      ∀ v i, b.find? v = some i ↔ left.find? v = some i ∨ right.find? v = some i := by
  have hkeys : right.entries.Pairwise fun e f => e.1 ≠ f.1 := List.pairwise_map.mp right.nodup_keys
  rw [merge?_eq_foldlM, foldlM_mergeEntry?_eq_some_iff hkeys, Unites]
  simp only [SortedMap.find?_eq_some_iff]

end Binding

/-- Joining merges each row with each answer. -/
theorem JoinRow.exists_join_iff {rows : List JoinRow} {as : List Answer} {b : Binding} :
    (∃ row ∈ join rows as, row.binding = b) ↔
      ∃ row ∈ rows, ∃ a ∈ as, Binding.merge? row.binding a.binding = some b := by
  simp only [join, List.mem_flatMap, List.mem_filterMap, Option.map_eq_some_iff]
  constructor
  · rintro ⟨_, ⟨row, hrow, a, ha, b, hb, rfl⟩, rfl⟩
    exact ⟨row, hrow, a, ha, hb⟩
  · rintro ⟨row, hrow, a, ha, hb⟩
    exact ⟨_, ⟨row, hrow, a, ha, b, hb, rfl⟩, rfl⟩

theorem AnswerSet.has_foldl_insert {as : List Answer} {s : AnswerSet} {b : Binding} :
    (as.foldl (fun s a => (s.insert a).2) s).Has b ↔ s.Has b ∨ ∃ a ∈ as, a.binding = b := by
  induction as generalizing s with
  | nil => simp
  | cons a as ih => rw [List.foldl_cons, ih, has_insert, List.exists_mem_cons_iff, or_assoc]

/-! ## Combined queries -/

/-- A binding of the user-defined variables that the queries name, as a match of each query binds
them. -/
structure Combines (g : Graph) (queries : List AtomicQuery) (b : Binding) : Prop where
  domain : ∀ v, b.contains v = true → v.userDefined = true ∧ ∃ q ∈ queries, q.Names v
  agrees : ∀ q ∈ queries, ∃ m, q.IsMatch g m ∧
    ∀ v, v.userDefined = true → q.Names v → b.find? v = m.find? v

variable {g : Graph} {q : AtomicQuery} {queries : List AtomicQuery} {b m : Binding} {v : Var}

theorem AtomicQuery.IsMatch.exists_find? (hm : q.IsMatch g m) (hv : q.Names v) :
    ∃ id, m.find? v = some id :=
  SortedMap.contains_iff_isSome.mp ((hm.domain v).mpr hv)

theorem AtomicQuery.IsMatch.find?_restrict_user (hm : q.IsMatch g m) {i : ConceptId} :
    (m.restrict Var.userDefined).find? v = some i ↔
      v.userDefined = true ∧ q.Names v ∧ m.find? v = some i := by
  rw [SortedMap.find?_restrict]
  split
  · next huser =>
    refine ⟨fun h => ⟨huser, (hm.domain v).mp (SortedMap.contains_iff_isSome.mpr ⟨i, h⟩), h⟩,
      fun h => h.2.2⟩
  · next huser => exact ⟨fun h => (nomatch h), fun h => absurd h.1 huser⟩

theorem combines_nil : Combines g [] b ↔ b = .empty := by
  constructor
  · intro h
    refine SortedMap.ext_find? fun v => SortedMap.contains_eq_false_iff.mp (Bool.eq_false_iff.mpr ?_)
    intro hv
    obtain ⟨-, q, hq, -⟩ := h.domain v hv
    cases hq
  · rintro rfl
    exact ⟨fun v hv => (nomatch hv), fun q hq => nomatch hq⟩

/-- What combines the queries of a list has a part that combines all but the last, and a match of the last. -/
theorem Combines.exists_of_concat (h : Combines g (queries ++ [q]) b) : ∃ left m, Combines g queries left ∧
    q.IsMatch g m ∧ Binding.merge? left (m.restrict Var.userDefined) = some b := by
  classical
  obtain ⟨m, hm, hagree⟩ := h.agrees q (List.mem_append_right _ (.head _))
  let left := b.restrict fun v => decide (∃ r ∈ queries, r.Names v)
  have hleft {v : Var} {i : ConceptId} : left.find? v = some i ↔
      (∃ r ∈ queries, r.Names v) ∧ b.find? v = some i := by
    simp only [left, SortedMap.find?_restrict, decide_eq_true_eq]
    split
    · next hv => exact (and_iff_right hv).symm
    · next hv => exact ⟨fun h => (nomatch h), fun h => absurd h.1 hv⟩
  refine ⟨left, m, ⟨fun v hv => ?_, fun r hr => ?_⟩, hm, Binding.merge?_eq_some_iff.mpr ⟨?_, ?_⟩⟩
  · obtain ⟨i, hi⟩ := SortedMap.contains_iff_isSome.mp hv
    obtain ⟨hnames, hi⟩ := hleft.mp hi
    exact ⟨(h.domain v (SortedMap.contains_iff_isSome.mpr ⟨i, hi⟩)).1, hnames⟩
  · obtain ⟨m', hm', hagree'⟩ := h.agrees r (List.mem_append_left _ hr)
    refine ⟨m', hm', fun v huser hv => ?_⟩
    rw [← hagree' v huser hv]
    exact Option.ext fun i => hleft.trans (and_iff_right ⟨r, hr, hv⟩)
  · intro v i j hi hj
    obtain ⟨huser, hv, hj⟩ := hm.find?_restrict_user.mp hj
    exact Option.some.inj ((hleft.mp hi).2.symm.trans ((hagree v huser hv).trans hj))
  · intro v i
    rw [hleft, hm.find?_restrict_user]
    constructor
    · intro hi
      obtain ⟨huser, r, hr, hv⟩ := h.domain v (SortedMap.contains_iff_isSome.mpr ⟨i, hi⟩)
      rcases List.mem_append.mp hr with hr | hr
      · exact .inl ⟨⟨r, hr, hv⟩, hi⟩
      · obtain rfl := List.mem_singleton.mp hr
        exact .inr ⟨huser, hv, (hagree v huser hv).symm.trans hi⟩
    · rintro (⟨-, hi⟩ | ⟨huser, hv, hi⟩)
      · exact hi
      · exact (hagree v huser hv).trans hi

/-- What is merged with a match of one more query combines that query too. -/
theorem Combines.concat {left m : Binding} (hleft : Combines g queries left) (hm : q.IsMatch g m)
    (hmerge : Binding.merge? left (m.restrict Var.userDefined) = some b) : Combines g (queries ++ [q]) b := by
  obtain ⟨-, hfind⟩ := Binding.merge?_eq_some_iff.mp hmerge
  refine ⟨fun v hv => ?_, fun r hr => ?_⟩
  · obtain ⟨i, hi⟩ := SortedMap.contains_iff_isSome.mp hv
    rcases (hfind v i).mp hi with hi | hi
    · obtain ⟨huser, r, hr, hv⟩ := hleft.domain v (SortedMap.contains_iff_isSome.mpr ⟨i, hi⟩)
      exact ⟨huser, r, List.mem_append_left _ hr, hv⟩
    · obtain ⟨huser, hv, -⟩ := hm.find?_restrict_user.mp hi
      exact ⟨huser, q, List.mem_append_right _ (.head _), hv⟩
  · rcases List.mem_append.mp hr with hr | hr
    · obtain ⟨m', hm', hagree⟩ := hleft.agrees r hr
      refine ⟨m', hm', fun v huser hv => ?_⟩
      obtain ⟨i, hi⟩ := hm'.exists_find? hv
      rw [hi]
      exact (hfind v i).mpr (.inl ((hagree v huser hv).trans hi))
    · obtain rfl := List.mem_singleton.mp hr
      refine ⟨m, hm, fun v huser hv => ?_⟩
      obtain ⟨i, hi⟩ := hm.exists_find? hv
      rw [hi]
      exact (hfind v i).mpr (.inr (hm.find?_restrict_user.mpr ⟨huser, hv, hi⟩))

/-- What combines the queries of a list is merged from what combines all but the last and a match of
the last. -/
theorem combines_concat : Combines g (queries ++ [q]) b ↔ ∃ left m, Combines g queries left ∧
    q.IsMatch g m ∧ Binding.merge? left (m.restrict Var.userDefined) = some b :=
  ⟨fun h => h.exists_of_concat, fun ⟨_, _, hleft, hm, hmerge⟩ => hleft.concat hm hmerge⟩

/-- What combines one query is what a match binds of the user-defined variables. -/
theorem combines_singleton :
    Combines g [q] b ↔ ∃ m, q.IsMatch g m ∧ m.restrict Var.userDefined = b := by
  rw [← List.nil_append [q], combines_concat]
  simp only [combines_nil, Binding.merge?_eq_some_iff]
  constructor
  · rintro ⟨_, m, rfl, hm, -, hfind⟩
    exact ⟨m, hm, SortedMap.ext_find? fun v => Option.ext fun i => by simpa using (hfind v i).symm⟩
  · rintro ⟨m, hm, rfl⟩
    exact ⟨.empty, m, rfl, hm, by simp⟩

/-- A part of the queries is combined by a part of the binding. -/
theorem Combines.exists_of_append {rest : List AtomicQuery} (h : Combines g (queries ++ rest) b) :
    ∃ left, Combines g queries left := by
  induction rest using List.reverseRecOn generalizing b with
  | nil => exact ⟨b, by rwa [List.append_nil] at h⟩
  | append_singleton rest q ih =>
    rw [← List.append_assoc] at h
    obtain ⟨left, -, hleft, -⟩ := combines_concat.mp h
    exact ih hleft

/-! ## All queries together -/

theorem AtomicQuery.names_toConjunction_iff {q : AtomicQuery} (hq : q.Plain) :
    q.toConjunction.Names v ↔ q.Names v := by
  simp only [Conjunction.Names, AtomicQuery.toConjunction, List.mem_flatMap, AtomicQuery.Names]
  constructor
  · rintro ⟨st, ⟨a, ha, hst⟩, hv⟩
    exact ⟨a, ha, (hq a ha).exists_names_iff.mp ⟨st, hst, hv⟩⟩
  · rintro ⟨a, ha, hv⟩
    obtain ⟨st, hst, hv⟩ := (hq a ha).exists_names_iff.mpr hv
    exact ⟨st, ⟨a, ha, hst⟩, hv⟩

namespace DecomposedQuery

variable {t : Transaction} {c : Conjunction} {d : DecomposedQuery} {s s' : Supply}

theorem names_joint_iff (hd : (Decomposition.ofConjunction t c).Gives s d s') :
    d.joint.Names v ↔ ∃ q ∈ d.queries, q.Names v := by
  have hnames {q : AtomicQuery} (hq : q ∈ d.queries) : q.toConjunction.Names v ↔ q.Names v :=
    AtomicQuery.names_toConjunction_iff (Decomposition.decomposed_of_mem_queries hd hq).plain
  simp only [Conjunction.Names, joint, List.mem_flatMap]
  constructor
  · rintro ⟨st, ⟨q, hq, hst⟩, hv⟩
    exact ⟨q, hq, (hnames hq).mp ⟨st, hst, hv⟩⟩
  · rintro ⟨q, hq, hv⟩
    obtain ⟨st, hst, hv⟩ := (hnames hq).mpr hv
    exact ⟨st, ⟨q, hq, hst⟩, hv⟩

/-- A match of all queries together combines them. -/
theorem combines_of_isMatch_joint (hg : g.WellFormed)
    (hd : (Decomposition.ofConjunction t c).Gives s d s') (hm : d.joint.IsMatch g m) :
    Combines g d.queries (m.restrict Var.userDefined) := by
  have hreads := (reads_joint_iff hd).mp hm.reads
  refine ⟨fun v hv => ?_, fun q hq => ⟨q.named m, ⟨fun v => ?_, fun a ha => ?_⟩, fun v huser hv => ?_⟩⟩
  · obtain ⟨i, hi⟩ := SortedMap.contains_iff_isSome.mp hv
    rw [SortedMap.find?_restrict] at hi
    split at hi
    · next huser =>
      refine ⟨huser, (names_joint_iff hd).mp ((hm.domain v).mp ?_)⟩
      exact SortedMap.contains_iff_isSome.mpr ⟨i, hi⟩
    · cases hi
  · by_cases hv : q.Names v
    · rw [SortedMap.contains, AtomicQuery.find?_named_of_names hv]
      exact iff_of_true ((hm.domain v).mpr ((names_joint_iff hd).mpr ⟨q, hq, hv⟩)) hv
    · rw [SortedMap.contains, AtomicQuery.find?_named_of_not_names hv]
      exact iff_of_false Bool.false_ne_true hv
  · have hplain := (Decomposition.decomposed_of_mem_queries hd hq).plain a ha
    exact (hreads q hq a ha).congr hg hplain fun v hv => (AtomicQuery.find?_named_of_names ⟨a, ha, hv⟩ m).symm
  · rw [AtomicQuery.find?_named_of_names hv, SortedMap.find?_restrict, if_pos huser]

/-- The bindings of all queries in one. -/
def unite (queries : List AtomicQuery) (m : AtomicQuery → Binding) : Binding :=
  .ofList (queries.flatMap fun q => (m q).entries)

/-- Bindings that agree are parts of the united one. -/
theorem find?_unite {m : AtomicQuery → Binding} {i : ConceptId}
    (hone : ∀ q ∈ queries, ∀ r ∈ queries, ∀ v i j, (m q).find? v = some i → (m r).find? v = some j → i = j) :
    (unite queries m).find? v = some i ↔ ∃ q ∈ queries, (m q).find? v = some i := by
  have hmem {i : ConceptId} : (v, i) ∈ queries.flatMap (fun q => (m q).entries) ↔
      ∃ q ∈ queries, (m q).find? v = some i := by
    simp only [List.mem_flatMap, SortedMap.find?_eq_some_iff]
  rw [← hmem]
  refine SortedMap.find?_ofList fun w i j hi hj => ?_
  simp only [List.mem_flatMap, ← SortedMap.find?_eq_some_iff] at hi hj
  obtain ⟨q, hq, hi⟩ := hi
  obtain ⟨r, hr, hj⟩ := hj
  exact hone q hq r hr w i j hi hj

/-- Matches that agree make up a match of all queries together. -/
theorem isMatch_unite (hg : g.WellFormed) (hd : (Decomposition.ofConjunction t c).Gives s d s')
    {m : AtomicQuery → Binding} (hm : ∀ q ∈ d.queries, q.IsMatch g (m q))
    (hone : ∀ q ∈ d.queries, ∀ r ∈ d.queries, ∀ v i j, (m q).find? v = some i → (m r).find? v = some j → i = j) :
    d.joint.IsMatch g (unite d.queries m) := by
  refine ⟨fun v => ?_, (reads_joint_iff hd).mpr fun q hq a ha => ?_⟩
  · rw [names_joint_iff hd, SortedMap.contains_iff_isSome]
    constructor
    · rintro ⟨i, hi⟩
      obtain ⟨q, hq, hi⟩ := (find?_unite hone).mp hi
      exact ⟨q, hq, ((hm q hq).domain v).mp (SortedMap.contains_iff_isSome.mpr ⟨i, hi⟩)⟩
    · rintro ⟨q, hq, hv⟩
      obtain ⟨i, hi⟩ := (hm q hq).exists_find? hv
      exact ⟨i, (find?_unite hone).mpr ⟨q, hq, hi⟩⟩
  · have hplain := (Decomposition.decomposed_of_mem_queries hd hq).plain a ha
    refine ((hm q hq).reads a ha).congr hg hplain fun v hv => ?_
    obtain ⟨i, hi⟩ := (hm q hq).exists_find? ⟨a, ha, hv⟩
    exact hi.trans ((find?_unite hone).mpr ⟨q, hq, hi⟩).symm

/-- If no two queries share a variable that is not user-defined, then whatever combines them is part of a
match of all together. -/
theorem combines_iff_isMatch_joint (hg : g.WellFormed)
    (hd : (Decomposition.ofConjunction t c).Gives s d s')
    (hlinks : d.queries.Pairwise fun q r => ∀ v, q.Names v → r.Names v → v.userDefined = true) :
    Combines g d.queries b ↔ ∃ m, d.joint.IsMatch g m ∧ m.restrict Var.userDefined = b := by
  refine ⟨fun h => ?_, fun ⟨m, hm, hb⟩ => hb ▸ combines_of_isMatch_joint hg hd hm⟩
  choose! m hm hagree using h.agrees
  have hone : ∀ q ∈ d.queries, ∀ r ∈ d.queries, ∀ v i j, (m q).find? v = some i → (m r).find? v = some j →
      i = j := by
    intro q hq r hr v i j hi hj
    have hqv := ((hm q hq).domain v).mp (SortedMap.contains_iff_isSome.mpr ⟨i, hi⟩)
    have hrv := ((hm r hr).domain v).mp (SortedMap.contains_iff_isSome.mpr ⟨j, hj⟩)
    by_cases huser : v.userDefined = true
    · rw [← hagree q hq v huser hqv] at hi
      rw [← hagree r hr v huser hrv] at hj
      exact Option.some.inj (hi.symm.trans hj)
    · obtain rfl : q = r := by
        by_contra hne
        have hsymm : Std.Symm fun q r : AtomicQuery =>
            ∀ v, q.Names v → r.Names v → v.userDefined = true := ⟨fun q r h v hr hq => h v hq hr⟩
        exact huser (hlinks.forall hq hr hne v hqv hrv)
      exact Option.some.inj (hi.symm.trans hj)
  refine ⟨unite d.queries m, isMatch_unite hg hd hm hone, SortedMap.ext_find? fun v => Option.ext fun i => ?_⟩
  rw [SortedMap.find?_restrict]
  constructor
  · intro hi
    split at hi
    · next huser =>
      obtain ⟨q, hq, hi⟩ := (find?_unite hone).mp hi
      have hv := ((hm q hq).domain v).mp (SortedMap.contains_iff_isSome.mpr ⟨i, hi⟩)
      exact (hagree q hq v huser hv).trans hi
    · cases hi
  · intro hi
    obtain ⟨huser, q, hq, hv⟩ := h.domain v (SortedMap.contains_iff_isSome.mpr ⟨i, hi⟩)
    rw [if_pos huser]
    exact (find?_unite hone).mpr ⟨q, hq, (hagree q hq v huser hv).symm.trans hi⟩

end DecomposedQuery

end GraphInference
