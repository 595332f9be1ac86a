import GraphInference.Proofs.Resolution.Coherence
import GraphInference.Proofs.Resolution.Unhindered
import GraphInference.Proofs.Rule.Dependencies

/-!
# A stream that ends is closed under its rules

A stream that comes to no bound ends after a round without new answers, or after its only round if none of
its rules is recursive. Its answers are then closed under its rules. On a path the closure is relative to
the known answers of the queries under expansion, those of the stream's own query among them: in a round
without new answers these are all that it has (`Setting.Coherent.entailsFrom_of_closed`), and a query
whose rules are not recursive is met by no query below it
(`Setting.Coherent.entailsFrom_of_not_recursive`).
-/

namespace GraphInference

open AtomicQuery Resolve

/-! ## Knowledge that grows -/

namespace Setting

variable {s : Setting} {queries : List AtomicQuery} {known known' : Interpretation}
  {path : ResolutionPath} {q r p : AtomicQuery} {b : Binding} {k k' : Knowledge} {n : Nat}
  {u : Unifier} {id : RuleId}

theorem EntailsFrom.mono (hknown : ∀ q b, path.meets q = true → known q b → known' q b)
    (h : s.EntailsFrom path known q b) : s.EntailsFrom path known' q b :=
  entailsFrom_le (fun q b hq hb => (entailsFrom_iff_of_meets hq).mpr (hknown q b hq hb))
    (fun _ _ hq hb => (entailsFrom_iff_of_not_meets hq).mpr hb) h

end Setting

theorem ResolutionPath.meets_iff_of_isEquivalent {path : ResolutionPath} {q r : AtomicQuery}
    (h : q.isEquivalent r = true) : path.meets q = true ↔ path.meets r = true := by
  unfold meets
  simp only [List.any_eq_true]
  refine exists_congr fun p => and_congr_right fun _ => ⟨fun hp => ?_, fun hp => ?_⟩
  · exact isEquivalent_trans hp h
  · exact isEquivalent_trans hp (isEquivalent_symm h)

theorem ResolutionPath.meets_cons {path : ResolutionPath} {q r : AtomicQuery} :
    ResolutionPath.meets (q :: path) r = true ↔ q.isEquivalent r = true ∨ path.meets r = true := by
  unfold meets
  rw [List.any_cons, Bool.or_eq_true]

namespace AnswerCache

variable {c : AnswerCache} {q r : AtomicQuery}

/-- Equivalent queries have one class. -/
theorem class?_eq_of_isEquivalent (h : q.isEquivalent r = true) : c.class? q = c.class? r := by
  unfold class?
  congr 1
  funext e
  exact Bool.eq_iff_iff.mpr ⟨fun he => isEquivalent_trans he h,
    fun he => isEquivalent_trans he (isEquivalent_symm h)⟩

end AnswerCache

namespace AtomicQuery.IsCopyOf

variable {q r : AtomicQuery} {b : Binding} {s : Setting} {path : ResolutionPath} {c : AnswerCache}

theorem isEquivalent (h : q.IsCopyOf r) (hr : r.HasPredicates) : q.isEquivalent r = true := by
  rw [h.isEquivalent_eq (.refl r) hr hr]
  exact isEquivalent_refl r

theorem serves_iff (h : q.IsCopyOf r) (hr : r.HasPredicates) : c.Serves q b ↔ c.Serves r b := by
  simp only [AnswerCache.serves_iff, AnswerCache.class?_eq_of_isEquivalent (h.isEquivalent hr),
    h.unifier_eq (.refl _)]

theorem entailsFrom_iff (h : q.IsCopyOf r) (hr : r.HasPredicates) :
    s.EntailsFrom path c.Serves q b ↔ s.EntailsFrom path c.Serves r b := by
  have hmeets : path.meets q = true ↔ path.meets r = true :=
    ResolutionPath.meets_iff_of_isEquivalent (h.isEquivalent hr)
  by_cases hq : path.meets q = true
  · rw [Setting.entailsFrom_iff_of_meets hq, Setting.entailsFrom_iff_of_meets (hmeets.mp hq),
      h.serves_iff hr]
  · rw [Setting.entailsFrom_iff_of_not_meets hq,
      Setting.entailsFrom_iff_of_not_meets (mt hmeets.mpr hq), h.infers_iff]

end AtomicQuery.IsCopyOf

/-- A rule whose head unifies with a query feeds the rules with that query in their body. -/
theorem CompiledRule.dependsOn_of_unify? {c c' : CompiledRule} {p : AtomicQuery} {u : Unifier}
    (hp : p ∈ c.body) (h : c'.unify? p.central = some u) : c.dependsOn c' = true := by
  unfold unify? at h
  dsimp only at h
  split at h
  · cases h
  · next hfamily =>
    split at h
    · cases h
    · next htype =>
      refine List.any_eq_true.mpr ⟨p, hp, ?_⟩
      rw [Bool.and_eq_true, Bool.or_eq_true, decide_eq_true_eq, decide_eq_true_eq]
      refine ⟨not_not.mp hfamily, ?_⟩
      rw [not_and_or, not_not, Option.not_isSome_iff_eq_none, ← Option.isNone_iff_eq_none] at htype
      exact htype

namespace Setting.Coherent

variable {s : Setting} {queries : List AtomicQuery} {path : ResolutionPath} {q r p : AtomicQuery}
  {b : Binding} {k k' : Knowledge} {n : Nat} {u : Unifier} {id : RuleId} {start : AnswerCache}

/-- The rules that apply to a query apply to the equivalent ones. -/
theorem exists_applicable (h : s.Coherent queries) (hq : q.IsAmong queries) (hr : r.IsAmong queries)
    (heq : q.isEquivalent r = true) (hid : (id, u) ∈ s.rules.applicable q.central) :
    ∃ u', (id, u') ∈ s.rules.applicable r.central := by
  obtain ⟨p, hp, hqp⟩ := hq
  obtain ⟨p', hp', hrp'⟩ := hr
  rw [hqp.isEquivalent_eq hrp' (h.made p hp).hasPredicates (h.made p' hp').hasPredicates] at heq
  obtain ⟨v, -, hrespects⟩ := h.unifiers p hp p' hp' heq
  rw [hqp.applicable_eq] at hid
  obtain ⟨u', -, hid', -⟩ := hrespects.exists_applicable h.built hid
  exact ⟨u', hrp'.applicable_eq s.rules ▸ hid'⟩

theorem entailsFrom_le_entails (h : s.Coherent queries) (hk : s.Trusts queries k n) :
    q.IsAmong queries → s.EntailsFrom path k.known.Serves q b → s.Entails q b := by
  intro hq hb
  refine entailsFrom_le (I := fun q b => q.IsAmong queries → s.Entails q b)
    (fun q b _ hb hq => hk.entails_of_serves h hq hb) (fun q b _ hb hq => ?_) hb hq
  refine entails_iff.mpr (hb.mono fun id u c _ hc p hp b hb => hb (isAmong_of_mem ?_))
  exact h.bodies c (List.mem_of_getElem? hc) p hp

theorem proper_entailsFrom (h : s.Coherent queries) (hk : s.Trusts queries k n) :
    Proper queries (s.EntailsFrom path k.known.Serves) :=
  fun _ hp _ hb _ hv => (h.entailsFrom_le_entails hk (isAmong_of_mem hp) hb).mem_userVars hv

/-- What is recorded is served. -/
theorem serves_record (h : s.Coherent queries) (hk : s.Trusts queries k n) (hq : q.IsAmong queries)
    {as : List Answer} (has : ∀ a ∈ as, s.Entails q a.binding) :
    ∀ a ∈ as, (k.known.record q as).2.Serves q a.binding := by
  intro a ha
  obtain ⟨e, he, hquery, hhas⟩ := AnswerCache.exists_class?_record k.known q as
  have hamong : e.query.IsAmong queries := by
    rw [hquery, AnswerCache.keeper]
    cases hclass : k.known.class? q with
    | none => exact hq
    | some d => exact (hk.entailed d (List.mem_of_find?_eq_some hclass)).1
  have heq : e.query.isEquivalent q = true := by simpa using List.find?_some he
  obtain ⟨u, w, hexchange⟩ := h.exists_exchange (I := s.Entails) proper_entails hq hamong
    (isEquivalent_symm heq)
  refine AnswerCache.serves_iff.mpr ⟨e, u, w, he, hexchange.unifier, hexchange.inverse,
    a.binding.relabel u.apply, (hhas _).mpr (.inr ⟨u, hexchange.unifier, a, ha, rfl⟩), ?_⟩
  exact hexchange.relabel_forth_back fun v hv => (has a ha).mem_userVars hv

/-! ## Closure -/

/-- What follows for a query that is equivalent to a closed one is served. -/
theorem serves_of_closed (h : s.Coherent queries) (hk : s.Trusts queries k n) (hq : q.IsAmong queries)
    (hclosed : ∀ b, s.Infers (s.EntailsFrom (q :: path) k.known.Serves) q b → k.known.Serves q b)
    (hp : p.IsAmong queries) (heq : q.isEquivalent p = true)
    (hb : s.Infers (s.EntailsFrom (q :: path) k.known.Serves) p b) : k.known.Serves p b := by
  have hproper : Proper queries (s.EntailsFrom (q :: path) k.known.Serves) :=
    h.proper_entailsFrom hk
  -- Some answer is known, so that there is a class. The binding goes through its first query.
  obtain ⟨u₁, w₁, hpq⟩ := h.exists_exchange hproper hp hq (isEquivalent_symm heq)
  obtain ⟨e, u, w, he, hu, hw, -⟩ := AnswerCache.serves_iff.mp (hclosed _ (hpq.forth b hb))
  obtain ⟨hamong, hentailed⟩ := hk.entailed e (List.mem_of_find?_eq_some he)
  have hequery : e.query.isEquivalent q = true := by simpa using List.find?_some he
  obtain ⟨u', w', hqe⟩ := h.exists_exchange hproper hq hamong (isEquivalent_symm hequery)
  obtain rfl := Except.ok.inj (hu.symm.trans hqe.unifier)
  obtain rfl := Except.ok.inj (hw.symm.trans hqe.inverse)
  obtain ⟨u₂, w₂, hpe⟩ := h.exists_exchange hproper hp hamong
    (isEquivalent_symm (isEquivalent_trans hequery heq))
  obtain ⟨e', u', w', he', hu', hw', d, hd, hback⟩ :=
    AnswerCache.serves_iff.mp (hclosed _ (hqe.back _ (hpe.forth b hb)))
  obtain rfl := Option.some.inj (he.symm.trans he')
  obtain rfl := Except.ok.inj (hu.symm.trans hu')
  obtain rfl := Except.ok.inj (hw.symm.trans hw')
  have hforth := congrArg (Binding.relabel u.apply) hback
  rw [hqe.relabel_back_forth fun v hv => (hentailed d hd).mem_userVars hv,
    hqe.relabel_back_forth fun v hv => (hpe.forth b hb).mem_userVars hv] at hforth
  refine AnswerCache.serves_iff.mpr ⟨e, u₂, w₂, ?_, hpe.unifier, hpe.inverse, d, hd, ?_⟩
  · rw [← AnswerCache.class?_eq_of_isEquivalent heq, he]
  · rw [hforth, hpe.relabel_forth_back fun v hv => hb.mem_userVars hv]

/-- If all that follows for a query is known, then its own known answers may stand for it below. -/
theorem entailsFrom_of_closed (h : s.Coherent queries) (hk : s.Trusts queries k n)
    (hq : q.IsAmong queries) (hgrows : start.Grows k.known)
    (hclosed : ∀ b, s.Infers (s.EntailsFrom (q :: path) k.known.Serves) q b → k.known.Serves q b)
    (hp : p.IsAmong queries) (hb : s.EntailsFrom path start.Serves p b) :
    s.EntailsFrom (q :: path) k.known.Serves p b := by
  refine entailsFrom_le
    (I := fun p b => p.IsAmong queries → s.EntailsFrom (q :: path) k.known.Serves p b)
    (fun p b hmeets hb _ => ?_) (fun p b hmeets hb hp => ?_) hb hp
  · exact (entailsFrom_iff_of_meets (ResolutionPath.meets_cons.mpr (.inr hmeets))).mpr
      (hgrows.serves hb)
  · have hb : s.Infers (s.EntailsFrom (q :: path) k.known.Serves) p b :=
      hb.mono fun id u c _ hc p hp b hb => hb (isAmong_of_mem (h.bodies c (List.mem_of_getElem? hc) p hp))
    by_cases hcons : ResolutionPath.meets (q :: path) p = true
    · have heq := (ResolutionPath.meets_cons.mp hcons).resolve_right hmeets
      exact (entailsFrom_iff_of_meets hcons).mpr (h.serves_of_closed hk hq hclosed hp heq hb)
    · exact (entailsFrom_iff_of_not_meets hcons).mpr hb

/-- Below a query whose rules are not recursive no query is equivalent to it. -/
theorem entailsFrom_of_not_recursive (h : s.Coherent queries) (hq : q.IsAmong queries)
    (hgrows : start.Grows k.known)
    (hrecursive : ∀ id u, (id, u) ∈ s.rules.applicable q.central → ¬ s.rules.isRecursive id = true)
    {c : CompiledRule} (hid : (id, u) ∈ s.rules.applicable q.central) (hc : s.rules.get? id = some c)
    (hp : p ∈ c.body) (hb : s.EntailsFrom path start.Serves p b) :
    s.EntailsFrom (q :: path) k.known.Serves p b := by
  let Below (p : AtomicQuery) : Prop := ∃ j d, Relation.ReflTransGen s.rules.DependsOn id j ∧
    s.rules.get? j = some d ∧ p ∈ d.body
  have hfeeds {p : AtomicQuery} {j l : RuleId} {d : CompiledRule} {v : Unifier}
      (hd : s.rules.get? j = some d) (hp : p ∈ d.body) (hl : (l, v) ∈ s.rules.applicable p.central) :
      s.rules.DependsOn j l := by
    obtain ⟨d', hd', hunify⟩ := h.built.get?_of_applicable hl
    exact RuleSet.dependsOn_iff.mpr ⟨d, hd, d', List.mem_of_getElem? hd',
      CompiledRule.dependsOn_of_unify? hp hunify, h.built.id_eq hd'⟩
  refine entailsFrom_le (I := fun p b => Below p → s.EntailsFrom (q :: path) k.known.Serves p b)
    (fun p b hmeets hb _ => ?_) (fun p b hmeets hb hbelow => ?_) hb ⟨id, c, .refl, hc, hp⟩
  · exact (entailsFrom_iff_of_meets (ResolutionPath.meets_cons.mpr (.inr hmeets))).mpr
      (hgrows.serves hb)
  · obtain ⟨j, d, hj, hd, hp⟩ := hbelow
    have hcons : ¬ ResolutionPath.meets (q :: path) p = true := by
      intro hcons
      have heq := (ResolutionPath.meets_cons.mp hcons).resolve_right hmeets
      obtain ⟨u', hid'⟩ := h.exists_applicable hq
        (isAmong_of_mem (h.bodies d (List.mem_of_getElem? hd) p hp)) heq hid
      exact hrecursive id u hid (RuleSet.isRecursive_iff.mpr (.tail' hj (hfeeds hd hp hid')))
    refine (entailsFrom_iff_of_not_meets hcons).mpr (hb.mono ?_)
    exact fun l v d' hl hd' p' hp' b hb => hb ⟨l, d', hj.tail (hfeeds hd hp hl), hd', hp'⟩

end Setting.Coherent

end GraphInference
