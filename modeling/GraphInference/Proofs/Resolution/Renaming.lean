import GraphInference.Proofs.Answer.Keeping
import GraphInference.Proofs.Query.Admission
import GraphInference.Proofs.Resolution.Consequence

/-!
# What follows for a renamed query

If one query is a renaming of another and each rule treats the two alike, then the same bindings follow
for both, renamed (`Setting.Infers.relabel`). A rule treats them alike if its unifiers with them
lead every variable and its counterpart to the same variable of the rule's body, or both out of the body
(`Unifier.Tracks`): a joined binding is read by name, so that a variable which a unifier leaves alone may
meet a namesake there.
-/

namespace GraphInference

/-! ## Renamed bindings -/

namespace Binding

variable {ρ : Var → Var} {b left right : Binding}

theorem relabel_id (b : Binding) : b.relabel id = b :=
  SortedMap.ext_find? fun v => Option.ext fun i => by
    rw [find?_relabel (ρ := id) fun _ _ _ _ h => h]
    simp

@[simp] theorem relabel_empty (ρ : Var → Var) : relabel ρ .empty = .empty := rfl

theorem contains_relabel_iff (hinj : ∀ v w, b.contains v = true → b.contains w = true → ρ v = ρ w → v = w)
    {w : Var} : (b.relabel ρ).contains w = true ↔ ∃ v, b.contains v = true ∧ ρ v = w := by
  simp only [SortedMap.contains_iff_isSome, find?_relabel hinj]
  constructor
  · rintro ⟨i, v, hv, hw⟩
    exact ⟨v, ⟨i, hv⟩, hw⟩
  · rintro ⟨v, ⟨i, hv⟩, hw⟩
    exact ⟨i, v, hv, hw⟩

/-- Bindings whose variables a renaming tells apart merge before it as after it. -/
theorem merge?_relabel {V : Var → Prop} (hinj : ∀ v w, V v → V w → ρ v = ρ w → v = w)
    (hleft : ∀ v, left.contains v = true → V v) (hright : ∀ v, right.contains v = true → V v)
    (h : merge? left right = some b) :
    merge? (left.relabel ρ) (right.relabel ρ) = some (b.relabel ρ) := by
  obtain ⟨hagree, hfind⟩ := merge?_eq_some_iff.mp h
  have hb (v : Var) (hv : b.contains v = true) : V v := by
    obtain ⟨i, hi⟩ := SortedMap.contains_iff_isSome.mp hv
    rcases (hfind v i).mp hi with hi | hi
    · exact hleft v (SortedMap.contains_iff_isSome.mpr ⟨i, hi⟩)
    · exact hright v (SortedMap.contains_iff_isSome.mpr ⟨i, hi⟩)
  have hon {m : Binding} (hm : ∀ v, m.contains v = true → V v) {w : Var} {i : ConceptId} :
      (m.relabel ρ).find? w = some i ↔ ∃ v, m.find? v = some i ∧ ρ v = w :=
    find?_relabel fun v w hv hw => hinj v w (hm v hv) (hm w hw)
  have hmem {m : Binding} (hm : ∀ v, m.contains v = true → V v) {v : Var} {i : ConceptId}
      (hv : m.find? v = some i) : V v := hm v (SortedMap.contains_iff_isSome.mpr ⟨i, hv⟩)
  refine merge?_eq_some_iff.mpr ⟨fun w i j hi hj => ?_, fun w i => ?_⟩
  · obtain ⟨v, hv, rfl⟩ := (hon hleft).mp hi
    obtain ⟨v', hv', heq⟩ := (hon hright).mp hj
    obtain rfl := hinj v' v (hmem hright hv') (hmem hleft hv) heq
    exact hagree _ i j hv hv'
  · rw [hon hb, hon hleft, hon hright]
    simp only [hfind, or_and_right, exists_or]

end Binding

/-- The variables that a joined binding of a body may bind. -/
def Binds (body : List AtomicQuery) (v : Var) : Prop :=
  ∃ p ∈ body, v ∈ p.userVars

instance (body : List AtomicQuery) (v : Var) : Decidable (Binds body v) :=
  decidable_of_iff (∃ p ∈ body, p.userVars.contains v = true)
    (exists_congr fun _ => and_congr_right fun _ => SortedSet.contains_iff)

namespace Interpretation

variable {I I' : Interpretation} {ρ : Var → Var}

/-- The second interpretation has the bindings of the first, renamed; these bind variables of their
queries. -/
def Relabels (I I' : Interpretation) (ρ : Var → Var) (p p' : AtomicQuery) : Prop :=
  ∀ b, I p b → (∀ v, b.contains v = true → v ∈ p.userVars) ∧ I' p' (b.relabel ρ)

theorem Joins.relabel {V : Var → Prop} {body body' : List AtomicQuery} {m m' : Binding}
    (hinj : ∀ v w, V v → V w → ρ v = ρ w → v = w) (hV : ∀ v, Binds body v → V v)
    (hbody : List.Forall₂ (Relabels I I' ρ) body body') (hm : ∀ v, m.contains v = true → V v)
    (h : I.Joins body m m') : I'.Joins body' (m.relabel ρ) (m'.relabel ρ) := by
  induction hbody generalizing m with
  | nil => exact congrArg _ h
  | @cons p p' body body' hp hbody ih =>
    obtain ⟨b, mid, hb, hmerge, h⟩ := h
    obtain ⟨hbound, hb'⟩ := hp b hb
    have hb (v : Var) (hv : b.contains v = true) : V v := hV v ⟨p, .head _, hbound v hv⟩
    refine ⟨b.relabel ρ, mid.relabel ρ, hb', Binding.merge?_relabel hinj hm hb hmerge,
      ih (fun v ⟨q, hq, hv⟩ => hV v ⟨q, .tail _ hq, hv⟩) (fun v hv => ?_) h⟩
    obtain ⟨i, hi⟩ := SortedMap.contains_iff_isSome.mp hv
    rcases ((Binding.merge?_eq_some_iff.mp hmerge).2 v i).mp hi with hi | hi
    · exact hm v (SortedMap.contains_iff_isSome.mpr ⟨i, hi⟩)
    · exact hb v (SortedMap.contains_iff_isSome.mpr ⟨i, hi⟩)

theorem Joins.binds {body : List AtomicQuery} {m : Binding}
    (hbody : ∀ p ∈ body, ∀ b, I p b → ∀ v, b.contains v = true → v ∈ p.userVars)
    (h : I.Joins body .empty m) {v : Var} (hv : m.contains v = true) : Binds body v := by
  rcases h.domain hv with hv | ⟨p, hp, b, hb, hv⟩
  · cases hv
  · exact ⟨p, hp, hbody p hp b hb v hv⟩

end Interpretation

/-! ## Predicates -/

namespace AtomicQuery

variable {t : Transaction} {q r : AtomicQuery} {b b' : Binding} {ρ : Var → Var}

/-- Predicates that ask the same are satisfied by the same concepts. -/
theorem satisfies_congr {a a' : Atom} (ha : a.isPredicate = true) (ha' : a'.isPredicate = true)
    (h : a.demand? = a'.demand?) (id : ConceptId) : satisfies t id a = satisfies t id a' := by
  cases a <;> cases a' <;> try contradiction
  all_goals simp_all [Atom.demand?, satisfies]

/-- A renamed query admits what the query admits, renamed. -/
theorem Renames.admits_iff (h : Renames ρ q r) (hq : q.HasPredicates) (hr : r.HasPredicates)
    (hb : ∀ p ∈ q.predicates, ∀ id, b'.find? (ρ p.var) = some id ↔ b.find? p.var = some id) :
    r.admits t b' = .ok true ↔ q.admits t b = .ok true := by
  have hdemand {p : Atom} {id : ConceptId} (hp : p.isPredicate = true) {e : Option Demand × Var}
      (he : e.1 = p.demand?) : (∀ p' : Atom, p'.isPredicate = true → p'.demand? = e.1 →
        satisfies t id p' = .ok true) ↔ satisfies t id p = .ok true :=
    ⟨fun h => h p hp he.symm, fun h p' hp' hd => (satisfies_congr hp' hp (hd.trans he) id).trans h⟩
  have hadmits {q : AtomicQuery} {b : Binding} (hq : q.HasPredicates) : q.admits t b = .ok true ↔
      ∀ e ∈ q.demands, ∃ id, b.find? e.2 = some id ∧ ∀ p : Atom, p.isPredicate = true →
        p.demand? = e.1 → satisfies t id p = .ok true := by
    rw [admits_eq_ok_iff, AtomicQuery.demands, List.forall_mem_map]
    refine forall₂_congr fun p hp => exists_congr fun id => and_congr_right fun _ => ?_
    exact (hdemand (hq p hp) rfl).symm
  rw [hadmits hr, hadmits hq]
  simp only [h.demands.mem_iff, relabel, List.forall_mem_map]
  refine forall₂_congr fun e he => exists_congr fun id => and_congr_left fun _ => ?_
  obtain ⟨p, hp, rfl⟩ := List.mem_map.mp he
  exact hb p hp id

end AtomicQuery

/-! ## Rules -/

/-- The unifiers lead each variable of the query and its counterpart to the same variable of the body,
renamed, or both out of the body. -/
def Unifier.Tracks (ρ τ : Var → Var) (q : AtomicQuery) (u u' : Unifier) (body body' : List AtomicQuery) :
    Prop :=
  ∀ v ∈ q.slots, Binds body (u.apply v) ∧ u'.apply (ρ v) = τ (u.apply v) ∨
    ¬ Binds body (u.apply v) ∧ ¬ Binds body' (u'.apply (ρ v))

instance (ρ τ : Var → Var) (q : AtomicQuery) (u u' : Unifier) (body body' : List AtomicQuery) :
    Decidable (u.Tracks ρ τ q u' body body') :=
  inferInstanceAs (Decidable (∀ _ ∈ _, _))

namespace Setting

open AnswerStream AtomicQuery

variable {s s' : Setting} {I I' : Interpretation} {q q' : AtomicQuery} {u u' : Unifier}
  {body body' : List AtomicQuery} {ρ τ : Var → Var} {g₁ g₂ : Graph} {b m : Binding}

theorem Found.relabel (ht : s'.transaction = s.transaction) (hg : s.transaction.graph.WellFormed)
    (hq : q.Decomposed g₁) (hq' : q'.Decomposed g₂)
    (hlabel : q'.central.label? = q.central.label?) (h : Renames ρ q q') (hb : s.Found q b) :
    s'.Found q' (b.relabel ρ) := by
  obtain ⟨hstatements, m, hm, rfl⟩ := hb
  refine ⟨mt (h.statements_eq_nil_iff hq hq' hlabel).mp hstatements, m.relabel ρ, ?_,
    h.restrict_relabel hq hq' hm⟩
  rw [ht]
  exact (h.isMatch_iff hg hq hq' hlabel).mpr ⟨m, hm, rfl⟩

/-- What a joined binding gives the query it gives the renamed query, renamed. -/
theorem Yields.relabel (ht : s'.transaction = s.transaction) (hq : q.Decomposed g₁)
    (hq' : q'.Decomposed g₂) (h : Renames ρ q q')
    (hinj : ∀ v w, Binds body v → Binds body w → τ v = τ w → v = w)
    (hbinds : ∀ v, Binds body v → Binds body' (τ v)) (htracks : u.Tracks ρ τ q u' body body')
    (hm : ∀ v, m.contains v = true → Binds body v) (hb : s.Yields q u m b) :
    s'.Yields q' u' (m.relabel τ) (b.relabel ρ) := by
  have hmInj (v w : Var) (hv : m.contains v = true) (hw : m.contains w = true) : τ v = τ w → v = w :=
    hinj v w (hm v hv) (hm w hw)
  have hfind {v : Var} (hv : v ∈ q.slots) {i : ConceptId} :
      (m.relabel τ).find? (u'.apply (ρ v)) = some i ↔ m.find? (u.apply v) = some i := by
    rw [Binding.find?_relabel hmInj]
    rcases htracks v hv with ⟨hbound, heq⟩ | ⟨hout, hout'⟩
    · constructor
      · rintro ⟨x, hx, hxτ⟩
        have hxV := hm x (SortedMap.contains_iff_isSome.mpr ⟨i, hx⟩)
        exact hinj x _ hxV hbound (hxτ.trans heq) ▸ hx
      · exact fun hi => ⟨u.apply v, hi, heq.symm⟩
    · refine iff_of_false ?_ fun hi => hout (hm _ (SortedMap.contains_iff_isSome.mpr ⟨i, hi⟩))
      rintro ⟨x, hx, hxτ⟩
      exact hout' (hxτ ▸ hbinds x (hm x (SortedMap.contains_iff_isSome.mpr ⟨i, hx⟩)))
  have hpull {v : Var} (hv : v ∈ q.slots) {i : ConceptId} :
      (pullBack q' u' (m.relabel τ)).find? (ρ v) = some i ↔ (pullBack q u m).find? v = some i := by
    rw [find?_pullBack, find?_pullBack, h.mem_vars_iff hq hq' hv, hfind hv]
  have hcontains {v : Var} (hv : v ∈ q.slots) :
      (pullBack q' u' (m.relabel τ)).contains (ρ v) = true ↔ (pullBack q u m).contains v = true := by
    simp only [SortedMap.contains_iff_isSome, hpull hv]
  have hback {w : Var} (hw : w ∈ q'.userVars) : ∃ v ∈ q.userVars, ρ v = w := by
    obtain ⟨v, hv, rfl⟩ := h.mem_slots_iff.mp (mem_slots_of_mem_userVars hq' hw)
    exact ⟨v, (h.mem_userVars_iff hq hq' hv).mp hw, rfl⟩
  refine ⟨fun w hw => ?_, ?_, ?_⟩
  · obtain ⟨v, hv, rfl⟩ := hback hw
    exact (hcontains (mem_slots_of_mem_userVars hq hv)).mpr (hb.bound v hv)
  · rw [ht]
    refine (h.admits_iff hq.predicates hq'.predicates fun p hp id => ?_).mpr hb.admitted
    exact hpull (demand_mem_slots (List.mem_map_of_mem hp))
  · have hbound (v : Var) (hv : b.contains v = true) : v ∈ q.slots :=
      mem_slots_of_mem_userVars hq (hb.contains_iff.mp hv)
    refine SortedMap.ext_find? fun w => Option.ext fun i => ?_
    rw [find?_restrict_userVars, Binding.find?_relabel fun v w hv hw =>
      h.injective v (hbound v hv) w (hbound w hw)]
    simp only [← hb.eq, find?_restrict_userVars]
    constructor
    · rintro ⟨hw, hi⟩
      obtain ⟨v, hv, rfl⟩ := hback hw
      exact ⟨v, ⟨hv, (hpull (mem_slots_of_mem_userVars hq hv)).mp hi⟩, rfl⟩
    · rintro ⟨v, ⟨hv, hi⟩, rfl⟩
      have hslot := mem_slots_of_mem_userVars hq hv
      exact ⟨(h.mem_userVars_iff hq hq' hslot).mpr hv, (hpull hslot).mpr hi⟩

/-- Rules are applied to a renaming of a query that they are applied to. -/
theorem Expands.relabel (ht : s'.transaction = s.transaction) (hconfig : s'.config = s.config)
    (hg : s.transaction.graph.WellFormed) (hq : q.Decomposed g₁) (hq' : q'.Decomposed g₂)
    (hlabel : q'.central.label? = q.central.label?) (h : Renames ρ q q') (he : s.Expands q) :
    s'.Expands q' := by
  obtain ⟨τ, hτ⟩ := h.exists_leftInverse
  refine ⟨hconfig ▸ he.1, fun hclosed b hb => he.2 (hconfig ▸ hclosed) (b.relabel τ) ?_⟩
  exact hb.relabel ht.symm (ht ▸ hg) hq' hq hlabel.symm (h.symm_of_leftInverse hq hτ)

/-- What follows for a query follows for a renaming of it that the rules treat alike, renamed. -/
theorem Infers.relabel (ht : s'.transaction = s.transaction) (hconfig : s'.config = s.config)
    (hg : s.transaction.graph.WellFormed) (hq : q.Decomposed g₁) (hq' : q'.Decomposed g₂)
    (hlabel : q'.central.label? = q.central.label?) (h : Renames ρ q q')
    (hrules : ∀ id u r, (id, u) ∈ s.rules.applicable q.central → s.rules.get? id = some r →
      ∃ id' u' r' τ, (id', u') ∈ s'.rules.applicable q'.central ∧ s'.rules.get? id' = some r' ∧
        (∀ v w, Binds r.body v → Binds r.body w → τ v = τ w → v = w) ∧
        (∀ v, Binds r.body v → Binds r'.body (τ v)) ∧
        List.Forall₂ (I.Relabels I' τ) r.body r'.body ∧ u.Tracks ρ τ q u' r.body r'.body)
    (hb : s.Infers I q b) : s'.Infers I' q' (b.relabel ρ) := by
  refine hb.imp (Found.relabel ht hg hq hq' hlabel h)
    (And.imp (Expands.relabel ht hconfig hg hq hq' hlabel h) ?_)
  rintro ⟨id, u, r, m, hid, hr, hjoins, hyields⟩
  obtain ⟨id', u', r', τ, hid', hr', hinj, hbinds, hbody, htracks⟩ := hrules id u r hid hr
  have hm (v : Var) (hv : m.contains v = true) : Binds r.body v := by
    refine hjoins.binds (fun p hp c hc => ?_) hv
    obtain ⟨p', -, hrelabels⟩ := exists_of_forall₂_of_mem hbody hp
    exact (hrelabels c hc).1
  exact ⟨id', u', r', m.relabel τ, hid', hr',
    hjoins.relabel (V := Binds r.body) hinj (fun _ hv => hv) hbody (fun _ hv => by cases hv),
    hyields.relabel ht hq hq' h hinj hbinds htracks hm⟩

end Setting

end GraphInference
