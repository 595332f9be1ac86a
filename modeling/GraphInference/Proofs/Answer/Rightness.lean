import GraphInference.Proofs.Answer.Cache
import GraphInference.Proofs.Unification.Inverse

/-!
# Right answers

An answer is right for a query if it binds the user-defined variables of the query and no others, and
concepts for the remaining variables make all atoms hold (`AtomicQuery.IsAnswer`). Renamings take right
answers to right answers, so a cache that was given right answers gives right answers, as far as the
unifiers of equivalent queries are renamings: `AnswerCache.isAnswer_of_get?`. They need not be, as a
unifier goes by the roles of the players and not by the predicates on them.
-/

namespace GraphInference

namespace AtomicQuery

/-- The query was decomposed against the graph or an earlier state of it. -/
def MadeFor (q : AtomicQuery) (g : Graph) : Prop :=
  ∃ g₁ : Graph, g₁.Precedes g ∧ q.Decomposed g₁

/-- A binding of exactly the user-defined variables under which, with concepts for the other
variables, every atom holds. -/
structure IsAnswer (q : AtomicQuery) (g : Graph) (b : Binding) : Prop where
  domain : ∀ v, b.contains v = true ↔ v ∈ q.userVars
  reads : ∃ look : Var → Option ConceptId, (∀ v ∈ q.userVars, look v = b.find? v) ∧
    ∀ a ∈ q.atoms, a.Matches g look

variable {q r : AtomicQuery} {g g₁ g₂ : Graph} {ρ τ : Var → Var} {b : Binding} {v : Var}

theorem MadeFor.hasPredicates (h : q.MadeFor g) : q.HasPredicates := by
  obtain ⟨g₁, -, hq⟩ := h
  exact hq.predicates

/-- Labels keep their identifiers, so that the query could have been decomposed against the later state. -/
theorem MadeFor.decomposed (h : q.MadeFor g) (hg : g.WellFormed) : q.Decomposed g := by
  obtain ⟨g₁, hprecedes, hq⟩ := h
  refine ⟨⟨hq.central.1, fun c hc => ?_⟩, hq.predicates⟩
  have hresolved := hq.central.2 c hc
  unfold Anchor.ResolvedIn at hresolved ⊢
  cases hlabel : c.label with
  | none => simpa only [hlabel] using hresolved
  | some l =>
    simp only [hlabel] at hresolved ⊢
    obtain ⟨huser, hempty, p, hp, hvar, hid⟩ := hresolved
    obtain ⟨d, hd, hdid, hdl⟩ := Graph.labelled?_eq_some hid
    refine ⟨huser, hempty, p, hp, hvar, ?_⟩
    rw [hg.labelled?_label (hprecedes.concepts_subset hd) hdl, hdid]

theorem mem_slots_of_mem_userVars (hq : q.Decomposed g₁) (hv : v ∈ q.userVars) : v ∈ q.slots := by
  rcases (mem_vars_iff hq).mp (SortedSet.mem_filter.mp hv).1 with ⟨rfl | rfl, -⟩ | ⟨p, hp, rfl⟩ |
    ⟨e, he, rfl⟩
  · exact var_mem_slots
  · exact typeVar_mem_slots
  · exact player_mem_slots hp
  · exact demand_mem_slots he

namespace Renames

theorem exists_leftInverse (h : Renames ρ q r) : ∃ τ : Var → Var, ∀ v ∈ q.slots, τ (ρ v) = v :=
  ⟨Function.invFunOn ρ {v | v ∈ q.slots}, fun _ hv =>
    Set.InjOn.leftInvOn_invFunOn (s := {v | v ∈ q.slots}) (fun v hv w hw => h.injective v hv w hw) hv⟩

/-- What leads back from a renaming is a renaming. -/
theorem symm_of_leftInverse (h : Renames ρ q r) (hq : q.Decomposed g₁)
    (hτ : ∀ v ∈ q.slots, τ (ρ v) = v) : Renames τ r q := by
  have hslots {w : Var} (hw : w ∈ r.slots) : ∃ v ∈ q.slots, ρ v = w := h.mem_slots_iff.mp hw
  have hback {κ : Type} {l m : List (κ × Var)} (hl : ∀ p ∈ l, p.2 ∈ q.slots)
      (hperm : m.Perm (relabel ρ l)) : l.Perm (relabel τ m) := by
    have hl : relabel τ (relabel ρ l) = l := by
      rw [relabel, relabel, List.map_map]
      refine (List.map_congr_left fun p hp => ?_).trans l.map_id
      exact Prod.ext rfl (hτ p.2 (hl p hp))
    exact .trans (.of_eq hl.symm) (hperm.symm.map _)
  constructor
  case injective =>
    intro w hw w' hw' heq
    obtain ⟨v, hv, rfl⟩ := hslots hw
    obtain ⟨v', hv', rfl⟩ := hslots hw'
    rw [hτ v hv, hτ v' hv'] at heq
    rw [heq]
  case userDefined =>
    intro w hw
    obtain ⟨v, hv, rfl⟩ := hslots hw
    rw [hτ v hv, h.userDefined v hv]
  case absent =>
    intro w hw
    obtain ⟨v, hv, rfl⟩ := hslots hw
    rw [hτ v hv, h.absent v hv]
  case family => exact h.family.symm
  case var => rw [h.var, hτ _ var_mem_slots]
  case typeVar => rw [h.typeVar, hτ _ typeVar_mem_slots]
  case type =>
    have htype := h.type
    cases hp : q.central.typePredicate? with
    | none =>
      rw [hp] at htype
      rw [Option.map_eq_none_iff.mp htype]
      rfl
    | some p =>
      rw [hp] at htype
      obtain ⟨p', hp', heq⟩ := Option.map_eq_some_iff.mp htype
      obtain ⟨hid, hvar⟩ := Prod.mk.inj heq
      rw [hp', Option.map_some, Option.map_some, hid, hvar,
        hτ _ (typePredicate_var hq hp ▸ typeVar_mem_slots)]
  case players => exact hback (fun p => player_mem_slots) h.players
  case demands => exact hback (fun p => demand_mem_slots) h.demands

/-- A renaming takes right answers to right answers. -/
theorem isAnswer_relabel (h : Renames ρ q r) (hg : g.WellFormed) (hq : q.Decomposed g₁)
    (hr : r.Decomposed g₂) (hlabel : r.central.label? = q.central.label?) (hb : q.IsAnswer g b) :
    r.IsAnswer g (b.relabel ρ) := by
  have hslots {v : Var} (hv : b.contains v = true) : v ∈ q.slots :=
    mem_slots_of_mem_userVars hq ((hb.domain v).mp hv)
  have hfind {w : Var} {id : ConceptId} :
      (b.relabel ρ).find? w = some id ↔ ∃ v, b.find? v = some id ∧ ρ v = w :=
    Binding.find?_relabel fun v w hv hw => h.injective v (hslots hv) w (hslots hw)
  refine ⟨fun w => ?_, ?_⟩
  · rw [SortedMap.contains_iff_isSome]
    simp only [hfind]
    constructor
    · rintro ⟨id, v, hv, rfl⟩
      have hcontains := SortedMap.contains_iff_isSome.mpr ⟨id, hv⟩
      exact (h.mem_userVars_iff hq hr (hslots hcontains)).mpr ((hb.domain v).mp hcontains)
    · intro hw
      obtain ⟨v, hv, rfl⟩ := h.mem_slots_iff.mp (mem_slots_of_mem_userVars hr hw)
      obtain ⟨id, hid⟩ := SortedMap.contains_iff_isSome.mp
        ((hb.domain v).mpr ((h.mem_userVars_iff hq hr hv).mp hw))
      exact ⟨id, v, hid, rfl⟩
  · obtain ⟨look, hlook, hreads⟩ := hb.reads
    obtain ⟨τ, hτ⟩ := h.exists_leftInverse
    refine ⟨look ∘ τ, fun w hw => ?_, (h.matches_iff hq hr hlabel).mpr fun a ha => ?_⟩
    · obtain ⟨v, hv, rfl⟩ := h.mem_slots_iff.mp (mem_slots_of_mem_userVars hr hw)
      have huser := (h.mem_userVars_iff hq hr hv).mp hw
      obtain ⟨id, hid⟩ := SortedMap.contains_iff_isSome.mp ((hb.domain v).mpr huser)
      rw [Function.comp_apply, hτ v hv, hlook v huser, hid]
      exact (hfind.mpr ⟨v, hid, rfl⟩).symm
    · refine (hreads a ha).congr hg (hq.plain a ha) fun v hv => ?_
      rw [Function.comp_apply, Function.comp_apply, hτ v (mem_slots_of_names hq ⟨a, ha, hv⟩)]

end Renames

/-- What a match binds of the user-defined variables is a right answer if the query names them all. -/
theorem IsMatch.isAnswer {m : Binding} (hm : q.IsMatch g m) (hnames : ∀ v ∈ q.userVars, q.Names v) :
    q.IsAnswer g (m.restrict q.userVars.contains) := by
  have hfind (v : Var) (hv : v ∈ q.userVars) :
      (m.restrict q.userVars.contains).find? v = m.find? v := by
    rw [SortedMap.find?_restrict, if_pos (SortedSet.contains_iff.mpr hv)]
  refine ⟨fun v => ⟨fun hv => ?_, fun hv => ?_⟩, m.find?, fun v hv => (hfind v hv).symm, hm.reads⟩
  · obtain ⟨id, hid⟩ := SortedMap.contains_iff_isSome.mp hv
    rw [SortedMap.find?_restrict] at hid
    split at hid
    · next hv => exact SortedSet.contains_iff.mp hv
    · cases hid
  · rw [SortedMap.contains, hfind v hv]
    exact (hm.domain v).mpr (hnames v hv)

/-- Equivalent queries have one label beside their types. -/
theorem label?_eq_of_isEquivalent (hg : g.WellFormed) (h₁ : g₁.Precedes g) (h₂ : g₂.Precedes g)
    (hq : q.Decomposed g₁) (hr : r.Decomposed g₂) (heq : q.isEquivalent r = true) :
    r.central.label? = q.central.label? :=
  label?_eq hg h₁ h₂ hq hr (Atom.family_eq_of_isEquivalent (Bool.and_eq_true_iff.mp heq).1).2

end AtomicQuery

/-! ## The cache -/

namespace AnswerCache

open AtomicQuery

variable {g : Graph} {q : AtomicQuery} {history : List (AtomicQuery × List Answer)}

/-- The cache after answers were recorded for one query after the other. -/
def afterRecords (history : List (AtomicQuery × List Answer)) : AnswerCache :=
  history.foldl (fun c e => (c.record e.1 e.2).2) {}

theorem afterRecords_concat (history : List (AtomicQuery × List Answer)) (e : AtomicQuery × List Answer) :
    afterRecords (history ++ [e]) = ((afterRecords history).record e.1 e.2).2 :=
  List.foldl_concat ..

/-- The unifiers of the queries with those of a list that they are equivalent to are renamings. -/
def Unambiguous (recorded : List AtomicQuery) (q : AtomicQuery) : Prop :=
  ∀ r ∈ recorded, r.isEquivalent q = true → ∀ u, q.unifier r = .ok u → Renames u.apply q r

/-- Each class holds right answers to its first query, which is one of those recorded. -/
theorem isAnswer_of_has (hg : g.WellFormed) (hmade : ∀ e ∈ history, e.1.MadeFor g)
    (hright : ∀ e ∈ history, ∀ a ∈ e.2, e.1.IsAnswer g a.binding)
    (hunifier : ∀ e ∈ history, Unambiguous (history.map (·.1)) e.1) :
    ∀ d ∈ (afterRecords history).classes, d.query ∈ history.map (·.1) ∧
      ∀ b, d.answers.Has b → d.query.IsAnswer g b := by
  -- induction on the records: a new answer is renamed to the first query of its class
  induction history using List.reverseRecOn with
  | nil => exact fun _ hd => nomatch hd
  | append_singleton history e ih =>
    have hmem : e ∈ history ++ [e] := List.mem_append_right _ (.head _)
    have hsub {d : AtomicQuery × List Answer} (hd : d ∈ history) : d ∈ history ++ [e] :=
      List.mem_append_left _ hd
    have hsub' {r : AtomicQuery} (hr : r ∈ history.map (·.1)) : r ∈ (history ++ [e]).map (·.1) := by
      rw [List.map_append]
      exact List.mem_append_left _ hr
    have ih := ih (fun d hd => hmade d (hsub hd)) (fun d hd => hright d (hsub hd))
      fun d hd r hr => hunifier d (hsub hd) r (hsub' hr)
    rw [afterRecords_concat]
    refine forall_has_record (P := (IsAnswer · g)) (List.mem_map.mpr ⟨e, hmem, rfl⟩)
      (isEquivalent_refl e.1)
      (fun d hd => ⟨hsub' (ih d hd).1, (ih d hd).2⟩) fun r u hr heq hu a ha => ?_
    obtain ⟨g₁, h₁, hq⟩ := hmade e hmem
    obtain ⟨d, hd, rfl⟩ := List.mem_map.mp hr
    obtain ⟨g₂, h₂, hr'⟩ := hmade d hd
    exact (hunifier e hmem _ hr heq u hu).isAnswer_relabel hg hq hr'
      (label?_eq_of_isEquivalent hg h₂ h₁ hr' hq heq).symm (hright e hmem a ha)

/-- A cache that was given right answers gives every query right answers, if the unifiers of
equivalent queries with each other are renamings. -/
theorem isAnswer_of_get? (hg : g.Reachable) (hmade : ∀ e ∈ history, e.1.MadeFor g)
    (hright : ∀ e ∈ history, ∀ a ∈ e.2, e.1.IsAnswer g a.binding)
    (hunifier : ∀ e ∈ history, Unambiguous (history.map (·.1)) e.1) (hq : q.MadeFor g)
    (hread : Unambiguous (history.map (·.1)) q) {as : List Answer}
    (has : (afterRecords history).get? q = some as) : ∀ a ∈ as, q.IsAnswer g a.binding := by
  intro a ha
  obtain ⟨e, u, w, he, hu, hw, b, hb, hab⟩ := serves_iff.mp ⟨as, has, a, ha, rfl⟩
  have heq : e.query.isEquivalent q = true := by simpa using List.find?_some he
  obtain ⟨hrecorded, hall⟩ := isAnswer_of_has hg.wellFormed hmade hright hunifier e
    (List.mem_of_find?_eq_some he)
  obtain ⟨d, hd, hde⟩ := List.mem_map.mp hrecorded
  obtain ⟨g₁, h₁, hq⟩ := hq
  obtain ⟨g₂, h₂, hr⟩ := hmade d hd
  rw [hde] at hr
  have hrenames := hread e.query hrecorded heq u hu
  obtain ⟨w', hw', hback⟩ := exists_inverse hq.central.1 hu hrenames.injective
  obtain rfl := Except.ok.inj (hw'.symm.trans hw)
  rw [← hab]
  exact (hrenames.symm_of_leftInverse hq hback).isAnswer_relabel hg.wellFormed hr hq
    (label?_eq_of_isEquivalent hg.wellFormed h₂ h₁ hr hq heq) (hall b hb)

end AnswerCache

namespace Pairing

open AtomicQuery AnswerCache

theorem reachable : transaction.graph.Reachable :=
  ⟨_, rfl⟩

theorem madeFor {x y above below : String} (h : HasQuery x y above below) :
    (query x y above below).MadeFor transaction.graph := by
  obtain ⟨s, hd, hq⟩ := h
  exact ⟨_, ⟨[], rfl⟩, Decomposition.decomposed_of_mem_queries hd hq⟩

theorem hasQuery_straight : HasQuery "x" "y" "x" "y" :=
  hasQuery (by decide +kernel) (by decide +kernel)

/-- Five is over three and two is under nine. -/
def binding (x y : String) : Binding :=
  .ofList [(.named x, ⟨"V7"⟩), (.named y, ⟨"V8"⟩)]

/-- The answer that is found in the graph is right. -/
theorem isAnswer_found : (found "x" "y" "x" "y").map Answer.binding = [binding "x" "y"] ∧
    (query "x" "y" "x" "y").IsAnswer transaction.graph (binding "x" "y") := by
  have hok : (((Resolve.lookup setting (query "x" "y" "x" "y")).run.run
      { programs := .ofCapacity 1 }).run { vars := 9 }).1.1.isOk = true ∧
      (found "x" "y" "x" "y").map Answer.binding = [binding "x" "y"] := by decide +kernel
  obtain ⟨hok, hfound⟩ := hok
  obtain ⟨s, hd, hq⟩ := hasQuery_straight
  have hdecomposed := Decomposition.decomposed_of_mem_queries hd hq
  have hkeeps : Knowledge.KeepsPlansOf { programs := .ofCapacity 1 } (query "x" "y" "x" "y") :=
    fun e he => nomatch he
  obtain ⟨ms, -, hms, hmap⟩ := Resolve.matches_of_gives_lookup reachable hdecomposed.plain hkeeps
    (freshFrom hasQuery_straight (by decide +kernel)) (Resolve.gives_resultOr hok [])
  obtain ⟨m, hm, hbinding⟩ := List.mem_map.mp (hmap ▸ hfound ▸ List.mem_singleton_self _)
  refine ⟨hfound, hbinding ▸ ((hms m).mp hm).2.isAnswer fun v hv => ?_⟩
  have hplayers : ∀ v ∈ (query "x" "y" "x" "y").userVars.toList,
      v ∈ (query "x" "y" "x" "y").central.players.map (·.2) := by decide +kernel
  obtain ⟨p, hp, rfl⟩ := List.mem_map.mp (hplayers v hv)
  exact (AtomicQuery.names_iff hdecomposed).mpr (.inl ⟨p, hp, .inr rfl⟩)

/-- What one record makes a cache give to an equivalent query. -/
theorem serves_afterRecords {q r : AtomicQuery} {as : List Answer} {b : Binding}
    (heq : q.isEquivalent r = true) (has : as.map Answer.binding = [b]) {b' : Binding}
    (hb : ((q.unifier q).toOption.bind fun u => (r.unifier q).toOption.bind fun u' =>
      u'.inverse.toOption.map fun w => (b.relabel u.apply).relabel w.apply) = some b') :
    (afterRecords [(q, as)]).Serves r b' := by
  obtain ⟨u, hu, hb⟩ := Option.bind_eq_some_iff.mp hb
  obtain ⟨u', hu', hb⟩ := Option.bind_eq_some_iff.mp hb
  obtain ⟨w, hw, rfl⟩ := Option.map_eq_some_iff.mp hb
  rw [Except.toOption_eq_some_iff] at hu hu' hw
  obtain ⟨a, ha, rfl⟩ := List.mem_map.mp (has ▸ List.mem_singleton_self b)
  refine serves_iff.mpr ⟨(recordIn ⟨q, {}⟩ q as).2, u', w, ?_, ?_, hw, a.binding.relabel u.apply,
    has_recordIn.mpr (.inr ⟨u, hu, a, ha, rfl⟩), rfl⟩
  · show class? ⟨[(recordIn ⟨q, {}⟩ q as).2]⟩ r = _
    rw [class?_cons, query_recordIn, if_pos heq]
  · rw [query_recordIn, hu']

/-- The unifier of `q` with `r` is a renaming. -/
def Aligned (q r : AtomicQuery) : Prop :=
  ∀ u ∈ (q.unifier r).toOption, Renames u.apply q r

instance {q r : AtomicQuery} : Decidable (Aligned q r) :=
  inferInstanceAs (Decidable (∀ u ∈ (q.unifier r).toOption, Renames u.apply q r))

theorem Aligned.unambiguous {q r : AtomicQuery} (h : Aligned q r) : Unambiguous [r] q :=
  List.forall_mem_singleton.mpr fun _ u hu => h u (Except.toOption_eq_some_iff.mpr hu)

theorem forall_mem_of_map {as : List Answer} {b : Binding} {P : Binding → Prop}
    (has : as.map Answer.binding = [b]) (hb : P b) : ∀ a ∈ as, P a.binding := by
  intro a ha
  have hmem : a.binding ∈ as.map Answer.binding := List.mem_map.mpr ⟨a, ha, rfl⟩
  rw [has, List.mem_singleton] at hmem
  rwa [hmem]

/-- With the predicates on the members in the same order the renaming is right. -/
theorem isAnswer_of_get?_aligned :
    let q := query "x" "y" "x" "y"
    let r := query "u" "v" "u" "v"
    ∃ as, (afterRecords [(q, found "x" "y" "x" "y")]).get? r = some as ∧
      (∃ a ∈ as, a.binding = binding "u" "v") ∧
      ∀ a ∈ as, r.IsAnswer transaction.graph a.binding := by
  intro q r
  have hr : HasQuery "u" "v" "u" "v" := hasQuery (by decide +kernel) (by decide +kernel)
  have heq : q.isEquivalent r = true :=
    isEquivalent_of_players (by decide +kernel) (by decide +kernel)
  obtain ⟨hfound, hanswer⟩ := isAnswer_found
  obtain ⟨as, has, hserved⟩ :=
    @serves_afterRecords q r _ _ heq hfound (binding "u" "v") (by decide +kernel)
  have hself : Aligned q q := by decide +kernel
  have hother : Aligned r q := by decide +kernel
  have hright {g : Graph} {q r : AtomicQuery} {known as : List Answer} (hg : g.Reachable)
      (hq : q.MadeFor g) (hr : r.MadeFor g) (hself : Aligned q q) (hother : Aligned r q)
      (hknown : ∀ a ∈ known, q.IsAnswer g a.binding)
      (has : (afterRecords [(q, known)]).get? r = some as) : ∀ a ∈ as, r.IsAnswer g a.binding :=
    @isAnswer_of_get? g r [(q, known)] hg (List.forall_mem_singleton.mpr hq)
      (List.forall_mem_singleton.mpr hknown) (List.forall_mem_singleton.mpr hself.unambiguous) hr
      hother.unambiguous as has
  exact ⟨as, has, hserved, hright reachable (madeFor hasQuery_straight) (madeFor hr) hself hother
    (forall_mem_of_map hfound hanswer) has⟩

/-- A variable that stands for the size two has no value over three. -/
theorem not_reads_of_two {look : Var → Option ConceptId} {v : Var} (hv : look v = some ⟨"V8"⟩) :
    ¬ Constraint.Reads transaction.graph look v ⟨.gt, .long 3⟩ := by
  have hsmall : ∀ c ∈ transaction.graph.concepts, c.id = ⟨"V8"⟩ → ∀ value ∈ c.value,
      Constraint.test ⟨.gt, .long 3⟩ value = false := by decide +kernel
  rintro ⟨c, hc, hid, value, hvalue, htest⟩
  rw [hv] at hid
  rw [hsmall c hc (Option.some.inj hid).symm value hvalue] at htest
  cases htest

/-- With the predicates on the members in the other order, an answer is renamed so that it breaks
both. -/
theorem not_isAnswer_of_get?_crossed : ¬ ∀ (g : Graph) (history : List (AtomicQuery × List Answer))
    (q : AtomicQuery) (as : List Answer), g.Reachable → (∀ e ∈ history, e.1.MadeFor g) →
    (∀ e ∈ history, ∀ a ∈ e.2, e.1.IsAnswer g a.binding) → q.MadeFor g →
    (afterRecords history).get? q = some as → ∀ a ∈ as, q.IsAnswer g a.binding := by
  intro h
  let q := query "x" "y" "x" "y"
  let r := query "u" "v" "v" "u"
  have hr : HasQuery "u" "v" "v" "u" := hasQuery (by decide +kernel) (by decide +kernel)
  have heq : q.isEquivalent r = true :=
    isEquivalent_of_players (by decide +kernel) (by decide +kernel)
  obtain ⟨hfound, hanswer⟩ := isAnswer_found
  obtain ⟨as, has, a, ha, hserved⟩ :=
    @serves_afterRecords q r _ _ heq hfound (binding "u" "v") (by decide +kernel)
  have hright {g : Graph} {q r : AtomicQuery} {known as : List Answer} (hg : g.Reachable)
      (hq : q.MadeFor g) (hr : r.MadeFor g) (hknown : ∀ a ∈ known, q.IsAnswer g a.binding)
      (has : (afterRecords [(q, known)]).get? r = some as) : ∀ a ∈ as, r.IsAnswer g a.binding :=
    h g _ r as hg (List.forall_mem_singleton.mpr hq) (List.forall_mem_singleton.mpr hknown) hr has
  have hwrong : r.IsAnswer transaction.graph (binding "u" "v") :=
    hserved ▸ hright reachable (madeFor hasQuery_straight) (madeFor hr)
      (forall_mem_of_map hfound hanswer) has a ha
  obtain ⟨look, hlook, hreads⟩ := hwrong.reads
  have huser : Var.named "v" ∈ r.userVars := SortedSet.contains_iff.mp (by decide +kernel)
  have htwo : (binding "u" "v").find? (.named "v") = some ⟨"V8"⟩ := by decide +kernel
  obtain ⟨s, hd, hr⟩ := hr
  have hdecomposed := Decomposition.decomposed_of_mem_queries hd hr
  have hdemand : (some (.value ⟨.gt, .long 3⟩), Var.named "v") ∈ r.demands := by decide +kernel
  have hdemands := ((forall_matches_iff hdecomposed).mp hreads).2.2
  exact not_reads_of_two ((hlook _ huser).trans htwo) (hdemands _ hdemand _ rfl)

end Pairing

end GraphInference
