import GraphInference.Proofs.Answer.Rightness
import GraphInference.Proofs.Unification.Distinct

/-!
# What the answer cache keeps

Answers are kept in the variables of the first query of their class (`AnswerCache.keeper`), so they go
there and come back by the unifier with that query. Recorded answers are served ever after exactly if
this round trip is possible and leads every user-defined variable back to itself
(`AnswerCache.roundTrips_iff_served`). It does wherever the unifier is a renaming, but players of
equal roles may be aligned so that there is no unifier at all.
-/

namespace GraphInference

theorem Binding.exists_of_find?_relabel {ρ : Var → Var} {b : Binding} {w : Var} {id : ConceptId}
    (h : (b.relabel ρ).find? w = some id) : ∃ v, b.find? v = some id ∧ ρ v = w := by
  have hentry : (w, id) ∈ b.entries.map fun e => (ρ e.1, e.2) := by
    rw [relabel, SortedMap.ofList, SortedMap.find?_foldl_insert, SortedMap.find?_empty,
      Option.or_none] at h
    obtain ⟨e, he, rfl⟩ := Option.map_eq_some_iff.mp h
    have hkey : compare w e.1 = .eq := by simpa using List.find?_some he
    obtain rfl := Std.LawfulEqCmp.eq_of_compare hkey
    exact List.mem_reverse.mp (List.mem_of_find?_eq_some he)
  obtain ⟨⟨v, id'⟩, he, heq⟩ := List.mem_map.mp hentry
  obtain ⟨rfl, rfl⟩ := Prod.mk.inj heq
  exact ⟨v, SortedMap.find?_eq_some_iff.mpr he, rfl⟩

/-- A renaming that is undone on the variables of a binding is undone on the binding. -/
theorem Binding.relabel_relabel {ρ τ : Var → Var} {b : Binding}
    (h : ∀ v, b.contains v = true → τ (ρ v) = v) : (b.relabel ρ).relabel τ = b := by
  have hinj (v w : Var) (hv : b.contains v = true) (hw : b.contains w = true) (heq : ρ v = ρ w) :
      v = w := by
    rw [← h v hv, ← h w hw, heq]
  have hback {w : Var} (hw : (b.relabel ρ).contains w = true) : ∃ v, b.contains v = true ∧ ρ v = w := by
    obtain ⟨id, hid⟩ := SortedMap.contains_iff_isSome.mp hw
    obtain ⟨v, hv, rfl⟩ := exists_of_find?_relabel hid
    exact ⟨v, SortedMap.contains_iff_isSome.mpr ⟨id, hv⟩, rfl⟩
  have hinj' (v w : Var) (hv : (b.relabel ρ).contains v = true) (hw : (b.relabel ρ).contains w = true)
      (heq : τ v = τ w) : v = w := by
    obtain ⟨x, hx, rfl⟩ := hback hv
    obtain ⟨y, hy, rfl⟩ := hback hw
    rw [h x hx, h y hy] at heq
    rw [heq]
  refine SortedMap.ext_find? fun v => Option.ext fun id => ?_
  rw [find?_relabel hinj']
  simp only [find?_relabel hinj]
  constructor
  · rintro ⟨_, ⟨w, hw, rfl⟩, rfl⟩
    rwa [h w (SortedMap.contains_iff_isSome.mpr ⟨id, hw⟩)]
  · intro hv
    exact ⟨ρ v, ⟨v, hv, rfl⟩, h v (SortedMap.contains_iff_isSome.mpr ⟨id, hv⟩)⟩

/-! ## Round trips -/

namespace AtomicQuery

variable {q r : AtomicQuery} {g : Graph}

/-- The unifier with `r` has an inverse that leads back to the user-defined variables. -/
def RoundTrips (q r : AtomicQuery) : Prop :=
  ∃ u w, q.unifier r = .ok u ∧ u.inverse = .ok w ∧ ∀ v ∈ q.userVars, w.apply (u.apply v) = v

/-- A unifier that is a renaming leads there and back. -/
theorem roundTrips_of_renames (hq : q.Decomposed g) {u : Unifier} (hu : q.unifier r = .ok u)
    (h : Renames u.apply q r) : q.RoundTrips r := by
  obtain ⟨w, hw, hback⟩ := exists_inverse hq.central.1 hu h.injective
  exact ⟨u, w, hu, hw, fun v hv => hback v (mem_slots_of_mem_userVars hq hv)⟩

/-- In particular there is a round trip from a query with distinct roles to every renaming of it. -/
theorem roundTrips_of_hasDistinctRoles {ρ : Var → Var} (hq : q.Decomposed g)
    (hroles : q.HasDistinctRoles) (hattached : q.IsAttached) (h : Renames ρ q r) :
    q.RoundTrips r := by
  obtain ⟨u, hu, happly⟩ := exists_unifier_of_renames h hq.central.1 hroles hattached
  obtain ⟨w, hw, hback⟩ := exists_inverse hq.central.1 hu fun v hv x hx heq =>
    h.injective v hv x hx (by rw [← happly v hv, ← happly x hx, heq])
  exact ⟨u, w, hu, hw, fun v hv => hback v (mem_slots_of_mem_userVars hq hv)⟩

/-- A binding that tells the user-defined variables apart. -/
def namesakes (q : AtomicQuery) : Binding :=
  .ofList (q.userVars.toList.map fun v => (v, ⟨v.name⟩))

theorem find?_namesakes {v : Var} {id : ConceptId} :
    q.namesakes.find? v = some id ↔ v ∈ q.userVars ∧ id = ⟨v.name⟩ := by
  have hmem (v : Var) (id : ConceptId) : (v, id) ∈ q.userVars.toList.map (fun v => (v, ⟨v.name⟩)) ↔
      v ∈ q.userVars ∧ id = ⟨v.name⟩ := by
    simp only [List.mem_map, Prod.mk.injEq]
    constructor
    · rintro ⟨v, hv, rfl, rfl⟩
      exact ⟨hv, rfl⟩
    · rintro ⟨hv, rfl⟩
      exact ⟨v, hv, rfl, rfl⟩
  rw [namesakes, SortedMap.find?_ofList, hmem]
  intro v id id' h h'
  rw [((hmem v id).mp h).2, ((hmem v id').mp h').2]

theorem contains_namesakes {v : Var} : q.namesakes.contains v = true ↔ v ∈ q.userVars := by
  rw [SortedMap.contains_iff_isSome]
  simp only [find?_namesakes]
  exact ⟨fun ⟨_, hv, _⟩ => hv, fun hv => ⟨_, hv, rfl⟩⟩

/-- A renaming there and back that keeps the binding leads every variable back. -/
theorem eq_of_relabel_namesakes {ρ τ : Var → Var}
    (h : (q.namesakes.relabel ρ).relabel τ = q.namesakes) : ∀ v ∈ q.userVars, τ (ρ v) = v := by
  intro v hv
  have hfind : q.namesakes.find? v = some ⟨v.name⟩ := find?_namesakes.mpr ⟨hv, rfl⟩
  rw [← h] at hfind
  obtain ⟨_, hmid, rfl⟩ := Binding.exists_of_find?_relabel hfind
  obtain ⟨w, hw, rfl⟩ := Binding.exists_of_find?_relabel hmid
  obtain ⟨hw, hname⟩ := find?_namesakes.mp hw
  have huser : ∀ x ∈ q.userVars, x.userDefined = true := fun x hx => (SortedSet.mem_filter.mp hx).2
  have heq : τ (ρ w) = w := by
    refine Var.mk.injEq .. ▸ ⟨congrArg ConceptId.text hname, ?_⟩
    rw [huser _ hv, huser w hw]
  rw [heq, heq]

end AtomicQuery

/-! ## Records -/

namespace AnswerCache

open AtomicQuery

variable {c : AnswerCache} {q r : AtomicQuery} {as : List Answer}

theorem grows_foldl_record (later : List (AtomicQuery × List Answer)) (c : AnswerCache) :
    c.Grows (later.foldl (fun c e => (c.record e.1 e.2).2) c) := by
  induction later generalizing c with
  | nil => exact .refl c
  | cons e later ih => exact grows_record.trans (ih _)

/-- Answers that can make the round trip are served after they were recorded, whatever is recorded
later. -/
theorem get?_of_roundTrips (h : q.RoundTrips (c.keeper q))
    (has : ∀ a ∈ as, ∀ v, a.binding.contains v = true ↔ v ∈ q.userVars)
    (later : List (AtomicQuery × List Answer)) :
    ∃ got, (later.foldl (fun c e => (c.record e.1 e.2).2) (c.record q as).2).get? q = some got ∧
      ∀ a ∈ as, ∃ b ∈ got, b.binding = a.binding := by
  obtain ⟨u, w, hu, hw, hback⟩ := h
  obtain ⟨e, he, hquery, hhas⟩ := exists_class?_record c q as
  obtain ⟨e', he', hquery', hmore⟩ := grows_foldl_record later _ q e he
  have hu' : q.unifier e'.query = .ok u := by rw [hquery', hquery, hu]
  refine ⟨_, get?_eq_some_iff.mpr ⟨e', u, w, he', hu', hw, rfl⟩, fun a ha => ?_⟩
  obtain ⟨d, hd, hbinding⟩ := hmore _ ((hhas _).mpr (.inr ⟨u, by rw [hquery, hu], a, ha, rfl⟩))
  refine ⟨d.rename w, List.mem_map.mpr ⟨d, hd, rfl⟩, ?_⟩
  rw [Answer.binding_rename, hbinding]
  exact Binding.relabel_relabel fun v hv => hback v ((has a ha v).mp hv)

/-- The class that a record of no answers makes. -/
theorem class?_afterRecords_nil (heq : r.isEquivalent q = true) :
    ∃ e, (afterRecords [(r, [])]).class? q = some e ∧ e.query = r ∧ ∀ b, ¬ e.answers.Has b := by
  refine ⟨(recordIn ⟨r, {}⟩ r []).2, ?_, query_recordIn, fun b hb => ?_⟩
  · show class? ⟨[(recordIn ⟨r, {}⟩ r []).2]⟩ q = _
    rw [class?_cons, query_recordIn, if_pos heq]
  · rcases has_recordIn.mp hb with ⟨a, ha, -⟩ | ⟨_, -, a, ha, -⟩
    · cases ha
    · cases ha

/-- Recorded answers to `q` whose class has the first query `r` are served ever after exactly if there
is a round trip between the variables of the two. -/
theorem roundTrips_iff_served (heq : r.isEquivalent q = true) : q.RoundTrips r ↔
    ∀ (history later : List (AtomicQuery × List Answer)) (as : List Answer),
      (afterRecords history).keeper q = r →
      (∀ a ∈ as, ∀ v, a.binding.contains v = true ↔ v ∈ q.userVars) →
      ∃ got, (afterRecords (history ++ (q, as) :: later)).get? q = some got ∧
        ∀ a ∈ as, ∃ b ∈ got, b.binding = a.binding := by
  constructor
  · rintro h history later as rfl has
    have hrecords : afterRecords (history ++ (q, as) :: later) =
        later.foldl (fun c e => (c.record e.1 e.2).2) ((afterRecords history).record q as).2 := by
      rw [afterRecords, List.foldl_append, List.foldl_cons]
      rfl
    rw [hrecords]
    exact get?_of_roundTrips h has later
  · -- One answer that tells the variables apart, in a class that is empty but for it.
    intro h
    obtain ⟨e₀, he₀, hquery₀, hempty⟩ := class?_afterRecords_nil heq
    have hkeeper : (afterRecords [(r, [])]).keeper q = r := by rw [keeper, he₀]; exact hquery₀
    let a : Answer := .mk default q.namesakes .empty []
    obtain ⟨got, hgot, hserved⟩ := h [(r, [])] [] [a] hkeeper
      (List.forall_mem_singleton.mpr fun v => contains_namesakes)
    obtain ⟨b, hb, hbinding⟩ := hserved a (.head _)
    obtain ⟨e, u, w, he, hu, hw, rfl⟩ := get?_eq_some_iff.mp hgot
    obtain ⟨e₁, he₁, hquery₁, hhas⟩ := exists_class?_record (afterRecords [(r, [])]) q [a]
    obtain rfl := Option.some.inj (he.symm.trans he₁)
    rw [hquery₁, hkeeper] at hu
    obtain ⟨d, hd, rfl⟩ := List.mem_map.mp hb
    refine ⟨u, w, hu, hw, eq_of_relabel_namesakes ?_⟩
    rcases (hhas d.binding).mp ⟨d, hd, rfl⟩ with ⟨e', he', hold⟩ | ⟨u', hu', a', ha', hnew⟩
    · obtain rfl := Option.some.inj (he'.symm.trans he₀)
      exact absurd hold (hempty _)
    · rw [hquery₁, hkeeper, hu] at hu'
      obtain rfl := Except.ok.inj hu'
      obtain rfl := List.mem_singleton.mp ha'
      have hnew : q.namesakes.relabel u.apply = d.binding := hnew
      rw [hnew, ← Answer.binding_rename]
      exact hbinding

end AnswerCache

/-! ## Crossed roles -/

namespace CrossedRoles

open AtomicQuery AnswerCache

def transaction : Transaction where
  name := ""
  graph := [.relationType ⟨"pairing"⟩ [⟨"a"⟩, ⟨"b"⟩]].foldl Graph.perform {}

/-- A pairing with its players, each in a role. -/
def pattern (players : List (String × String)) : Conjunction :=
  ⟨[⟨.generated 0, [.relation (players.map fun p => ⟨some ⟨p.1⟩, .named p.2⟩),
    .isa (.label ⟨"pairing"⟩)]⟩]⟩

def query (players : List (String × String)) : AtomicQuery :=
  ((Decomposition.ofConjunction transaction (pattern players)).resultOr { vars := 1 }
    ⟨⟨[]⟩, []⟩).queries.headD default

def straight (x y : String) : AtomicQuery :=
  query [("a", x), ("a", y), ("b", x), ("b", y)]

def crossed (x y : String) : AtomicQuery :=
  query [("a", x), ("a", y), ("b", y), ("b", x)]

/-- With the players in the same order in both roles nothing is lost. -/
theorem roundTrips_iff_served_straight : (straight "p" "q").isEquivalent (straight "x" "y") = true ∧
    ∀ (history later : List (AtomicQuery × List Answer)) (as : List Answer),
      (afterRecords history).keeper (straight "x" "y") = straight "p" "q" →
      (∀ a ∈ as, ∀ v, a.binding.contains v = true ↔ v ∈ (straight "x" "y").userVars) →
      ∃ got, (afterRecords (history ++ (straight "x" "y", as) :: later)).get? (straight "x" "y") =
          some got ∧ ∀ a ∈ as, ∃ b ∈ got, b.binding = a.binding := by
  have heq : (straight "p" "q").isEquivalent (straight "x" "y") = true :=
    isEquivalent_of_players (by decide +kernel) (by decide +kernel)
  refine ⟨heq, (roundTrips_iff_served heq).mp ?_⟩
  have hinverse : ∃ u ∈ ((straight "x" "y").unifier (straight "p" "q")).toOption,
      ∃ w ∈ u.inverse.toOption, ∀ v ∈ (straight "x" "y").userVars.toList,
        w.apply (u.apply v) = v := by decide +kernel
  obtain ⟨u, hu, w, hw, hback⟩ := hinverse
  exact ⟨u, w, Except.toOption_eq_some_iff.mp hu, Except.toOption_eq_some_iff.mp hw, hback⟩

/-- An answer to the crossed query is lost in the class of the straight one. -/
theorem not_served_crossed : ¬ ∀ (history later : List (AtomicQuery × List Answer)) (q : AtomicQuery)
    (as : List Answer), (∀ a ∈ as, ∀ v, a.binding.contains v = true ↔ v ∈ q.userVars) →
      ∃ got, (afterRecords (history ++ (q, as) :: later)).get? q = some got ∧
        ∀ a ∈ as, ∃ b ∈ got, b.binding = a.binding := by
  intro h
  let a : Answer := .mk default (.ofList [(.named "x", ⟨"V4"⟩), (.named "y", ⟨"V5"⟩)]) .empty []
  have hdomain : a.binding.keys = (crossed "x" "y").userVars.toList := by decide +kernel
  have heq : (straight "p" "q").isEquivalent (crossed "x" "y") = true :=
    isEquivalent_of_players (by decide +kernel) (by decide +kernel)
  have hconflict : ((crossed "x" "y").unifier (straight "p" "q")).toOption.isNone = true := by
    decide +kernel
  obtain ⟨got, hgot, -⟩ := h [(straight "p" "q", [])] [] (crossed "x" "y") [a]
    (List.forall_mem_singleton.mpr fun v => by
      rw [← SortedMap.mem_keys_iff, hdomain]
      rfl)
  obtain ⟨e, u, w, he, hu, -⟩ := get?_eq_some_iff.mp hgot
  obtain ⟨e₀, he₀, hquery₀, -⟩ := class?_afterRecords_nil heq
  obtain ⟨e₁, he₁, hquery₁, -⟩ :=
    exists_class?_record (afterRecords [(straight "p" "q", [])]) (crossed "x" "y") [a]
  obtain rfl := Option.some.inj (he₁.symm.trans he)
  rw [hquery₁, keeper, he₀, Option.map_some, Option.getD_some, hquery₀] at hu
  rw [hu] at hconflict
  cases hconflict

end CrossedRoles

end GraphInference
