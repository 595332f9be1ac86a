import GraphInference.Proofs.Pattern.Refusal
import GraphInference.Proofs.Query.Reading
import GraphInference.Proofs.Traversal.Transparency

/-!
# Predicates found and predicates checked

A look-up of a query finds the concepts for its predicates along with those for its central atom; an answer
that follows from a rule is checked for the predicates afterwards. A concept that a binding has for the
variable of a predicate passes the check exactly if the predicate's statement holds of it
(`AtomicQuery.satisfies_iff_matches`), and so a match of the query is a match of the central atom alone
that is admitted. Whatever plans the two get, looking up both finds the same
(`AtomicQuery.lookUp_iff_admits`).
-/

namespace GraphInference

open Attempt

/-! ## Concepts of matches -/

section Holding

variable {g : Graph} {look : Var → Option ConceptId} {x v : Var} {id : ConceptId}

/-- What a property says it says of concepts of the graph. -/
theorem Property.Reads.holds {p : Property} (hg : g.WellFormed) (h : p.Reads g look x)
    (hv : p.Names x v) (hid : look v = some id) : g.Holds id := by
  have hof {i : ConceptId} (hi : look v = some i) (hholds : g.Holds i) : g.Holds id :=
    Option.some.inj (hi.symm.trans hid) ▸ hholds
  cases p with
  | isa t =>
    cases t with
    | label l =>
      obtain ⟨i, t, -, -, hisA, hi⟩ := h
      exact hof (hv ▸ hi) (hg.isA_holds hisA).1.holds
    | var w =>
      obtain ⟨i, t, hisA, hi, ht⟩ := h
      rcases hv with rfl | rfl
      · exact hof hi (hg.isA_holds hisA).1.holds
      · exact hof ht (hg.isA_holds hisA).2.holds
  | relation ps =>
    obtain ⟨cs, -, hcs⟩ := h
    obtain ⟨p, hp, hv⟩ := hv
    obtain ⟨c, -, hc⟩ := exists_of_forall₂_of_mem hcs hp
    obtain ⟨e, he⟩ := hc.plays
    rcases hv with rfl | rfl
    · exact hof hc.relation (hg.plays_holds he).1.holds
    · exact hof hc.player (hg.plays_holds he).2.2
  | has owned value p =>
    obtain ⟨⟨c, c', hc⟩, -⟩ := h
    rcases hv with rfl | rfl
    · obtain ⟨e, he⟩ := hc.ownerPlays
      exact hof hc.owner (hg.plays_holds he).2.2
    · obtain ⟨e, he⟩ := hc.valuePlays
      exact hof hc.value (hg.plays_holds he).2.2
  | value p =>
    obtain ⟨c, hc, hx, -⟩ := h
    exact hof (hv ▸ hx) ⟨c, hc, rfl⟩
  | identity i => exact hof (hv ▸ h.2) h.1

theorem Conjunction.IsMatch.holds {c : Conjunction} {m : Binding} (hg : g.WellFormed)
    (h : c.IsMatch g m) (hid : m.find? v = some id) : g.Holds id := by
  obtain ⟨s, hs, p, hp, hv⟩ := (h.domain v).mp (SortedMap.contains_iff_isSome.mpr ⟨id, hid⟩)
  exact (h.reads s hs p hp).holds hg hv hid

end Holding

/-! ## Looking up -/

namespace Conjunction

/-- What is found of the pattern with a planner that has planned nothing before. -/
def lookUp (c : Conjunction) (g : Graph) (capacity : Nat) (s : Supply) :
    Except InferenceError (List Binding) :=
  ((ProgramCache.plan c (.ofCapacity capacity)).run s).1.1.bind fun p => p.execute g .empty

variable {c : Conjunction} {g : Graph} {capacity : Nat} {s : Supply}

theorem lookUp_eq : c.lookUp g capacity s =
    ((Planner.planWithBound c .empty).run s).1.bind fun p => p.execute g .empty := by
  rw [lookUp, ProgramCache.run_plan]
  rfl

/-- A pattern is refused, or its matches are found. -/
theorem lookUp_cases (hg : g.Reachable) (hfresh : c.FreshFrom s.vars) (capacity : Nat) :
    (∃ bs p t, c.lookUp g capacity s = .ok bs ∧ (Planner.planWithBound c .empty).Gives s p t ∧
        p.execute g .empty = .ok bs ∧ c.statements.find? Statement.isVoid = none) ∨
      ∃ e, c.lookUp g capacity s = .error e ∧ c.RefusedFor e := by
  rcases Planner.gives_or_refused c s with ⟨p, t, hp, hvoid⟩ | ⟨e, t, he, hrefused⟩
  · obtain ⟨bs, hexecute, -⟩ := execute_plan hg hfresh hp
    refine .inl ⟨bs, p, t, ?_, hp, hexecute, hvoid⟩
    rw [lookUp_eq, hp]
    exact hexecute
  · refine .inr ⟨e, ?_, hrefused⟩
    rw [lookUp_eq, he]
    rfl

end Conjunction

/-! ## Admission -/

namespace AtomicQuery

variable {t : Transaction} {q : AtomicQuery} {b m : Binding} {g : Graph}

theorem admits_eq_ok_iff : q.admits t b = .ok true ↔
    ∀ p ∈ q.predicates, ∃ id, b.find? p.var = some id ∧ satisfies t id p = .ok true := by
  have hall (ps : List Atom) : admitsAll t b ps = .ok true ↔
      ∀ p ∈ ps, ∃ id, b.find? p.var = some id ∧ satisfies t id p = .ok true := by
    induction ps with
    | nil => simp [admitsAll]
    | cons p ps ih =>
      rw [List.forall_mem_cons, ← ih, admitsAll]
      cases hp : b.find? p.var with
      | none => simp
      | some id =>
        simp only [Option.some.injEq, exists_eq_left']
        cases hsat : satisfies t id p with
        | error e =>
          refine iff_of_false (fun h => ?_) fun h => ?_
          · cases h
          · cases h.1
        | ok holds =>
          cases holds with
          | true => exact (and_iff_right rfl).symm
          | false =>
            refine iff_of_false (fun h => ?_) fun h => ?_
            · cases h
            · cases h.1
  exact hall q.predicates

theorem fetch_eq (hopen : t.isOpen = true) (id : ConceptId) : t.fetch id = .ok (t.graph.concept? id) := by
  rw [Transaction.fetch, Transaction.ensureOpen, if_pos hopen]
  rfl

/-- A transaction that is open decides of every concept whether it satisfies a predicate. -/
theorem exists_satisfies (hopen : t.isOpen = true) (id : ConceptId) (p : Atom) :
    ∃ holds, satisfies t id p = .ok holds := by
  cases p with
  | value p =>
    refine ⟨((t.graph.concept? id).bind (·.value)).any p.constraint.test, ?_⟩
    rw [satisfies, fetch_eq hopen]
    rfl
  | _ => exact ⟨_, rfl⟩

theorem exists_admits (hopen : t.isOpen = true) (q : AtomicQuery) (b : Binding) :
    ∃ holds, q.admits t b = .ok holds := by
  have hall (ps : List Atom) : ∃ holds, admitsAll t b ps = .ok holds := by
    induction ps with
    | nil => exact ⟨true, rfl⟩
    | cons p ps ih =>
      obtain ⟨holds, ih⟩ := ih
      unfold admitsAll
      split
      · exact ⟨false, rfl⟩
      · next id hid =>
        obtain ⟨satisfied, hsatisfies⟩ := exists_satisfies hopen id p
        rw [hsatisfies]
        cases satisfied with
        | false => exact ⟨false, rfl⟩
        | true => exact ⟨holds, ih⟩
  exact hall q.predicates

/-- A concept of the graph satisfies a predicate exactly if the predicate holds of it. -/
theorem satisfies_iff_matches (hg : t.graph.WellFormed) (hopen : t.isOpen = true) {p : Atom}
    (hp : p.isPredicate = true) {look : Var → Option ConceptId} {id : ConceptId}
    (hid : look p.var = some id) (hholds : t.graph.Holds id) :
    satisfies t id p = .ok true ↔ p.Matches t.graph look := by
  have hsome {i : ConceptId} : look p.var = some i ↔ i = id := by
    rw [hid, Option.some.injEq, eq_comm]
  cases p with
  | isa | relation => cases hp
  | identity p =>
    show Except.ok (decide (p.id = id)) = .ok true ↔ t.graph.Holds p.id ∧ look p.var = some p.id
    rw [show look p.var = some p.id ↔ p.id = id from hsome, Except.ok.injEq, decide_eq_true_eq]
    exact ⟨fun h => ⟨h ▸ hholds, h⟩, And.right⟩
  | substitution p =>
    show Except.ok (decide (p.value = id.text)) = .ok true ↔
      t.graph.Holds ⟨p.value⟩ ∧ look p.var = some ⟨p.value⟩
    have htext : (⟨p.value⟩ : ConceptId) = id ↔ p.value = id.text := by
      constructor
      · rintro rfl
        rfl
      · rintro h
        rw [h]
    rw [show look p.var = some ⟨p.value⟩ ↔ _ from hsome, htext, Except.ok.injEq, decide_eq_true_eq]
    exact ⟨fun h => ⟨htext.mpr h ▸ hholds, h⟩, And.right⟩
  | value p =>
    obtain ⟨c, hc, rfl⟩ := hholds
    have hfetch : satisfies t c.id (.value p) = .ok (c.value.any p.constraint.test) := by
      rw [satisfies, fetch_eq hopen, hg.concept?_id hc]
      rfl
    rw [hfetch, Except.ok.injEq, Option.any_eq_true]
    constructor
    · rintro ⟨value, hvalue, htest⟩
      exact ⟨c, hc, hid, value, hvalue, htest⟩
    · rintro ⟨d, hd, hlook, value, hvalue, htest⟩
      obtain rfl := hg.eq_of_id hd hc (hsome.mp hlook)
      exact ⟨value, hvalue, htest⟩

/-! ## The query and its central atom -/

/-- The statements of the central atom alone. -/
def centralPattern (q : AtomicQuery) : Conjunction :=
  ⟨q.central.toStatements⟩

/-- All predicates are on variables that the statements of the central atom name. -/
def Anchored (q : AtomicQuery) : Prop :=
  ∀ p ∈ q.predicates, p.isPredicate = true ∧ q.centralPattern.Names p.var

/-- The supply has generated all of the query's variables that are generated. -/
def Predates (q : AtomicQuery) (s : Supply) : Prop :=
  ∀ k, s.vars ≤ k → ¬ q.toConjunction.Names (.generated k) ∧ .generated k ∉ q.vars

theorem Anchored.plain (hq : q.Anchored) {p : Atom} (hp : p ∈ q.predicates) : p.Plain := by
  intro c hc
  have hpredicate := (hq p hp).1
  cases p with
  | isa | relation => cases hpredicate
  | _ => cases hc

theorem statements_toConjunction (q : AtomicQuery) : q.toConjunction.statements =
    q.centralPattern.statements ++ q.predicates.flatMap Atom.toStatements :=
  List.flatMap_cons

/-- The predicates name no variable that the central atom does not name. -/
theorem Anchored.names_iff (hq : q.Anchored) {v : Var} :
    q.toConjunction.Names v ↔ q.centralPattern.Names v := by
  unfold Conjunction.Names
  rw [statements_toConjunction]
  constructor
  · rintro ⟨s, hs, hv⟩
    rcases List.mem_append.mp hs with hs | hs
    · exact ⟨s, hs, hv⟩
    · obtain ⟨p, hp, hs⟩ := List.mem_flatMap.mp hs
      have hnames : p.Names v := (hq.plain hp).exists_names_iff.mp ⟨s, hs, hv⟩
      obtain ⟨hpredicate, hcentral⟩ := hq p hp
      cases p with
      | isa | relation => cases hpredicate
      | _ => exact hnames ▸ hcentral
  · rintro ⟨s, hs, hv⟩
    exact ⟨s, List.mem_append_left _ hs, hv⟩

theorem Anchored.reads_iff (hq : q.Anchored) {look : Var → Option ConceptId} :
    q.toConjunction.Reads g look ↔
      q.centralPattern.Reads g look ∧ ∀ p ∈ q.predicates, p.Matches g look := by
  unfold Conjunction.Reads
  rw [statements_toConjunction, List.forall_mem_append]
  refine and_congr_right fun _ => ?_
  constructor
  · intro h p hp
    exact (hq.plain hp).forall_reads_iff.mp fun s hs => h s (List.mem_flatMap.mpr ⟨p, hp, hs⟩)
  · intro h s hs
    obtain ⟨p, hp, hs⟩ := List.mem_flatMap.mp hs
    exact (hq.plain hp).forall_reads_iff.mpr (h p hp) s hs

/-- A match of the query is a match of the central atom of which the predicates hold. -/
theorem Anchored.isMatch_iff (hq : q.Anchored) : q.toConjunction.IsMatch g m ↔
    q.centralPattern.IsMatch g m ∧ ∀ p ∈ q.predicates, p.Matches g m.find? := by
  constructor
  · rintro ⟨hdomain, hreads⟩
    obtain ⟨hcentral, hpredicates⟩ := hq.reads_iff.mp hreads
    exact ⟨⟨fun v => (hdomain v).trans hq.names_iff, hcentral⟩, hpredicates⟩
  · rintro ⟨⟨hdomain, hcentral⟩, hpredicates⟩
    exact ⟨fun v => (hdomain v).trans hq.names_iff.symm, hq.reads_iff.mpr ⟨hcentral, hpredicates⟩⟩

/-- Predicates make fragment sets, so that only the central atom can be what a query is refused for. -/
theorem Anchored.find?_isVoid (hq : q.Anchored) :
    q.toConjunction.statements.find? Statement.isVoid =
      q.centralPattern.statements.find? Statement.isVoid := by
  have hnone : (q.predicates.flatMap Atom.toStatements).find? Statement.isVoid = none := by
    refine List.find?_eq_none.mpr fun s hs => ?_
    obtain ⟨p, hp, hs⟩ := List.mem_flatMap.mp hs
    have hpredicate := (hq p hp).1
    cases p with
    | isa | relation => cases hpredicate
    | _ =>
      obtain rfl := List.mem_singleton.mp hs
      exact Bool.false_ne_true
  rw [statements_toConjunction, List.find?_append, hnone, Option.or_none]

theorem Anchored.refusedFor_iff (hq : q.Anchored) {e : InferenceError} :
    q.toConjunction.RefusedFor e ↔ q.centralPattern.RefusedFor e := by
  unfold Conjunction.RefusedFor
  rw [hq.find?_isVoid]

/-- Admission decides of a match of the central atom whether the predicates hold of it. -/
theorem Anchored.admits_iff (hq : q.Anchored) (hg : t.graph.WellFormed) (hopen : t.isOpen = true)
    (hm : q.centralPattern.IsMatch t.graph m)
    (hb : ∀ p ∈ q.predicates, b.find? p.var = m.find? p.var) :
    q.admits t b = .ok true ↔ ∀ p ∈ q.predicates, p.Matches t.graph m.find? := by
  rw [admits_eq_ok_iff]
  refine forall₂_congr fun p hp => ?_
  obtain ⟨hpredicate, hnames⟩ := hq p hp
  obtain ⟨id, hid⟩ := SortedMap.contains_iff_isSome.mp ((hm.domain p.var).mpr hnames)
  have hsatisfies := satisfies_iff_matches hg hopen hpredicate hid (hm.holds hg hid)
  rw [hb p hp, hid, ← hsatisfies]
  simp only [Option.some.injEq, exists_eq_left']

section Supplies

variable {s s' : Supply}

theorem Predates.contains_eq_false (hs : q.Predates s) :
    ∀ k, s.vars ≤ k → q.vars.contains (.generated k) = false := by
  intro k hk
  rw [← Bool.not_eq_true, SortedSet.contains_iff]
  exact (hs k hk).2

theorem Predates.freshFrom (hs : q.Predates s) : q.toConjunction.FreshFrom s.vars :=
  fun k hk => (hs k hk).1

theorem Predates.freshFrom_central (hs : q.Predates s) (hq : q.Anchored) :
    q.centralPattern.FreshFrom s.vars :=
  fun k hk => mt hq.names_iff.mpr (hs k hk).1

/-- What plans of the query and of the central atom find of the query's variables differs by what the
query does not admit. -/
theorem Anchored.mem_restrict_iff (hq : q.Anchored) (hg : t.graph.Reachable) (hopen : t.isOpen = true)
    (hs : q.Predates s) (hs' : q.Predates s') {p p' : Program} {u u' : Supply} {bs bs' : List Binding}
    (hp : (Planner.planWithBound q.toConjunction .empty).Gives s p u)
    (hp' : (Planner.planWithBound q.centralPattern .empty).Gives s' p' u')
    (hexecute : p.execute t.graph .empty = .ok bs) (hexecute' : p'.execute t.graph .empty = .ok bs') :
    b ∈ bs.map (·.restrict q.vars.contains) ↔
      ∃ b' ∈ bs', q.admits t b' = .ok true ∧ b'.restrict q.vars.contains = b := by
  obtain ⟨ms, hms, hfound⟩ :=
    Conjunction.exists_execute_restrict hg hs.freshFrom hp hs.contains_eq_false
  obtain rfl := Except.ok.inj (hms.symm.trans hexecute)
  obtain ⟨ms', hms', hsound, hcomplete⟩ :=
    Conjunction.execute_plan hg (hs'.freshFrom_central hq) hp'
  obtain rfl := Except.ok.inj (hms'.symm.trans hexecute')
  -- admission reads variables that the central atom names, and none of these is generated for its plan
  have hvar {b' m : Binding}
      (hsame : ∀ v, ¬ FragmentSet.Hidden s'.vars u'.vars v → b'.find? v = m.find? v) :
      ∀ p ∈ q.predicates, b'.find? p.var = m.find? p.var := by
    intro p hp
    refine hsame p.var ?_
    rintro ⟨k, hk, -, hvar⟩
    exact hs'.freshFrom_central hq k hk (hvar ▸ (hq p hp).2)
  rw [hfound]
  constructor
  · rintro ⟨m, hm, rfl⟩
    obtain ⟨hcentral, hpredicates⟩ := hq.isMatch_iff.mp hm
    obtain ⟨b', hb', hsame⟩ := hcomplete m hcentral
    exact ⟨b', hb', (hq.admits_iff hg.wellFormed hopen hcentral (hvar hsame)).mpr hpredicates,
      Conjunction.restrict_eq_of_hidden hs'.contains_eq_false hsame⟩
  · rintro ⟨b', hb', hadmits, rfl⟩
    obtain ⟨m, hcentral, hsame⟩ := hsound b' hb'
    have hpredicates := (hq.admits_iff hg.wellFormed hopen hcentral (hvar hsame)).mp hadmits
    exact ⟨m, hq.isMatch_iff.mpr ⟨hcentral, hpredicates⟩,
      (Conjunction.restrict_eq_of_hidden hs'.contains_eq_false hsame).symm⟩

/-- Looking up the query finds what looking up the central atom finds and the query admits, of all the
query's variables. Neither is refused without the other, and then both for the same reason. -/
theorem lookUp_iff_admits (hg : t.graph.Reachable) (hopen : t.isOpen = true) (hq : q.Anchored)
    (hs : q.Predates s) (hs' : q.Predates s') (capacity capacity' : Nat) :
    match q.toConjunction.lookUp t.graph capacity s,
      q.centralPattern.lookUp t.graph capacity' s' with
    | .ok bs, .ok bs' => (∀ b ∈ bs', ∃ holds, q.admits t b = .ok holds) ∧
        ∀ b, b ∈ bs.map (·.restrict q.vars.contains) ↔
          ∃ b' ∈ bs', q.admits t b' = .ok true ∧ b'.restrict q.vars.contains = b
    | .error e, .error e' => e = e'
    | _, _ => False := by
  rcases Conjunction.lookUp_cases hg hs.freshFrom capacity with
      ⟨bs, p, u, hbs, hp, hexecute, hvoid⟩ | ⟨e, he, hrefused⟩ <;>
    rcases Conjunction.lookUp_cases hg (hs'.freshFrom_central hq) capacity' with
      ⟨bs', p', u', hbs', hp', hexecute', hvoid'⟩ | ⟨e', he', hrefused'⟩
  · rw [hbs, hbs']
    exact ⟨fun b _ => exists_admits hopen q b,
      fun b => hq.mem_restrict_iff hg hopen hs hs' hp hp' hexecute hexecute'⟩
  · obtain ⟨st, hst, -⟩ := hrefused'
    rw [← hq.find?_isVoid, hvoid] at hst
    cases hst
  · obtain ⟨st, hst, -⟩ := hrefused
    rw [hq.find?_isVoid, hvoid'] at hst
    cases hst
  · rw [he, he']
    exact (hq.refusedFor_iff.mp hrefused).unique hrefused'

end Supplies

end AtomicQuery

/-! ## Predicates of each kind -/

namespace TwoNames

/-- Two names, "Bob" and "Ann". -/
def graph : Graph :=
  [.attributeType ⟨"name"⟩, .attr ⟨"name"⟩ (.string "Bob"), .attr ⟨"name"⟩ (.string "Ann")].foldl
    Graph.perform {}

/-- `$x isa $t; $x val "Bob"; $x id "V5";` with the concept of `$x` fixed to `V5` besides. -/
def query : AtomicQuery where
  id := default
  central := .isa { var := .named "x", typeVar := .named "t", typePredicate := none }
  predicates := [.value ⟨.named "x", .eq (.string "Bob"), none⟩, .identity ⟨.named "x", ⟨"V5"⟩, none⟩,
    .substitution ⟨.named "x", "V5", none⟩]

theorem anchored_query : query.Anchored := by
  have hnames : query.centralPattern.Names (.named "x") :=
    ⟨_, .head _, _, .head _, .inl rfl⟩
  intro p hp
  simp only [query, List.mem_cons, List.not_mem_nil, or_false] at hp
  rcases hp with rfl | rfl | rfl
  · exact ⟨rfl, hnames⟩
  · exact ⟨rfl, hnames⟩
  · exact ⟨rfl, hnames⟩

theorem predates_query (s : Supply) : query.Predates s := by
  intro k hk
  constructor
  · intro h
    obtain ⟨st, hst, p, hp, hv⟩ := anchored_query.names_iff.mp h
    obtain rfl := List.mem_singleton.mp hst
    obtain rfl := List.mem_singleton.mp hp
    exact hv.elim (Var.generated_ne_named k _) (Var.generated_ne_named k _)
  · have hvars : ∀ v ∈ query.vars, v = .named "x" ∨ v = .named "t" := by
      decide +kernel
    exact fun h => (hvars _ h).elim (Var.generated_ne_named k _) (Var.generated_ne_named k _)

/-- Looking up the name differs from looking up all names by what is not admitted. -/
theorem lookUp_iff_admits_bob : graph.Reachable ∧ query.Anchored ∧ query.Predates {} ∧
    match query.toConjunction.lookUp graph 1 {}, query.centralPattern.lookUp graph 1 {} with
    | .ok bs, .ok bs' => (∀ b ∈ bs', ∃ holds, query.admits ⟨"", graph, true⟩ b = .ok holds) ∧
        ∀ b, b ∈ bs.map (·.restrict query.vars.contains) ↔
          ∃ b' ∈ bs', query.admits ⟨"", graph, true⟩ b' = .ok true ∧
            b'.restrict query.vars.contains = b
    | .error e, .error e' => e = e'
    | _, _ => False :=
  ⟨⟨_, rfl⟩, anchored_query, predates_query {}, AtomicQuery.lookUp_iff_admits
    (t := ⟨"", graph, true⟩) ⟨_, rfl⟩ rfl anchored_query (predates_query {}) (predates_query {}) 1 1⟩

/-- Of two names the one is found. -/
example :
    (query.toConjunction.lookUp graph 1 {}).toOption.map List.length = some 1 ∧
      (query.centralPattern.lookUp graph 1 {}).toOption.map List.length = some 2 := by
  decide +kernel

end TwoNames

end GraphInference
