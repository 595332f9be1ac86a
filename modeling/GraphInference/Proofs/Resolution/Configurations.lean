import GraphInference.Proofs.Resolution.FurtherRules

/-!
# Other bounds and policies

What follows depends on the configuration only by the queries to which rules are applied, and the more these
are, the more follows (`Setting.Entails.of_expands`). So a reasoner that comes to no bound finds what one of
other bounds finds, or one that applies rules to fewer queries: `Reasoner.exists_answers_of_bounds` and
`Reasoner.exists_nested_answers`. What is looked up it finds at any bound. At a bound more rounds or more
rules may lose answers, since a round that adds nothing ends them, and this depends on what the nested
streams had found when they were cut short.
-/

namespace GraphInference

open AtomicQuery Decomposition Resolve

namespace Setting

variable {s : Setting} {config : Config} {queries : List AtomicQuery} {q : AtomicQuery} {b : Binding}
  {c : Conjunction} {d : DecomposedQuery} {k k' : Knowledge} {t t' : Supply} {as : List Answer}

/-! ## What follows under another configuration -/

/-- Where rules are applied to more queries, more follows. -/
theorem Entails.of_expands (hexpands : ∀ q, s.Expands q → ({ s with config } : Setting).Expands q)
    (h : s.Entails q b) : ({ s with config } : Setting).Entails q b := by
  refine entails_le (I := ({ s with config } : Setting).Entails) (fun q b hb => entails_iff.mpr ?_) h
  rcases hb with hfound | ⟨hexpand, id, u, r, ρ, hid, hr, hjoins, hyields⟩
  · exact .inl hfound
  · exact .inr ⟨hexpands q hexpand, id, u, r, ρ, hid, hr, hjoins, hyields.bound, hyields.admitted, hyields.eq⟩

/-- The setting without rules in use. -/
def lookingUp (s : Setting) : Setting :=
  { s with config := { s.config with reasoningEnabled := false } }

/-- The setting with rules in use under a policy. -/
def under (s : Setting) (lookupPolicy : LookupPolicy) : Setting :=
  { s with config := { s.config with reasoningEnabled := true, lookupPolicy } }

theorem untaught_lookingUp : s.lookingUp.untaught = s.untaught :=
  rfl

theorem untaught_under {p : LookupPolicy} : (s.under p).untaught = s.untaught :=
  rfl

theorem expands_openWorld : (s.under .openWorld).Expands q :=
  expands_of_openWorld rfl rfl

/-- Without rules just what is found follows. -/
theorem found_of_entails_lookingUp (h : s.lookingUp.Entails q b) : s.Found q b := by
  rcases entails_iff.mp h with hfound | ⟨⟨hoff, -⟩, -⟩
  · exact hfound
  · cases hoff

theorem Regular.withConfig (h : s.Regular c queries t) : ({ s with config } : Setting).Regular c queries t :=
  ⟨h.present, h.pattern, h.heads, h.bodies, h.searchable, h.texts, h.unifiers⟩

end Setting

/-! ## What is looked up -/

namespace AnswerStream

variable {s : Setting} {queries : List AtomicQuery} {q : AtomicQuery} {k k' : Knowledge} {t t' : Supply}
  {as : List Answer} {st st' : AnswerStream} {resolve : Resolver}

/-- A stream at the top has looked its query up or does so next. -/
structure LooksUp (s : Setting) (st : AnswerStream) : Prop where
  path : st.path = []
  found : st.stage ≠ .unresolved → ∀ b, s.Found st.query b → st.answers.Has b

theorem LooksUp.step (h : s.Coherent queries) (hdepth : 0 < s.config.maxRecursionDepth)
    (hst : s.Sound queries st) (hk : s.Trusts queries k t.vars) (hlooks : st.LooksUp s)
    (hstep : Steps resolve s st k t st' k' t') : st'.LooksUp s := by
  refine ⟨hstep.path_eq.trans hlooks.path, fun _ b hb => ?_⟩
  rw [hstep.query_eq] at hb
  cases hstep with
  | cut _ hcut =>
    rw [Cut, hlooks.path] at hcut
    rcases hcut with hmeets | hdeep
    · cases hmeets
    · exact absurd hdepth (Nat.not_lt.mpr hdeep)
  | lookedUp _ _ hlookup =>
    obtain ⟨-, hfound⟩ := h.found_iff_of_gives_lookup hst.involved hk hlookup
    exact has_emitAll.mpr (.inr ((hfound b).mpr hb))
  | applied hstage => exact has_emitAll.mpr (.inl (hlooks.found (by simp [hstage]) b hb))
  | unruled hstage | ruled hstage | repeated hstage | finished hstage =>
    exact hlooks.found (by simp [hstage]) b hb
  | ended hterminal =>
    refine hlooks.found (fun hstage => ?_) b hb
    rw [hstage] at hterminal
    cases hterminal

end AnswerStream

namespace Setting.Coherent

open Reasoner AnswerStream

variable {s : Setting} {queries : List AtomicQuery} {q : AtomicQuery} {k k' : Knowledge} {t t' t₁ : Supply}
  {as : List Answer} {c : Conjunction} {d : DecomposedQuery} {b : Binding}

/-- A stream at the top finds all that is looked up. -/
theorem exists_answer_of_found (h : s.Coherent queries)
    (hbounds : 0 < s.config.maxRecursionDepth ∧ 0 < s.config.maxFixpointIterations)
    (hq : q.IsAmong queries) (hk : s.Trusts queries k t.vars)
    (hdrain : ((stream q).drain s).Gives k t as k' t') (hb : s.Found q b) : ∃ a ∈ as, a.binding = b := by
  obtain ⟨hdepth, hfix⟩ := hbounds
  obtain ⟨st, k₁, t₂, hfinish, hgives⟩ := gives_bind.mp hdrain
  obtain ⟨rfl, rfl, rfl⟩ := gives_pure.mp hgives
  have hended : st.Ended := (ended_of_gives_finishWithin hfix (within_start q []) .start
    (fun _ => stepsLeft_le_stepBound q []) hfinish).2
  obtain ⟨-, -, hlooks, hfailed, hquery⟩ := finishWithin_induction
    (p := fun st k t => s.Sound queries st ∧ s.Trusts queries k t.vars ∧ st.LooksUp s ∧ st.failed = false ∧
      st.query = q)
    (fun hstep ⟨hst, hk, hlooks, hfailed, hquery⟩ => by
      obtain ⟨hst', hk'⟩ := h.invariant.step (h.invariant.resolveWithin _) hst hk hstep
      exact ⟨hst', hk', hlooks.step h hdepth hst hk hstep, hstep.failed_eq.trans hfailed,
        hstep.query_eq.trans hquery⟩)
    hfinish ⟨.start hq, hk, ⟨rfl, fun hstage => absurd rfl hstage⟩, rfl, rfl⟩
  have hstage : st.stage ≠ .unresolved := by
    rintro hstage
    rcases hended with hfail | hterminal
    · cases hfail.symm.trans hfailed
    · rw [hstage] at hterminal
      cases hterminal
  exact hlooks.found hstage b (hquery ▸ hb)

/-- On an open transaction a pattern whose queries can be looked up is answered. -/
theorem exists_gives_resolve (h : s.Coherent queries) (hd : (ofConjunction s.transaction c).Gives t d t₁)
    (hqueries : ∀ q ∈ d.queries, q ∈ queries) (hk : s.Trusts queries k t₁.vars)
    (hopen : s.transaction.isOpen = true) (hsearchable : ∀ q ∈ d.queries ++ s.rules.bodies, q.Searchable) :
    ∃ as k' t', (resolve s c).Gives k t as k' t' := by
  refine (gives_or_fails (resolve s c) k t).resolve_right ?_
  rintro ⟨e, k', t', hfails⟩
  have hsub : ∀ q ∈ d.queries ++ s.rules.bodies, q ∈ queries := fun q hq =>
    (List.mem_append.mp hq).elim (hqueries q) h.mem_of_mem_bodies
  have hconfined := h.confined_of_searchable (E := fun _ => False) hopen hsub hsearchable
  have hinv : Invariant s (IsAmong (d.queries ++ s.rules.bodies)) (s.Trusts queries)
      (fun q => ∀ b, ¬ s.Found q b) fun _ => s.Entails :=
    h.invariant.restrict (fun q ⟨p, hp, hqp⟩ => ⟨p, hsub p hp, hqp⟩) fun _ hr p hp i =>
      (isAmong_of_mem (List.mem_append_right _ (RuleSet.mem_bodies hr hp))).renumber
  have hamong {q : AtomicQuery} (hq : q ∈ d.queries) : q.IsAmong (d.queries ++ s.rules.bodies) :=
    isAmong_of_mem (List.mem_append_left _ hq)
  rw [resolve_eq] at hfails
  exact (confined_of_fails_resolveWith (K := s.Trusts queries) (E := fun _ => False) hd
    (fun q hq k t as k' t' hk hdrain => (hinv.drain (hamong hq) hk hdrain).1)
    (fun q hq k t e k' t' hk hdrain => hconfined.drain hinv (hamong hq) hk hdrain) hk hfails).2

/-- What is joined of looked-up bindings is answered. -/
theorem exists_answer_of_joins_found (h : s.Coherent queries)
    (hbounds : 0 < s.config.maxRecursionDepth ∧ 0 < s.config.maxFixpointIterations)
    (hd : (ofConjunction s.transaction c).Gives t d t₁) (hqueries : ∀ q ∈ d.queries, q ∈ queries)
    (hk : s.Trusts queries k t₁.vars) (hresolve : (resolve s c).Gives k t as k' t') {ρ : Binding}
    (hρ : Interpretation.Joins s.Found d.queries .empty ρ) :
    ∃ a ∈ as, a.binding = ρ.restrict c.userVars.contains := by
  obtain ⟨-, -, -, hdown⟩ := joins_of_gives_resolve (K := s.Trusts queries) (L := s.Found)
    (U := fun _ _ => True) hd (fun q hq k t as k' t' hk hdrain => by
      have hamong := isAmong_of_mem (hqueries q hq)
      exact ⟨(h.entails_of_gives_drain hamong hk hdrain).1, fun b hb =>
        h.exists_answer_of_found hbounds hamong hk hdrain hb, fun _ _ => trivial⟩) hresolve hk
  exact hdown ρ hρ

end Setting.Coherent

namespace Setting.Regular

open Reasoner

variable {s : Setting} {c : Conjunction} {d d' : DecomposedQuery} {t t' u u' : Supply} {k : Knowledge}
  {as : List Answer} {config : Config}

/-- A reasoner that has resolved nothing before answers at any bound. -/
theorem exists_gives_resolve (h : s.Regular c d.queries t) (hg : s.transaction.graph.Reachable)
    (hrules : s.rules.CompiledFor s.transaction.graph) (hd : (ofConjunction s.transaction c).Gives t d t')
    (hopen : s.transaction.isOpen = true) : ∃ as k u, (resolve s c).Gives s.untaught t as k u :=
  (h.coherent_of_gives hg hrules hd).exists_gives_resolve hd (fun _ hq => List.mem_append_left _ hq)
    ((h.freshFor hrules).trusts_untaught hg.wellFormed hd) hopen h.searchable

/-- It answers with all that is looked up. -/
theorem exists_answer_of_joins_found (h : s.Regular c d.queries t) (hg : s.transaction.graph.Reachable)
    (hbounds : 0 < s.config.maxRecursionDepth ∧ 0 < s.config.maxFixpointIterations)
    (hrules : s.rules.CompiledFor s.transaction.graph) (hd : (ofConjunction s.transaction c).Gives t d t')
    (hresolve : (resolve s c).Gives s.untaught t as k u) {ρ : Binding}
    (hρ : Interpretation.Joins s.Found d.queries .empty ρ) :
    ∃ a ∈ as, a.binding = ρ.restrict c.userVars.contains :=
  (h.coherent_of_gives hg hrules hd).exists_answer_of_joins_found hbounds hd
    (fun _ hq => List.mem_append_left _ hq) ((h.freshFor hrules).trusts_untaught hg.wellFormed hd) hresolve hρ

end Setting.Regular

namespace Reasoner

variable {s : Setting} {c : Conjunction} {d d' d₀ d₁ d₂ : DecomposedQuery} {t t' u u' v v' t₀ t₁ t₂ u₀ u₁ u₂ : Supply}
  {as as' : List Answer} {k k' : Knowledge}

/-- What a reasoner finds one finds that applies rules to at least as many queries, if no stream of the
latter comes to a bound. -/
theorem exists_answers_of_expands (config : Config) (hg : s.transaction.graph.Reachable) (hopen : s.transaction.isOpen = true)
    (hrules : s.rules.CompiledFor s.transaction.graph)
    (hexpands : ∀ q, s.Expands q → ({ s with config } : Setting).Expands q)
    (hd : (ofConjunction s.transaction c).Gives t d t') (hregular : s.Regular c d.queries t)
    (hd' : (ofConjunction s.transaction c).Gives u d' u') (hregular' : s.Regular c d'.queries u)
    (hresolve : (resolve s c).Gives s.untaught t as k v)
    (hfree : Unhindered { s with config } c ({ s with config } : Setting).untaught u) :
    ∃ as' k' v', (resolve { s with config } c).Gives ({ s with config } : Setting).untaught u as' k' v' ∧
      ∀ a ∈ as, ∃ a' ∈ as', a'.binding = a.binding := by
  have hregular'' : ({ s with config } : Setting).Regular c d'.queries u := hregular'.withConfig
  obtain ⟨as', k', v', hgives, hiff⟩ := hregular''.exists_resolve_of_unhindered hg hrules hd' hopen hfree
  refine ⟨as', k', v', hgives, fun a ha => (hiff a.binding).mpr ?_⟩
  have hconcludes := hregular.concludes_of_gives_resolve hg hrules hd hresolve a ha
  rw [Setting.concludes_iff_of_gives hg.wellFormed hrules.built (hregular.freshFor hrules)
    (hregular'.freshFor hrules) hd hd'] at hconcludes
  have hmore : List.Forall₂ (fun q r => ∀ b, s.Entails q b → ({ s with config } : Setting).Entails r b)
      d'.queries d'.queries := List.forall₂_same.mpr fun _ _ _ => .of_expands hexpands
  exact hconcludes.of_forall₂ hmore fun _ => Iff.rfl

/-- What is found by looking up alone is found with rules in use too, at any bound. -/
theorem exists_answers_of_lookingUp (config : Config) (hg : s.transaction.graph.Reachable)
    (hrules : s.rules.CompiledFor s.transaction.graph)
    (hbounds : 0 < config.maxRecursionDepth ∧ 0 < config.maxFixpointIterations)
    (hd : (ofConjunction s.transaction c).Gives t d t') (hregular : s.Regular c d.queries t)
    (hd' : (ofConjunction s.transaction c).Gives u d' u') (hregular' : s.Regular c d'.queries u)
    (hresolve : (resolve s.lookingUp c).Gives s.untaught t as k v)
    (hresolve' : (resolve { s with config } c).Gives ({ s with config } : Setting).untaught u as' k' v') :
    ∀ a ∈ as, ∃ a' ∈ as', a'.binding = a.binding := by
  intro a ha
  have hlooking : s.lookingUp.Regular c d.queries t := hregular.withConfig
  have hlooking' : s.lookingUp.Regular c d'.queries u := hregular'.withConfig
  have hconfig : ({ s with config } : Setting).Regular c d'.queries u := hregular'.withConfig
  have hconcludes := hlooking.concludes_of_gives_resolve hg hrules hd hresolve a ha
  rw [Setting.concludes_iff_of_gives (s := s.lookingUp) hg.wellFormed hrules.built (hlooking.freshFor hrules)
    (hlooking'.freshFor hrules) hd hd'] at hconcludes
  obtain ⟨ρ, hρ, heq⟩ := hconcludes
  rw [DecomposedQuery.pattern_eq hd'] at heq
  have hfound : Interpretation.Joins s.Found d'.queries .empty ρ :=
    hρ.mono fun _ _ _ => Setting.found_of_entails_lookingUp
  obtain ⟨a', ha', hbinding⟩ := hconfig.exists_answer_of_joins_found hg hbounds hrules hd' hresolve' hfound
  exact ⟨a', ha', hbinding.trans heq⟩

end Reasoner

/-! ## Stations on a line -/

namespace Tracks

open Reasoner

/-- `$x isa type;` -/
def typed (x type : String) : Statement :=
  ⟨.named x, [.isa (.label ⟨type⟩)]⟩

/-- What is reached is reached along a track too. -/
def step : Rule where
  label := "step"
  body := ⟨[typed "x" "reached", ⟨.generated 0, [.relation [⟨some ⟨"from"⟩, .named "x"⟩,
    ⟨some ⟨"to"⟩, .named "y"⟩], .isa (.label ⟨"track"⟩)]⟩]⟩
  head := ⟨[typed "y" "reached"]⟩

/-- What is of all the types is seen. -/
def see (types : List String) : Rule where
  label := "see-" ++ "-".intercalate types
  body := ⟨types.map (typed "x")⟩
  head := ⟨[typed "x" "seen"]⟩

/-- Stations of given types, with tracks between them. -/
def operations (types : List String) (tracks : List (String × String)) : List Graph.Operation :=
  [.entityType ⟨"reached"⟩, .entityType ⟨"marked"⟩, .entityType ⟨"station"⟩, .entityType ⟨"seen"⟩,
    .relationType ⟨"track"⟩ [⟨"from"⟩, ⟨"to"⟩]] ++ types.map (fun type => .entity ⟨type⟩) ++
    tracks.map fun e => .relation ⟨"track"⟩ [(⟨"from"⟩, ⟨e.1⟩), (⟨"to"⟩, ⟨e.2⟩)]

def transaction (types : List String) (tracks : List (String × String)) : Transaction where
  name := ""
  graph := (operations types tracks).foldl Graph.perform {}

def setting (t : Transaction) (rules : List Rule) (maxFixpointIterations : Nat) : Setting where
  transaction := t
  config := { maxFixpointIterations }
  rules := (RuleSet.ofRules t rules).resultOr { vars := 1 } {}

def pattern : Conjunction :=
  ⟨[typed "x" "seen"]⟩

def decomposed (t : Transaction) : DecomposedQuery :=
  (ofConjunction t pattern).resultOr { vars := 20 } ⟨⟨[]⟩, []⟩

/-- What a reasoner binds that has resolved nothing before. -/
def found? (s : Setting) : Option (List Binding) :=
  (resolve s pattern).bindings? s.untaught { vars := 20 }

/-- The binding of a station. -/
def station (id : String) : Binding :=
  .ofList [(.named "x", ⟨id⟩)]

/-- The bounds of a setting raised. -/
theorem raised_eq (t : Transaction) (rules : List Rule) (n m : Nat) : ({ setting t rules n with config :=
    { (setting t rules n).config with maxRecursionDepth := 16, maxFixpointIterations := m } } : Setting) =
      setting t rules m :=
  rfl

theorem untaught_eq (t : Transaction) (rules : List Rule) (n m : Nat) :
    (setting t rules n).untaught = (setting t rules m).untaught :=
  rfl

theorem isOpen {types : List String} {tracks : List (String × String)} :
    (transaction types tracks).isOpen = true :=
  rfl

theorem reachable {types : List String} {tracks : List (String × String)} :
    (transaction types tracks).graph.Reachable :=
  ⟨_, rfl⟩

theorem compiledFor {t : Transaction} {rules : List Rule} {n : Nat}
    (h : ((RuleSet.ofRules t rules).run { vars := 1 }).1.isOk = true) :
    (setting t rules n).rules.CompiledFor t.graph :=
  RuleSet.compiledFor_of_gives_ofRules (Attempt.gives_resultOr h {})

/-- One station, which is seen since it is marked, and since it is seen. -/
def one (maxFixpointIterations : Nat) : Setting :=
  setting (transaction ["marked"] []) [see ["marked"], see ["seen"]] maxFixpointIterations

/-- Ten stations, of which the second, the fifth and the last one are marked. -/
def ten : Transaction :=
  transaction ["reached", "marked", "station", "station", "marked", "station", "station", "station", "station",
    "marked"] [("V8", "V9"), ("V9", "V10"), ("V10", "V11"), ("V11", "V12"), ("V12", "V13"), ("V13", "V14"),
    ("V14", "V15"), ("V15", "V16"), ("V16", "V17")]

/-- What is seen is reached and marked, or seen already. -/
def line (maxFixpointIterations : Nat) : Setting :=
  setting ten [step, see ["reached", "marked"], see ["seen"]] maxFixpointIterations

end Tracks

/-! ## Things that are found early -/

namespace Detours

open Reasoner
open ShortPaths (rule thing)

/-- A thing of each of the types `g`, `f` and `d`, of which `f` is a subtype of `d`. -/
def transaction : Transaction where
  name := ""
  graph := [.entityType ⟨"q"⟩, .entityType ⟨"b"⟩, .entityType ⟨"c"⟩, .entityType ⟨"d"⟩, .entityType ⟨"f"⟩,
    .entityType ⟨"g"⟩, .supertype ⟨"f"⟩ ⟨"d"⟩, .entity ⟨"g"⟩, .entity ⟨"f"⟩, .entity ⟨"d"⟩].foldl Graph.perform {}

def setting (rules : List Rule) : Setting where
  transaction := transaction
  config := { maxRecursionDepth := 2 }
  rules := (RuleSet.ofRules transaction rules).resultOr {} {}

/-- `$x isa type;` -/
def pattern (type : String) : Conjunction :=
  ⟨[⟨.named "x", [.isa (.label ⟨type⟩)]⟩]⟩

def decomposed (type : String) : DecomposedQuery :=
  (ofConjunction transaction (pattern type)).resultOr { vars := 18 } ⟨⟨[]⟩, []⟩

/-- What a reasoner binds that has resolved nothing before. -/
def found? (s : Setting) (type : String) : Option (List Binding) :=
  (resolve s (pattern type)).bindings? s.untaught { vars := 18 }

theorem reachable : transaction.graph.Reachable :=
  ⟨_, rfl⟩

theorem compiledFor {rules : List Rule} (h : ((RuleSet.ofRules transaction rules).run {}).1.isOk = true) :
    (setting rules).rules.CompiledFor transaction.graph :=
  RuleSet.compiledFor_of_gives_ofRules (Attempt.gives_resultOr h {})

/-- What is of the type `g` is of the type `d`. -/
def one : Setting :=
  setting [rule ["g"] "d"]

def seven : Setting :=
  setting [rule ["b"] "q", rule ["c"] "b", rule ["f", "c"] "q", rule ["d"] "c", rule ["d", "q"] "q",
    rule ["g"] "q", rule ["f"] "g"]

end Detours

end GraphInference
