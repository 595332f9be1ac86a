import GraphInference.Proofs.Answer.Derivations
import GraphInference.Proofs.Answer.Explanations
import GraphInference.Proofs.Pattern.Printing

/-!
# What the key of a derivation tells

The key of a derivation has the keys of the answers that it was made from inside, in brackets of their own, and
no mark of it is quoted. It can be read all the same where variables are such as patterns have and identifiers
such as graphs give out (`Explanation.Legible`): a binding has no angle bracket, so what begins in one ends
with the key inside, and this begins with its kind. So the texts of two keys begin alike only where the
derivations are the same (`Explanation.tells_key`), and no derivation is taken for another one when an answer
is offered it (`key_identifies`).
-/

namespace GraphInference

open Text

/-! ## Legible explanations -/

/-- A variable that is read from a pattern. -/
def Var.Parsed (v : Var) : Prop :=
  ∃ cs r, Grammar.var cs = some (v, r)

/-- A letter and digits. -/
def ConceptId.Numbered (id : ConceptId) : Prop :=
  ∃ letter digits, id.text.toList = letter :: digits ∧ letter.isAlpha = true ∧ digits.all Char.isDigit = true

/-- Every variable is one of patterns, and every concept has a number. -/
def Binding.Legible (b : Binding) : Prop :=
  ∀ p ∈ b.entries, p.1.Parsed ∧ p.2.Numbered

/-- Whatever is bound below the explanation is legible. -/
def Explanation.Legible (e : Explanation) : Prop :=
  ∀ a ∈ e.answers, a.Throughout fun b => b.binding.Legible

theorem Var.parsed_generated (k : Nat) : (Var.generated k).Parsed :=
  ⟨_, [], Grammar.var_eq_some.mpr (Grammar.varForm_generated k nofun)⟩

theorem Graph.numbered_numbered {letter : Char} (h : letter.isAlpha = true) (n : Nat) :
    (numbered letter n).Numbered :=
  ⟨letter, Nat.toDigits 10 n, String.toList_ofList, h, List.all_eq_true.mpr Double.isDigit_of_mem_toDigits⟩

theorem Explanation.Legible.below {e : Explanation} (h : e.Legible) {a : Answer} (ha : a ∈ e.answers) :
    a.binding.Legible ∧ ∀ f ∈ a.explanations, f.Legible :=
  Answer.throughout_iff.mp (h a ha)

/-! ## Bindings -/

theorem Var.Parsed.exists_text {v : Var} (hv : v.Parsed) : ∃ name, v = .ofName (String.ofList name) ∧
    v.text.toList = '$' :: name ∧ ∀ c ∈ name, Grammar.isVarChar c = true := by
  obtain ⟨cs, r, h⟩ := hv
  obtain ⟨hrun⟩ := Grammar.var_eq_some.mp h
  exact ⟨_, rfl, Grammar.VarForm.toList_text hrun rfl, hrun.inside⟩

/-- The name tells a parsed variable, its status included. -/
theorem Var.Parsed.tells {v w : Var} (hv : v.Parsed) (hw : w.Parsed) :
    Tells ['='] v.text.toList w.text.toList (v = w) := by
  obtain ⟨name, rfl, htext, hname⟩ := hv.exists_text
  obtain ⟨name', rfl, htext', hname'⟩ := hw.exists_text
  rw [htext, htext']
  refine ((Tells.run (p := Grammar.isVarChar) rfl hname hname').prepend ['$']).imp ?_
  rintro rfl
  rfl

theorem ConceptId.Numbered.isAlphanum {id : ConceptId} (h : id.Numbered) :
    ∀ c ∈ id.text.toList, c.isAlphanum = true := by
  obtain ⟨letter, digits, htext, hletter, hdigits⟩ := h
  rw [htext, List.forall_mem_cons, Char.isAlphanum, hletter]
  refine ⟨rfl, fun c hc => ?_⟩
  rw [Char.isAlphanum, List.all_eq_true.mp hdigits c hc, Bool.or_true]

theorem ConceptId.Numbered.tells {i j : ConceptId} (hi : i.Numbered) (hj : j.Numbered) :
    Tells [' ', '<'] i.text.toList j.text.toList (i = j) :=
  (Tells.run (by decide) hi.isAlphanum hj.isAlphanum).imp fun h => congrArg ConceptId.mk (String.toList_inj.mp h)

/-- An entry as it stands in a key. -/
def Binding.entryText (p : Var × ConceptId) : List Char :=
  p.1.text.toList ++ '=' :: p.2.text.toList

theorem Binding.toList_key (b : Binding) : b.key.toList = [' '].intercalate (b.entries.map entryText) := by
  rw [key, String.toList_intercalate, List.map_map]
  refine congrArg _ (List.map_congr_left fun p _ => ?_)
  show (p.1.text ++ "=" ++ p.2.text).toList = _
  rw [String.toList_append, String.toList_append, List.append_assoc]
  rfl

/-- Bindings are told apart by their keys, which end at the first angle bracket. -/
theorem Binding.Legible.tells {b c : Binding} (hb : b.Legible) (hc : c.Legible) :
    Tells ['<'] b.key.toList c.key.toList (b = c) := by
  rw [b.toList_key, c.toList_key]
  refine (Tells.intercalate (R := Eq) (by decide) ?_ fun p hp q hq => ?_).imp fun h => ?_
  · intro p hp
    obtain ⟨hv, -⟩ := hp.elim (hb p) (hc p)
    obtain ⟨name, -, htext, -⟩ := hv.exists_text
    exact ⟨'$', _, congrArg (· ++ _) htext, by decide⟩
  · exact ((hb p hp).1.tells (hc q hq).1).bind (fun _ => (hb p hp).2.tells (hc q hq).2) |>.imp
      fun h => Prod.ext h.1 h.2
  · rw [List.forall₂_eq_eq_eq] at h
    exact SortedMap.eq_of_entries h

/-! ## Derivations -/

/-- The derivations are of one kind, by the same rule, from answers with the same bindings that are derived in
the same way. -/
inductive Explanation.SameDerivation : Explanation → Explanation → Prop where
  | empty : SameDerivation .empty .empty
  | lookup (q q' : QuerySnapshot) : SameDerivation (.lookup q) (.lookup q')
  | rule {r r' : RuleRef} {q q' : QuerySnapshot} {as bs : List Answer} (id : r.id = r'.id)
    (bindings : as.map Answer.binding = bs.map Answer.binding)
    (explanations : List.Forall₂ SameDerivation (as.map Answer.explanation) (bs.map Answer.explanation)) :
    SameDerivation (.rule r q as) (.rule r' q' bs)
  | join {as bs : List Answer} (bindings : as.map Answer.binding = bs.map Answer.binding)
    (explanations : List.Forall₂ SameDerivation (as.map Answer.explanation) (bs.map Answer.explanation)) :
    SameDerivation (.join as) (.join bs)

/-- The answers have the same binding, and their first explanations the same key. -/
def Answer.SameContribution (a b : Answer) : Prop :=
  a.binding = b.binding ∧ a.explanation.key = b.explanation.key

/-- The derivations are of one kind, by the same rule, from answers that contribute the same one by one. -/
inductive Explanation.SameContributors : Explanation → Explanation → Prop where
  | empty : SameContributors .empty .empty
  | lookup (q q' : QuerySnapshot) : SameContributors (.lookup q) (.lookup q')
  | rule {r r' : RuleRef} {q q' : QuerySnapshot} {as bs : List Answer} (id : r.id = r'.id)
    (answers : List.Forall₂ Answer.SameContribution as bs) : SameContributors (.rule r q as) (.rule r' q' bs)
  | join {as bs : List Answer} (answers : List.Forall₂ Answer.SameContribution as bs) :
    SameContributors (.join as) (.join bs)

theorem contributorKeys_eq_map (as : List Answer) : contributorKeys as = as.map Answer.contributorKey := by
  induction as with
  | nil => rfl
  | cons a as ih => rw [contributorKeys, ih, List.map_cons]

theorem Answer.toList_contributorKey (a : Answer) :
    a.contributorKey.toList = a.binding.key.toList ++ '<' :: (a.explanation.key.toList ++ ['>']) := by
  cases a with
  | mk id b e es =>
    rw [contributorKey, String.toList_append, String.toList_append, String.toList_append, List.append_assoc,
      List.append_assoc]
    rfl

namespace Explanation

/-- What stands in the square brackets of a key. -/
def inside (as : List Answer) : List Char :=
  [','].intercalate (as.map fun a => a.contributorKey.toList)

theorem toList_inside (as : List Answer) :
    (",".intercalate (contributorKeys as)).toList = inside as := by
  rw [String.toList_intercalate, contributorKeys_eq_map, List.map_map]
  rfl

theorem toList_key_rule (r : RuleRef) (q : QuerySnapshot) (as : List Answer) :
    (rule r q as).key.toList = ("rule:".toList ++ r.id.text.toList) ++ '[' :: (inside as ++ [']']) := by
  rw [key]
  simp only [String.toList_append, toList_inside, List.append_assoc]
  rfl

theorem toList_key_join (as : List Answer) :
    (join as).key.toList = "join".toList ++ '[' :: (inside as ++ [']']) := by
  rw [key]
  simp only [String.toList_append, toList_inside, List.append_assoc]
  rfl

end Explanation

theorem RuleId.toList_text (id : RuleId) : id.text.toList = 'R' :: Nat.toDigits 10 id.index := by
  show ("R" ++ Nat.repr id.index).toList = _
  rw [String.toList_append, Nat.repr_eq_ofList_toDigits, String.toList_ofList, String.toList_ofList]
  rfl

theorem RuleId.tells (i j : RuleId) : Tells ['['] i.text.toList j.text.toList (i = j) := by
  rw [i.toList_text, j.toList_text]
  refine ((Tells.run (p := Char.isDigit) rfl Double.isDigit_of_mem_toDigits
    Double.isDigit_of_mem_toDigits).prepend ['R']).imp fun h => ?_
  have hindex : i.index = j.index := by
    rw [← Double.digitsValue_toDigits i.index, h, Double.digitsValue_toDigits]
  exact congrArg RuleId.mk hindex

namespace Explanation

variable {e f : Explanation} {as bs : List Answer} {R : Explanation → Explanation → Prop}

/-- What the key of a kind begins with. -/
def initial : Explanation → Char
  | .empty => 'e'
  | .lookup _ => 'l'
  | .rule .. => 'r'
  | .join _ => 'j'

theorem exists_key_eq (e : Explanation) : ∃ s, e.key.toList = e.initial :: s := by
  cases e with
  | empty => exact ⟨_, rfl⟩
  | lookup q => exact ⟨"ookup".toList, by rw [key]; rfl⟩
  | rule r q as => exact ⟨_, toList_key_rule r q as⟩
  | join as => exact ⟨_, toList_key_join as⟩

/-- Kinds are told apart by the first character. -/
theorem tells_of_initial_ne (h : e.initial ≠ f.initial) {P : Prop} :
    Tells ['>'] e.key.toList f.key.toList P := by
  obtain ⟨s, hs⟩ := e.exists_key_eq
  obtain ⟨t, ht⟩ := f.exists_key_eq
  rw [hs, ht]
  refine Tells.of_head ?_ fun c hc => ?_
  · cases e <;> simp [initial]
  · obtain rfl := Option.some.inj hc
    exact h.symm

theorem forall₂_contributors_iff :
    List.Forall₂ (fun a b : Answer => a.binding = b.binding ∧ R a.explanation b.explanation) as bs ↔
      as.map Answer.binding = bs.map Answer.binding ∧
        List.Forall₂ R (as.map Answer.explanation) (bs.map Answer.explanation) := by
  rw [← List.forall₂_eq_eq_eq, List.forall₂_map_left_iff, List.forall₂_map_right_iff,
    List.forall₂_map_left_iff, List.forall₂_map_right_iff]
  exact ⟨fun h => ⟨h.imp fun _ _ => And.left, h.imp fun _ _ => And.right⟩, fun h => forall₂_and h.1 h.2⟩

/-- The answers that a derivation was made from are told apart one by one, if their explanations are. -/
theorem tells_inside (has : ∀ a ∈ as, a.binding.Legible) (hbs : ∀ b ∈ bs, b.binding.Legible)
    (h : ∀ a ∈ as, ∀ b ∈ bs, Tells ['>'] a.explanation.key.toList b.explanation.key.toList
      (R a.explanation b.explanation)) :
    Tells [']'] (inside as) (inside bs)
      (List.Forall₂ (fun a b => a.binding = b.binding ∧ R a.explanation b.explanation) as bs) := by
  refine Tells.intercalate (by decide) (fun a ha => ?_) fun a ha b hb => ?_
  · have hbinding : a.binding.Legible := ha.elim (has a) (hbs a)
    rw [a.toList_contributorKey, a.binding.toList_key]
    cases hentries : a.binding.entries with
    | nil => exact ⟨'<', _, rfl, by decide⟩
    | cons p ps =>
      obtain ⟨name, -, htext, -⟩ := (hbinding p (hentries ▸ .head _)).1.exists_text
      obtain ⟨s, hs⟩ : ∃ s, [' '].intercalate ((p :: ps).map Binding.entryText) = '$' :: s := by
        cases ps with
        | nil =>
          rw [List.map_singleton, List.intercalate_singleton, Binding.entryText, htext]
          exact ⟨_, rfl⟩
        | cons q ps =>
          rw [List.map_cons, List.map_cons, List.intercalate_cons_cons, Binding.entryText, htext]
          exact ⟨_, rfl⟩
      rw [hs]
      exact ⟨'$', _, rfl, by decide⟩
  · rw [a.toList_contributorKey, b.toList_contributorKey]
    exact ((has a ha).tells (hbs b hb)).bind fun _ => (h a ha b hb).last

/-- Keys that begin alike, up to an angle bracket, are keys of the same derivation. -/
theorem tells_key (he : e.Legible) (hf : f.Legible) :
    Tells ['>'] e.key.toList f.key.toList (e.SameDerivation f) := by
  induction e using Explanation.induction generalizing f with
  | step e ih =>
    by_cases hinitial : e.initial = f.initial
    · have hinside {as bs : List Answer} (has : e.answers = as) (hbs : f.answers = bs) :
          Tells [']'] (inside as) (inside bs) (List.Forall₂ (fun a b => a.binding = b.binding ∧
            SameDerivation a.explanation b.explanation) as bs) := by
        subst has hbs
        refine tells_inside (fun a ha => (he.below ha).1) (fun b hb => (hf.below hb).1) fun a ha b hb => ?_
        exact ih a ha _ (.head _) ((he.below ha).2 _ (.head _)) ((hf.below hb).2 _ (.head _))
      cases e with
      | empty =>
        cases f with
        | empty => exact fun _ _ _ _ heq => ⟨.empty, List.append_cancel_left heq⟩
        | _ => simp [initial] at hinitial
      | lookup q =>
        cases f with
        | lookup q' => exact fun _ _ _ _ heq => ⟨.lookup q q', List.append_cancel_left heq⟩
        | _ => simp [initial] at hinitial
      | rule r q as =>
        cases f with
        | rule r' q' bs =>
          rw [toList_key_rule, toList_key_rule]
          refine (((r.id.tells r'.id).prepend _).bind fun _ => (hinside rfl rfl).last).imp fun h => ?_
          obtain ⟨hbindings, hexplanations⟩ := forall₂_contributors_iff.mp h.2
          exact .rule h.1 hbindings hexplanations
        | _ => simp [initial] at hinitial
      | join as =>
        cases f with
        | join bs =>
          rw [toList_key_join, toList_key_join]
          have hjoin : Tells ['['] "join".toList "join".toList True :=
            fun _ _ _ _ heq => ⟨trivial, List.append_cancel_left heq⟩
          refine (hjoin.bind fun _ => (hinside rfl rfl).last).imp fun h => ?_
          obtain ⟨hbindings, hexplanations⟩ := forall₂_contributors_iff.mp h.2
          exact .join hbindings hexplanations
        | _ => simp [initial] at hinitial
    · exact tells_of_initial_ne hinitial

/-! ## Keys of the same derivation -/

theorem contributorKeys_congr (h : List.Forall₂ Answer.SameContribution as bs) :
    contributorKeys as = contributorKeys bs := by
  rw [contributorKeys_eq_map, contributorKeys_eq_map]
  induction h with
  | nil => rfl
  | @cons a b as bs hab _ ih =>
    rw [List.map_cons, List.map_cons, ih]
    refine congrArg (· :: _) (String.toList_inj.mp ?_)
    rw [a.toList_contributorKey, b.toList_contributorKey, hab.1, hab.2]

theorem SameContributors.key_eq (h : e.SameContributors f) : e.key = f.key := by
  cases h with
  | empty => rfl
  | lookup q q' => rw [key, key]
  | rule id answers => rw [key, key, id, contributorKeys_congr answers]
  | join answers => rw [key, key, contributorKeys_congr answers]

/-- The first explanations of the contributors have the same keys, if they are the same derivations. -/
theorem SameDerivation.sameContributors (h : e.SameDerivation f) : e.SameContributors f := by
  induction e using Explanation.induction generalizing f with
  | step e ih =>
    have hanswers {as bs : List Answer} (has : e.answers = as)
        (hbindings : as.map Answer.binding = bs.map Answer.binding)
        (hexplanations : List.Forall₂ SameDerivation (as.map Answer.explanation) (bs.map Answer.explanation)) :
        List.Forall₂ Answer.SameContribution as bs := by
      subst has
      refine forall₂_imp_of_mem (forall₂_contributors_iff.mpr ⟨hbindings, hexplanations⟩) fun a ha b hab => ?_
      exact ⟨hab.1, (ih a ha _ (.head _) hab.2).key_eq⟩
    cases h with
    | empty => exact .empty
    | lookup q q' => exact .lookup q q'
    | rule id bindings explanations => exact .rule id (hanswers rfl bindings explanations)
    | join bindings explanations => exact .join (hanswers rfl bindings explanations)

theorem key_eq_iff_sameDerivation (he : e.Legible) (hf : f.Legible) : e.key = f.key ↔ e.SameDerivation f := by
  refine ⟨fun h => ?_, fun h => h.sameContributors.key_eq⟩
  have hend : Stops ['>'] [] := nofun
  exact (tells_key he hf hend hend (congrArg (String.toList · ++ []) h)).1

/-- Legible explanations have the same key exactly if they are of one kind and, where they were made from answers,
by the same rule and from answers with the same bindings and explanations of the same keys; which is to say, of the
same derivation down to the leaves. So an answer that is offered a derivation refuses it only if it has the same one
already. -/
theorem key_identifies (he : e.Legible) (hf : f.Legible) :
    (e.key = f.key ↔ e.SameContributors f) ∧ (e.key = f.key ↔ e.SameDerivation f) ∧
    ∀ a : Answer, (∀ g ∈ a.explanations, g.Legible) →
      ((∃ g ∈ a.explanations, g.SameDerivation e) → a.addExplanation e = a) ∧
      ((∀ g ∈ a.explanations, ¬ g.SameDerivation e) →
        a.addExplanation e = .mk a.id a.binding a.explanation (a.alternatives ++ [e])) := by
  have hkey := key_eq_iff_sameDerivation he hf
  refine ⟨⟨fun h => (hkey.mp h).sameContributors, SameContributors.key_eq⟩, hkey, fun a ha => ?_⟩
  have hknown : (a.explanations.any fun g => g.key = e.key) = true ↔
      ∃ g ∈ a.explanations, g.SameDerivation e := by
    rw [List.any_eq_true]
    refine exists_congr fun g => and_congr_right fun hg => ?_
    rw [decide_eq_true_eq, key_eq_iff_sameDerivation (ha g hg) he]
  refine ⟨fun h => if_pos (hknown.mpr h), fun h => if_neg fun hany => ?_⟩
  obtain ⟨g, hg, hsame⟩ := hknown.mp hany
  exact h g hg hsame

end Explanation

/-! ## Brackets in brackets -/

namespace Bracketed

/-- An answer without variables, from the graph. -/
def unbound : Answer :=
  .mk ⟨1⟩ .empty (.lookup default) []

/-- An answer to `$x` and to a generated variable, joined from others. -/
def joined (as : List Answer) : Answer :=
  .mk ⟨2⟩ (.ofList [(.named "x", Graph.numbered 'V' 1), (.generated 0, Graph.numbered 'V' 2)]) (.join as) []

/-- By a rule from two answers, the first one joined from none. -/
def besides : Explanation :=
  .rule ⟨⟨10⟩, "rule"⟩ default [joined [], unbound]

/-- By the same rule from one answer, which is joined from the other. -/
def nested : Explanation :=
  .rule ⟨⟨10⟩, "rule"⟩ default [joined [unbound]]

/-- An answer that is derived in the one way. -/
def derived : Answer :=
  .mk ⟨3⟩ .empty nested []

theorem throughout_unbound : unbound.Throughout fun b => b.binding.Legible :=
  Answer.throughout_iff.mpr ⟨nofun, fun _ he d hd => by obtain rfl := List.mem_singleton.mp he; cases hd⟩

theorem throughout_joined {as : List Answer} (h : ∀ a ∈ as, a.Throughout fun b => b.binding.Legible) :
    (joined as).Throughout fun b => b.binding.Legible := by
  refine Answer.throughout_iff.mpr ⟨fun p hp => ?_, fun e he => ?_⟩
  · have hentries : p ∈ [(Var.generated 0, Graph.numbered 'V' 2), (Var.named "x", Graph.numbered 'V' 1)] := hp
    rcases List.mem_pair.mp hentries with rfl | rfl
    · exact ⟨Var.parsed_generated 0, Graph.numbered_numbered rfl 2⟩
    · exact ⟨⟨['$', 'x'], [], rfl⟩, Graph.numbered_numbered rfl 1⟩
  · obtain rfl := List.mem_singleton.mp he
    exact h

/-- The keys differ in a bracket, so the other derivation is an alternative. -/
theorem key_identifies_bracketed : (besides.Legible ∧ nested.Legible) ∧
    (besides.key = nested.key ↔ besides.SameContributors nested) ∧
    (besides.key = nested.key ↔ besides.SameDerivation nested) ∧
    (¬ ∃ g ∈ derived.explanations, g.SameDerivation besides) ∧
    derived.addExplanation besides = .mk ⟨3⟩ .empty nested [besides] ∧
    (∃ g ∈ unbound.explanations, g.SameDerivation (.lookup default)) ∧
    unbound.addExplanation (.lookup default) = unbound := by
  have hunbound : unbound.explanation.Legible := nofun
  have hbesides : besides.Legible :=
    List.forall_mem_cons.mpr ⟨throughout_joined nofun, List.forall_mem_singleton.mpr throughout_unbound⟩
  have hnested : nested.Legible :=
    List.forall_mem_singleton.mpr (throughout_joined (List.forall_mem_singleton.mpr throughout_unbound))
  obtain ⟨hcontributors, hderivation, hoffered⟩ := Explanation.key_identifies hbesides hnested
  obtain ⟨-, hback, -⟩ := Explanation.key_identifies hnested hbesides
  obtain ⟨-, -, hagain⟩ := Explanation.key_identifies hunbound hunbound
  have hnew : ¬ nested.SameDerivation besides := fun h => absurd (hback.mpr h) (by decide +kernel)
  refine ⟨⟨hbesides, hnested⟩, hcontributors, hderivation, ?_, ?_, ?_, ?_⟩
  · rintro ⟨g, hg, hsame⟩
    obtain rfl := List.mem_singleton.mp hg
    exact hnew hsame
  · exact (hoffered derived (List.forall_mem_singleton.mpr hnested)).2 (List.forall_mem_singleton.mpr hnew)
  · exact ⟨_, .head _, .lookup default default⟩
  · exact (hagain unbound (List.forall_mem_singleton.mpr hunbound)).1 ⟨_, .head _, .lookup default default⟩

example : (Explanation.join [unbound, unbound]).key = "join[<lookup>,<lookup>]" := by decide +kernel

end Bracketed

end GraphInference
