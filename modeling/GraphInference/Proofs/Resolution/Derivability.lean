import GraphInference.Proofs.Resolution.Invariant
import GraphInference.Proofs.Resolution.Renaming

/-!
# What can be derived

The bindings of a query that follow from the graph by finitely many applications of rules are the least
interpretation that is closed under `Setting.Consequence` (`Setting.Derivable`), or under `Setting.Infers`
where the configuration keeps the rules from some queries (`Setting.Entails`). A stream that finds an
equivalent query under expansion takes what is known of it instead, and so finds at most what follows
when queries that meet the path have just their known bindings (`Setting.EntailsFrom`).

A renaming turns what follows for a query into what follows for the renamed query if every rule treats
the two alike (`RuleSet.Respects`). Known answers pass between equivalent queries by their unifiers, so
these should be such renamings (`RuleSet.UnifiesWell`).
-/

namespace GraphInference

namespace Setting

variable (s : Setting)

/-! ## Least interpretations -/

/-- Following in one step, as a monotone operator. -/
def consequence : Interpretation →o Interpretation where
  toFun := s.Consequence
  monotone' _ _ hI _ _ := Consequence.mono fun _ _ _ _ _ p _ b => hI p b

/-- The binding follows from the graph by the rules. -/
def Derivable : Interpretation :=
  OrderHom.lfp s.consequence

/-- Following in one step where rules are applied, as a monotone operator. -/
def inference : Interpretation →o Interpretation where
  toFun := s.Infers
  monotone' _ _ hI _ _ := Infers.mono fun _ _ _ _ _ p _ b => hI p b

/-- The binding follows from the graph by the rules where they are applied. -/
def Entails : Interpretation :=
  OrderHom.lfp s.inference

/-- Following in one step, with known bindings of the queries that meet the path. -/
def inferenceFrom (path : ResolutionPath) (known : Interpretation) : Interpretation →o Interpretation where
  toFun I q b := if path.meets q = true then known q b else s.Infers I q b
  monotone' I I' hI q b := by
    dsimp only
    split
    · exact id
    · exact Infers.mono fun _ _ _ _ _ p _ b => hI p b

/-- The binding follows by the rules from the graph and from known bindings of the queries that meet the
path. -/
def EntailsFrom (path : ResolutionPath) (known : Interpretation) : Interpretation :=
  OrderHom.lfp (s.inferenceFrom path known)

variable {s} {path : ResolutionPath} {known known' I : Interpretation} {q r : AtomicQuery} {b : Binding}

theorem derivable_iff : s.Derivable q b ↔ s.Consequence s.Derivable q b :=
  iff_of_eq (congrFun (congrFun s.consequence.map_lfp q) b).symm

theorem entails_iff : s.Entails q b ↔ s.Infers s.Entails q b :=
  iff_of_eq (congrFun (congrFun s.inference.map_lfp q) b).symm

theorem Entails.mem_userVars (h : s.Entails q b) {v : Var} (hv : b.contains v = true) :
    v ∈ q.userVars :=
  (entails_iff.mp h).mem_userVars hv

/-- What follows is in every interpretation that is closed under the rules. -/
theorem entails_le (hclosed : ∀ q b, s.Infers I q b → I q b) (h : s.Entails q b) : I q b :=
  OrderHom.lfp_le s.inference (a := I) hclosed q b h

theorem Entails.derivable (h : s.Entails q b) : s.Derivable q b :=
  entails_le (fun _ _ hb => derivable_iff.mpr hb.consequence) h

/-- In an open world all that is derivable follows. -/
theorem entails_iff_derivable (hpolicy : s.config.lookupPolicy = .openWorld)
    (hreasoning : s.config.reasoningEnabled = true) : s.Entails q b ↔ s.Derivable q b := by
  refine ⟨Entails.derivable, OrderHom.lfp_le s.consequence (a := s.Entails) (fun q b hb => ?_) q b⟩
  exact entails_iff.mpr (hb.imp_right fun h => ⟨expands_of_openWorld hpolicy hreasoning, h⟩)

theorem entailsFrom_iff_of_meets (h : path.meets q = true) :
    s.EntailsFrom path known q b ↔ known q b := by
  have hfix := congrFun (congrFun (s.inferenceFrom path known).map_lfp q) b
  have heval : (s.inferenceFrom path known) (s.EntailsFrom path known) q b = known q b := if_pos h
  exact iff_of_eq (hfix.symm.trans heval)

theorem entailsFrom_iff_of_not_meets (h : ¬ path.meets q = true) :
    s.EntailsFrom path known q b ↔ s.Infers (s.EntailsFrom path known) q b := by
  have hfix := congrFun (congrFun (s.inferenceFrom path known).map_lfp q) b
  have heval : (s.inferenceFrom path known) (s.EntailsFrom path known) q b =
    s.Infers (s.EntailsFrom path known) q b := if_neg h
  exact iff_of_eq (hfix.symm.trans heval)

/-- The bindings that follow from known ones are in every interpretation with the known ones that is
closed under the rules. -/
theorem entailsFrom_le (hmeets : ∀ q b, path.meets q = true → known q b → I q b)
    (hclosed : ∀ q b, ¬ path.meets q = true → s.Infers I q b → I q b)
    (h : s.EntailsFrom path known q b) : I q b := by
  refine OrderHom.lfp_le (s.inferenceFrom path known) (a := I) (fun q b hb => ?_) q b h
  by_cases hq : path.meets q = true
  · exact hmeets q b hq ((if_pos hq).mp hb)
  · exact hclosed q b hq ((if_neg hq).mp hb)

/-- Where nothing is under expansion, nothing is taken for known. -/
theorem Entails.entailsFrom (h : s.Entails q b) : s.EntailsFrom [] known q b := by
  have hmeets (q : AtomicQuery) : ¬ ResolutionPath.meets [] q = true := Bool.false_ne_true
  exact entails_le (fun q _ hb => (entailsFrom_iff_of_not_meets (hmeets q)).mpr hb) h

end Setting

theorem AtomicQuery.IsCopyOf.entails_iff {s : Setting} {q r : AtomicQuery} {b : Binding}
    (h : q.IsCopyOf r) : s.Entails q b ↔ s.Entails r b := by
  rw [Setting.entails_iff, h.infers_iff, ← Setting.entails_iff]

/-! ## Rules that respect a renaming -/

/-- The query turns into the other one by the renaming, and each rule has unifiers with both or with
none, with both such that a variable and its counterpart are led to the same variable of the body or out
of it. -/
structure RuleSet.Respects (rules : RuleSet) (ρ : Var → Var) (q r : AtomicQuery) : Prop where
  renames : AtomicQuery.Renames ρ q r
  unifiers : ∀ c ∈ rules.rules, Option.Rel (fun u u' => u.Tracks ρ id q u' c.body c.body)
    (c.unify? q.central) (c.unify? r.central)

instance {rules : RuleSet} {ρ : Var → Var} {q r : AtomicQuery} : Decidable (rules.Respects ρ q r) :=
  have : ∀ c : CompiledRule, Decidable (Option.Rel (fun u u' => u.Tracks ρ id q u' c.body c.body)
      (c.unify? q.central) (c.unify? r.central)) := fun c =>
    match c.unify? q.central, c.unify? r.central with
    | none, none => isTrue .none
    | none, some _ => isFalse fun h => nomatch h
    | some _, none => isFalse fun h => nomatch h
    | some _, some _ => decidable_of_iff _ ⟨.some, fun | .some h => h⟩
  decidable_of_iff (AtomicQuery.Renames ρ q r ∧ ∀ c ∈ rules.rules, Option.Rel _ _ _)
    ⟨fun h => ⟨h.1, h.2⟩, fun h => ⟨h.1, h.2⟩⟩

namespace RuleSet

open AtomicQuery

variable {rules : RuleSet} {ρ τ : Var → Var} {q r : AtomicQuery} {i : RuleId} {u : Unifier} {g : Graph}

/-- A rule that applies to the query applies to the other one. -/
theorem Respects.exists_applicable (h : rules.Respects ρ q r) (hrules : rules.Built)
    (hu : (i, u) ∈ rules.applicable q.central) : ∃ u' c, (i, u') ∈ rules.applicable r.central ∧
      rules.get? i = some c ∧ u.Tracks ρ id q u' c.body c.body := by
  obtain ⟨c, hc, hunify⟩ := hrules.get?_of_applicable hu
  have hmem : c ∈ rules.rules := List.mem_of_getElem? hc
  have hid : c.id = i := hrules.id_eq hc
  have hrel := h.unifiers c hmem
  rw [hunify] at hrel
  cases hu' : c.unify? r.central with
  | none =>
    rw [hu'] at hrel
    cases hrel
  | some u' =>
    rw [hu'] at hrel
    cases hrel with
    | some htracks =>
      refine ⟨u', c, List.mem_filterMap.mpr ⟨c, hmem, ?_⟩, hc, htracks⟩
      rw [hu', Option.map_some, hid]

/-- What leads back from the renaming is respected too. -/
theorem Respects.symm (h : rules.Respects ρ q r) (hq : q.Decomposed g)
    (hback : ∀ v ∈ q.slots, τ (ρ v) = v) : rules.Respects τ r q := by
  refine ⟨h.renames.symm_of_leftInverse hq hback, fun c hc => ?_⟩
  have hrel := h.unifiers c hc
  generalize c.unify? q.central = o at hrel
  generalize c.unify? r.central = o' at hrel
  cases hrel with
  | none => exact .none
  | @some u u' htracks =>
    refine .some fun w hw => ?_
    obtain ⟨v, hv, rfl⟩ := h.renames.mem_slots_iff.mp hw
    rw [hback v hv]
    refine (htracks v hv).imp ?_ And.symm
    rintro ⟨hbinds, heq⟩
    rw [heq]
    exact ⟨hbinds, rfl⟩

/-- The unifier of the two queries is a renaming that the rules respect. -/
def UnifiesWell (rules : RuleSet) (q r : AtomicQuery) : Prop :=
  ∃ u ∈ (q.unifier r).toOption, rules.Respects u.apply q r

instance : Decidable (rules.UnifiesWell q r) :=
  inferInstanceAs (Decidable (∃ u ∈ (q.unifier r).toOption, _))

end RuleSet

end GraphInference
