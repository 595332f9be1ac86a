import GraphInference.Proofs.Query.Twins
import GraphInference.Proofs.Resolution.Patterns
import GraphInference.Proofs.Unification.Alike

/-!
# What does not depend on the variables drawn

What follows for a query follows for a renaming of it that leaves user-defined variables alone and that the
rules respect. So the conclusions of a pattern do not depend on the supply at which it is decomposed
(`Setting.concludes_iff_of_gives`), as long as the pattern and the rules have no variables that are yet to
be generated (`Setting.FreshFor`).
-/

namespace GraphInference

open AtomicQuery Decomposition

/-! ## Interpretations of related queries -/

theorem Interpretation.Joins.forall₂ {I I' : Interpretation} {body body' : List AtomicQuery} {m m' : Binding}
    (hbody : List.Forall₂ (fun p p' => ∀ b, I p b → I' p' b) body body') (h : I.Joins body m m') :
    I'.Joins body' m m' := by
  induction hbody generalizing m with
  | nil => exact h
  | cons hp _ ih =>
    obtain ⟨b, mid, hb, hmerge, h⟩ := h
    exact ⟨b, mid, hp b hb, hmerge, ih h⟩

theorem Binding.relabel_eq_self {ρ : Var → Var} {b : Binding} (h : ∀ v, b.contains v = true → ρ v = v) :
    b.relabel ρ = b := by
  refine SortedMap.ext_find? fun w => Option.ext fun i => ?_
  rw [find?_relabel fun v w hv hw heq => by rwa [h v hv, h w hw] at heq]
  constructor
  · rintro ⟨v, hv, rfl⟩
    rwa [h v (SortedMap.contains_iff_isSome.mpr ⟨i, hv⟩)]
  · exact fun hw => ⟨w, hw, h w (SortedMap.contains_iff_isSome.mpr ⟨i, hw⟩)⟩

/-! ## Renamings that leave user-defined variables alone -/

namespace Setting

variable {s s' : Setting} {q r : AtomicQuery} {ρ : Var → Var} {b : Binding} {g₁ g₂ : Graph}
  {d d' : DecomposedQuery} {c c' : Conjunction} {t u t' u' : Supply}

/-- A renaming that leaves user-defined variables alone and that the rules respect changes nothing. -/
theorem entails_iff_of_respects (hg : s.transaction.graph.WellFormed) (hrules : s.rules.Built)
    (hq : q.Decomposed g₁) (hr : r.Decomposed g₂) (hlabel : r.central.label? = q.central.label?)
    (h : s.rules.Respects ρ q r) (huser : ∀ v ∈ q.slots, v.userDefined = true → ρ v = v) :
    s.Entails q b ↔ s.Entails r b := by
  have hproper : ∀ c ∈ s.rules.rules, ∀ p ∈ c.body, ∀ b, s.Entails p b →
      ∀ v, b.contains v = true → v ∈ p.userVars := fun _ _ _ _ _ hb _ => hb.mem_userVars
  have hslot {q : AtomicQuery} {g : Graph} (hq : q.Decomposed g) (hb : s.Entails q b) {v : Var}
      (hv : b.contains v = true) : v ∈ q.slots ∧ v.userDefined = true :=
    ⟨mem_slots_of_mem_userVars hq (hb.mem_userVars hv), (SortedSet.mem_filter.mp (hb.mem_userVars hv)).2⟩
  obtain ⟨τ, hτ⟩ := h.renames.exists_leftInverse
  constructor
  · intro hb
    rw [← Binding.relabel_eq_self (ρ := ρ) fun v hv => huser v (hslot hq hb hv).1 (hslot hq hb hv).2]
    exact entails_iff.mpr ((entails_iff.mp hb).respects hg hrules hq hr hlabel h hproper)
  · intro hb
    have hback : b.relabel τ = b := by
      refine Binding.relabel_eq_self fun w hw => ?_
      obtain ⟨hw, hdefined⟩ := hslot hr hb hw
      obtain ⟨v, hv, rfl⟩ := h.renames.mem_slots_iff.mp hw
      rw [hτ v hv, huser v hv (h.renames.userDefined v hv ▸ hdefined)]
    rw [← hback]
    exact entails_iff.mpr ((entails_iff.mp hb).respects hg hrules hr hq hlabel.symm (h.symm hq hτ) hproper)

/-- What follows for the queries of one pattern follows for those of the other, and so do conclusions. -/
theorem Concludes.of_forall₂
    (hqueries : List.Forall₂ (fun q r => ∀ b, s.Entails q b → s'.Entails r b) d.queries d'.queries)
    (hvars : ∀ v, v ∈ d'.pattern.userVars ↔ v ∈ d.pattern.userVars) (h : s.Concludes d b) :
    s'.Concludes d' b := by
  obtain ⟨ρ, hρ, rfl⟩ := h
  have hcontains : d'.pattern.userVars.contains = d.pattern.userVars.contains := by
    funext v
    rw [Bool.eq_iff_iff, SortedSet.contains_iff, SortedSet.contains_iff]
    exact hvars v
  exact ⟨ρ, hρ.forall₂ hqueries, by rw [hcontains]⟩

/-! ## Supplies -/

/-- The pattern names no absent variable, and neither the pattern nor the rules have a variable that the
supply is yet to generate. -/
structure FreshFor (s : Setting) (c : Conjunction) (t : Supply) : Prop where
  present : ∀ v, c.Names v → v.isEmpty = false
  pattern : ∀ k, t.vars ≤ k → .generated k ∉ c.vars
  heads : ∀ r ∈ s.rules.rules, ∀ k, t.vars ≤ k → ¬ r.head.central.Holds (.generated k)
  bodies : ∀ p ∈ s.rules.bodies, p.FreshFrom t

/-- The queries of a pattern and the bodies of the rules are fresh once the pattern is decomposed. -/
theorem FreshFor.freshFrom (h : s.FreshFor c t) (hg : s.transaction.graph.WellFormed)
    (hd : (ofConjunction s.transaction c).Gives t d t') : ∀ q ∈ d.queries ++ s.rules.bodies, q.FreshFrom t' := by
  intro q hq
  rcases List.mem_append.mp hq with hq | hq
  · exact fun k hk => DecomposedQuery.not_names_generated hg hd h.present h.pattern hq hk
  · obtain ⟨_, _, hasks, _⟩ := DecomposedQuery.exists_asks hg hd h.present
    exact (h.bodies q hq).mono hasks.le

/-- A reasoner that has resolved nothing yet has trusted knowledge. -/
theorem FreshFor.trusts_untaught (h : s.FreshFor c t) (hg : s.transaction.graph.WellFormed)
    (hd : (ofConjunction s.transaction c).Gives t d t') :
    s.Trusts (d.queries ++ s.rules.bodies) s.untaught t'.vars :=
  Setting.trusts_untaught fun q hq k hk => h.freshFrom hg hd q hq k hk

/-- What stands at a place of a rule's head is old. -/
theorem FreshFor.old_of_holds (ht : s.FreshFor c t) (hu : s.FreshFor c' u) {r : CompiledRule}
    (hr : r ∈ s.rules.rules) {w : Var} (hw : r.head.central.Holds w) : w.Old t.vars u.vars := by
  rintro k rfl
  exact ⟨Nat.lt_of_not_le fun hk => ht.heads r hr k hk hw, Nat.lt_of_not_le fun hk => hu.heads r hr k hk hw⟩

variable {S : List RolePlayer → List RolePlayer → Prop} {T : Label → Label → Prop}

/-- Rules respect the renaming of a query to a twin of the same label whose players are aligned alike. -/
theorem respects_of_twin (ht : s.FreshFor c t) (hu : s.FreshFor c' u) (hperm : ∀ ps ps', S ps ps' → ps.Perm ps')
    (hq : q.Decomposed g₁) (hr : r.Decomposed g₁) (h : q.Twin S T t.vars u.vars r)
    (hlabel : r.central.label? = q.central.label?)
    (halike : ∀ c ∈ s.rules.rules, c.Fits q.central →
      Atom.SeatsAlike (Var.shift t.vars u.vars) q.central r.central c.head.central) :
    s.rules.Respects (Var.shift t.vars u.vars) q r := by
  have hcentral := hq.central.1
  refine RuleSet.respects_of_seatsAlike (h.renames hq hr hlabel hperm) hcentral
    (h.central.isPredicate_eq_false hcentral) (fun v _ hv => (Var.old_of_userDefined hv).shift_eq)
    (fun c hc v hv w hw => ?_) halike
  exact (h.apart hcentral v hv).shift_eq_iff (ht.old_of_holds hu hc hw)

end Setting

/-- Relations with the same players are aligned alike. -/
theorem Atom.seatsAlike_of_players_eq {q q' h : Atom} {ρ : Var → Var} (hfamily : q'.family = q.family)
    (hplayers : q'.players = q.players) (hρ : ∀ p ∈ q.players, ρ p.2 = p.2) : SeatsAlike ρ q q' h := by
  have hplaces {a a' b : RelationAtom} (ha : a'.players = a.players) : a'.places b = a.places b := by
    unfold RelationAtom.places
    rw [ha]
  have hseats : (q.Seated h ↔ q'.Seated h) ∧ q'.placed h = q.placed h := by
    cases q <;> cases q' <;> cases hfamily
    case relation.relation.refl a a' =>
      cases h with
      | relation b =>
        have heq := @hplaces a a' b hplayers
        exact ⟨by rw [Seated, Seated, heq], by rw [placed, placed, RelationAtom.placed, RelationAtom.placed, heq]⟩
      | _ => exact ⟨Iff.rfl, rfl⟩
    all_goals cases h <;> exact ⟨Iff.rfl, rfl⟩
  refine ⟨hseats.1, fun _ v w hplayer => ?_⟩
  obtain ⟨p, hp, hv⟩ := hplayer
  rw [hplayers, hseats.2, ← hv, hρ p hp]

/-- Twins with the same players are aligned alike. -/
theorem AtomicQuery.Twin.seatsAlike {q q' : AtomicQuery} {T : Label → Label → Prop} {n m : Nat}
    (h : q.Twin Eq T n m q') (hq : q.central.isPredicate = false) (head : Atom) :
    Atom.SeatsAlike (Var.shift n m) q.central q'.central head := by
  obtain ⟨ps, _, rfl, -, hps, hps'⟩ := h.central.players
  refine Atom.seatsAlike_of_players_eq h.central.family (hps'.trans hps.symm) fun p hp => ?_
  exact ((h.central.apart hq).2.2 p hp).shift_eq

namespace Setting

variable {s : Setting} {c : Conjunction} {d d' : DecomposedQuery} {t t' u u' : Supply} {b : Binding}

/-- What follows for the queries of one pattern follows for those of another one, if they are twins of the
same labels whose players are aligned alike. -/
theorem entails_iff_of_twins {S : List RolePlayer → List RolePlayer → Prop} {c' : Conjunction}
    (hg : s.transaction.graph.WellFormed) (hrules : s.rules.Built) (ht : s.FreshFor c t) (hu : s.FreshFor c' u)
    (hperm : ∀ ps ps', S ps ps' → ps.Perm ps') (hd : (ofConjunction s.transaction c).Gives t d t')
    (hd' : (ofConjunction s.transaction c').Gives u d' u')
    (h : List.Forall₂ (fun q r => q.Twin S Eq t.vars u.vars r ∧ ∀ c ∈ s.rules.rules, c.Fits q.central →
      Atom.SeatsAlike (Var.shift t.vars u.vars) q.central r.central c.head.central) d.queries d'.queries) :
    List.Forall₂ (fun q r => ∀ b, s.Entails q b ↔ s.Entails r b) d.queries d'.queries := by
  refine forall₂_imp_of_mem_mem h ?_
  rintro q hq r hr ⟨htwin, halike⟩ b
  have hq := decomposed_of_mem_queries hd hq
  have hr := decomposed_of_mem_queries hd' hr
  have hlabel := htwin.central.label?_eq hq.central.1
  exact entails_iff_of_respects hg hrules hq hr hlabel
    (respects_of_twin ht hu hperm hq hr htwin hlabel halike)
    fun v _ hv => (Var.old_of_userDefined hv).shift_eq

/-- Nothing that follows for the queries of a pattern depends on the supply at which it is decomposed. -/
theorem entails_iff_of_gives (hg : s.transaction.graph.WellFormed) (hrules : s.rules.Built)
    (ht : s.FreshFor c t) (hu : s.FreshFor c u) (hd : (ofConjunction s.transaction c).Gives t d t')
    (hd' : (ofConjunction s.transaction c).Gives u d' u') :
    List.Forall₂ (fun q r => ∀ b, s.Entails q b ↔ s.Entails r b) d.queries d'.queries := by
  have htwins := twins_of_gives (S := Eq) (T := Eq) (fun _ => rfl) (fun _ _ h => h ▸ .refl _) (.refl c) hd hd'
    ht.pattern hu.pattern
  refine entails_iff_of_twins (S := Eq) hg hrules ht hu (fun _ _ h => h ▸ .refl _) hd hd'
    (forall₂_imp_of_mem htwins fun q hq r h => ⟨h, fun c _ _ => ?_⟩)
  exact h.seatsAlike (decomposed_of_mem_queries hd hq).central.1 c.head.central

/-- The conclusions of a pattern do not depend on the supply at which it is decomposed. -/
theorem concludes_iff_of_gives (hg : s.transaction.graph.WellFormed) (hrules : s.rules.Built)
    (ht : s.FreshFor c t) (hu : s.FreshFor c u) (hd : (ofConjunction s.transaction c).Gives t d t')
    (hd' : (ofConjunction s.transaction c).Gives u d' u') : s.Concludes d b ↔ s.Concludes d' b := by
  have hpattern : d'.pattern = d.pattern :=
    (DecomposedQuery.pattern_eq hd').trans (DecomposedQuery.pattern_eq hd).symm
  have hqueries := entails_iff_of_gives hg hrules ht hu hd hd'
  constructor
  · exact .of_forall₂ (hqueries.imp fun _ _ h b => (h b).mp) fun v => by rw [hpattern]
  · exact .of_forall₂ (hqueries.flip.imp fun _ _ h b => (h b).mpr) fun v => by rw [hpattern]

/-! ## Patterns and rules to compute with -/

end Setting

/-- The variable is absent, user-defined or one of the first `n` that are generated. -/
def Var.Drawn (n : Nat) (v : Var) : Prop :=
  v.isEmpty = true ∨ v.userDefined = true ∨ v ∈ (List.range n).map Var.generated

instance (n : Nat) (v : Var) : Decidable (v.Drawn n) :=
  inferInstanceAs (Decidable (_ ∨ _))

theorem Var.not_drawn_generated {n k : Nat} (h : n ≤ k) : ¬ (Var.generated k).Drawn n := by
  rintro (hempty | huser | hgenerated)
  · rw [isEmpty_generated] at hempty
    cases hempty
  · cases huser
  · obtain ⟨j, hj, heq⟩ := List.mem_map.mp hgenerated
    obtain rfl := Var.generated_injective heq
    exact absurd (List.mem_range.mp hj) (Nat.not_lt.mpr h)

theorem Atom.Holds.mem_slots {q : AtomicQuery} {w : Var} (h : q.central.Holds w) : w ∈ q.slots := by
  rcases h with rfl | h | ⟨p, hp, rfl⟩
  · exact var_mem_slots
  · rw [(typeVar?_eq_some_iff.mp h).1]
    exact typeVar_mem_slots
  · exact player_mem_slots hp

/-- What is asked of a pattern, of some queries and of the rules, as far as it can be computed: no variable
is absent from the pattern or yet to be generated, and the queries can be planned, have texts of their own
and are, as far as they are equivalent, renamed into each other by unifiers that the rules respect. -/
structure Setting.Regular (s : Setting) (c : Conjunction) (queries : List AtomicQuery) (t : Supply) : Prop where
  present : ∀ st ∈ c.statements, ∀ v ∈ st.subject :: st.properties.flatMap Property.vars, v.isEmpty = false
  pattern : ∀ v ∈ c.vars.toList, v.Drawn t.vars
  heads : ∀ r ∈ s.rules.rules, ∀ v ∈ r.head.slots, v.Drawn t.vars
  bodies : ∀ p ∈ s.rules.bodies, ∀ v ∈ p.slots, v.Drawn t.vars
  searchable : ∀ q ∈ queries ++ s.rules.bodies, ∀ a ∈ q.atoms, a.Searchable
  texts : ∀ q ∈ queries ++ s.rules.bodies, ∀ r ∈ queries ++ s.rules.bodies, q.text = r.text →
    q.toConjunction = r.toConjunction
  unifiers : ∀ q ∈ queries ++ s.rules.bodies, ∀ r ∈ queries ++ s.rules.bodies, q.isEquivalent r = true →
    s.rules.UnifiesWell q r

namespace Setting.Regular

instance (s : Setting) (c : Conjunction) (queries : List AtomicQuery) (t : Supply) :
    Decidable (s.Regular c queries t) :=
  decidable_of_iff ((∀ st ∈ c.statements, ∀ v ∈ st.subject :: st.properties.flatMap Property.vars,
      v.isEmpty = false) ∧
    (∀ v ∈ c.vars.toList, v.Drawn t.vars) ∧ (∀ r ∈ s.rules.rules, ∀ v ∈ r.head.slots, v.Drawn t.vars) ∧
    (∀ p ∈ s.rules.bodies, ∀ v ∈ p.slots, v.Drawn t.vars) ∧
    (∀ q ∈ queries ++ s.rules.bodies, ∀ a ∈ q.atoms, a.Searchable) ∧
    (∀ q ∈ queries ++ s.rules.bodies, ∀ r ∈ queries ++ s.rules.bodies, q.text = r.text →
      q.toConjunction = r.toConjunction) ∧
    -- the unifiers come first: whether relations are equivalent need not be computed where they are right
    ∀ q ∈ queries ++ s.rules.bodies, ∀ r ∈ queries ++ s.rules.bodies, s.rules.UnifiesWell q r ∨
      ¬ q.isEquivalent r = true)
    ⟨fun ⟨h₁, h₂, h₃, h₄, h₅, h₆, h₇⟩ => ⟨h₁, h₂, h₃, h₄, h₅, h₆, fun q hq r hr heq =>
        (h₇ q hq r hr).resolve_right (not_not.mpr heq)⟩,
      fun ⟨h₁, h₂, h₃, h₄, h₅, h₆, h₇⟩ => ⟨h₁, h₂, h₃, h₄, h₅, h₆, fun q hq r hr =>
        (em _).imp_left (h₇ q hq r hr)⟩⟩

variable {s : Setting} {c : Conjunction} {queries : List AtomicQuery} {t : Supply}

theorem made_bodies (hrules : s.rules.CompiledFor s.transaction.graph) :
    ∀ p ∈ s.rules.bodies, p.MadeFor s.transaction.graph := by
  intro p hp
  obtain ⟨r, hr, hp⟩ := List.mem_flatMap.mp hp
  exact hrules.made hr p (.tail _ hp)

theorem freshFor (h : s.Regular c queries t) (hrules : s.rules.CompiledFor s.transaction.graph) :
    s.FreshFor c t where
  present := fun v hv => by
    obtain ⟨st, hst, hv⟩ := DecomposedQuery.exists_mem_of_names hv
    exact h.present st hst v hv
  pattern := fun _ hk hv => Var.not_drawn_generated hk (h.pattern _ hv)
  heads := fun r hr _ hk hholds => Var.not_drawn_generated hk (h.heads r hr _ hholds.mem_slots)
  bodies := fun p hp _ hk hnames => by
    obtain ⟨_, -, hdecomposed⟩ := made_bodies hrules p hp
    exact Var.not_drawn_generated hk (h.bodies p hp _ (mem_slots_of_names hdecomposed hnames))

theorem coherent (h : s.Regular c queries t) (hg : s.transaction.graph.Reachable)
    (hrules : s.rules.CompiledFor s.transaction.graph)
    (hmade : ∀ q ∈ queries, q.MadeFor s.transaction.graph) : s.Coherent (queries ++ s.rules.bodies) where
  reachable := hg
  built := hrules.built
  bodies := fun _ hr _ hp => List.mem_append_right _ (RuleSet.mem_bodies hr hp)
  made := fun q hq => (List.mem_append.mp hq).elim (hmade q) (made_bodies hrules q)
  texts := h.texts
  unifiers := h.unifiers

section

variable {d : DecomposedQuery} {t' t'' : Supply} {as : List Answer} {k : Knowledge}
  (h : s.Regular c d.queries t) (hg : s.transaction.graph.Reachable)
  (hrules : s.rules.CompiledFor s.transaction.graph) (hd : (ofConjunction s.transaction c).Gives t d t')

include h hg hrules hd

theorem coherent_of_gives : s.Coherent (d.queries ++ s.rules.bodies) :=
  h.coherent hg hrules fun _ hq => ⟨_, ⟨[], rfl⟩, decomposed_of_mem_queries hd hq⟩

/-- What a reasoner answers that has resolved nothing before, are conclusions. -/
theorem concludes_of_gives_resolve (hresolve : (Reasoner.resolve s c).Gives s.untaught t as k t'') :
    ∀ a ∈ as, s.Concludes d a.binding :=
  ((h.coherent_of_gives hg hrules hd).concludes_of_gives_resolve hd (fun _ hq => List.mem_append_left _ hq)
    ((h.freshFor hrules).trusts_untaught hg.wellFormed hd) hresolve).2

/-- If such a reasoner comes to no bound on an open transaction, then it answers with all conclusions. -/
theorem exists_resolve_of_unhindered (hopen : s.transaction.isOpen = true)
    (hfree : Reasoner.Unhindered s c s.untaught t) : ∃ as k t'',
      (Reasoner.resolve s c).Gives s.untaught t as k t'' ∧ ∀ b, (∃ a ∈ as, a.binding = b) ↔ s.Concludes d b :=
  (h.coherent_of_gives hg hrules hd).exists_resolve_of_unhindered hd (fun _ hq => List.mem_append_left _ hq)
    ((h.freshFor hrules).trusts_untaught hg.wellFormed hd) hopen h.searchable hfree

end

end Setting.Regular

end GraphInference
