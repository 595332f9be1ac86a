import GraphInference.Proofs.Query.Coverage

/-!
# Decompositions of one pattern

To decompose a pattern draws variables: one for each type that is given by a label and one more for each
attribute that is owned. So two decompositions of a pattern, made at different supplies, consist of queries
that differ in the variables drawn (`Decomposition.twins_of_gives`). The same is true of patterns that
have the players of a relation in different orders, or other types; how the players and the labels of the
types are related is left open here.
-/

namespace GraphInference

/-! ## Shifted variables -/

namespace Var

open Classical in
/-- The variables generated from the `n`-th on, moved so that they are generated from the `m`-th on. -/
noncomputable def shift (n m : Nat) (v : Var) : Var :=
  if h : ∃ j, v = generated (n + j) then generated (m + h.choose) else v

/-- The variable is not generated from the `n`-th or from the `m`-th on. -/
def Old (n m : Nat) (v : Var) : Prop :=
  ∀ k, v = generated k → k < n ∧ k < m

/-- The variable is an old one, or is moved. -/
def Apart (n m : Nat) (v : Var) : Prop :=
  v.Old n m ∨ ∃ j, v = generated (n + j)

variable {n m : Nat} {v w : Var}

theorem shift_generated (n m j : Nat) : shift n m (generated (n + j)) = generated (m + j) := by
  have h : ∃ i, generated (n + j) = generated (n + i) := ⟨j, rfl⟩
  have hchoose := generated_injective h.choose_spec
  rw [shift, dif_pos h]
  congr 1
  omega

theorem Old.shift_eq (h : v.Old n m) : v.shift n m = v :=
  dif_neg fun ⟨j, hj⟩ => absurd (h _ hj).1 (by omega)

theorem Old.apart (h : v.Old n m) : v.Apart n m :=
  .inl h

theorem apart_generated (n m j : Nat) : (generated (n + j)).Apart n m :=
  .inr ⟨j, rfl⟩

theorem old_of_userDefined (h : v.userDefined = true) : v.Old n m := by
  rintro k rfl
  cases h

theorem old_of_isEmpty (h : v.isEmpty = true) : v.Old n m := by
  rintro k rfl
  rw [isEmpty_generated] at h
  cases h

theorem Apart.injective (hv : v.Apart n m) (hw : w.Apart n m) (h : v.shift n m = w.shift n m) : v = w := by
  rcases hv with hv | ⟨i, rfl⟩ <;> rcases hw with hw | ⟨j, rfl⟩
  · rwa [hv.shift_eq, hw.shift_eq] at h
  · rw [hv.shift_eq, shift_generated] at h
    exact absurd (hv _ h).2 (by omega)
  · rw [hw.shift_eq, shift_generated] at h
    exact absurd (hw _ h.symm).2 (by omega)
  · rw [shift_generated, shift_generated] at h
    have := generated_injective h
    congr 1
    omega

/-- An old variable is reached by itself only. -/
theorem Apart.shift_eq_iff (hv : v.Apart n m) (hw : w.Old n m) : v.shift n m = w ↔ v = w := by
  constructor
  · intro h
    exact hv.injective hw.apart (h.trans hw.shift_eq.symm)
  · rintro rfl
    exact hw.shift_eq

theorem userDefined_shift (n m : Nat) (v : Var) : (v.shift n m).userDefined = v.userDefined := by
  unfold shift
  split
  · next h =>
    obtain ⟨j, rfl⟩ := h
    rfl
  · rfl

theorem isEmpty_shift (n m : Nat) (v : Var) : (v.shift n m).isEmpty = v.isEmpty := by
  unfold shift
  split
  · next h =>
    obtain ⟨j, rfl⟩ := h
    rw [isEmpty_generated, isEmpty_generated]
  · rfl

end Var

/-! ## Parallel runs -/

namespace Attempt

variable {α β γ δ : Type} {n m : Nat} {x : Attempt α} {y : Attempt β} {R : α → β → Prop}
  {R' : γ → δ → Prop}

/-- As far as the two attempts succeed, started on the `n`-th and on the `m`-th variable or equally far
behind, they draw equally many variables and their results are related. -/
def Parallel (n m : Nat) (x : Attempt α) (y : Attempt β) (R : α → β → Prop) : Prop :=
  ∀ (j : Nat) (s s' u u' : Supply) (a : α) (b : β), s.vars = n + j → u.vars = m + j → x.Gives s a s' →
    y.Gives u b u' → R a b ∧ ∃ j', s'.vars = n + j' ∧ u'.vars = m + j'

theorem parallel_pure {a : α} {b : β} (h : R a b) : Parallel n m (pure a) (pure b) R := by
  intro j s s' u u' a' b' hs hu hx hy
  obtain ⟨rfl, rfl⟩ := gives_pure.mp hx
  obtain ⟨rfl, rfl⟩ := gives_pure.mp hy
  exact ⟨h, j, hs, hu⟩

theorem Parallel.bind {f : α → Attempt γ} {g : β → Attempt δ} (hxy : Parallel n m x y R)
    (hfg : ∀ a b, R a b → Parallel n m (f a) (g b) R') : Parallel n m (x >>= f) (y >>= g) R' := by
  intro j s s' u u' c d hs hu hx hy
  obtain ⟨a, s₁, ha, hx⟩ := gives_bind.mp hx
  obtain ⟨b, u₁, hb, hy⟩ := gives_bind.mp hy
  obtain ⟨hab, j', hs₁, hu₁⟩ := hxy _ _ _ _ _ _ _ hs hu ha hb
  exact hfg a b hab _ _ _ _ _ _ _ hs₁ hu₁ hx hy

theorem parallel_mapM {Q : α → β → Prop} {f : α → Attempt γ} {g : β → Attempt δ} {l : List α} {l' : List β}
    (hl : List.Forall₂ Q l l') (hfg : ∀ a b, Q a b → Parallel n m (f a) (g b) R') :
    Parallel n m (l.mapM f) (l'.mapM g) (List.Forall₂ R') := by
  induction hl with
  | nil => exact parallel_pure .nil
  | cons hab _ ih =>
    rw [List.mapM_cons, List.mapM_cons]
    exact (hfg _ _ hab).bind fun c d hcd => ih.bind fun cs ds hrest => parallel_pure (.cons hcd hrest)

/-- What draws nothing may be done on either side. -/
theorem parallel_of_eq (hx : ∀ {s a s'}, x.Gives s a s' → s' = s) (hy : ∀ {u b u'}, y.Gives u b u' → u' = u)
    (h : ∀ {s a s' u b u'}, x.Gives s a s' → y.Gives u b u' → R a b) : Parallel n m x y R := by
  intro j s s' u u' a b hs hu ha hb
  exact ⟨h ha hb, j, (hx ha) ▸ hs, (hy hb) ▸ hu⟩

/-- One variable is drawn on each side. -/
theorem parallel_var : Parallel n m (Fresh.var : Fresh Var) (Fresh.var : Fresh Var) fun v w =>
    ∃ j, v = .generated (n + j) ∧ w = .generated (m + j) := by
  intro j s s' u u' v w hs hu hx hy
  obtain ⟨rfl, rfl⟩ := Prod.mk.inj (gives_lift.mp hx)
  obtain ⟨rfl, rfl⟩ := Prod.mk.inj (gives_lift.mp hy)
  exact ⟨⟨j, congrArg _ hs, congrArg _ hu⟩, j + 1, congrArg (· + 1) hs, congrArg (· + 1) hu⟩

end Attempt

/-! ## Twins -/

/-- A player in its role, as a place of a relation atom. -/
def RolePlayer.seat (p : RolePlayer) : Role × Var :=
  (.ofLabel? p.role, p.player)

section Definitions

variable (S : List RolePlayer → List RolePlayer → Prop) (T : Label → Label → Prop)

/-- The properties are the same, or relations whose players are related, or types whose labels are. -/
inductive Property.Twin : Property → Property → Prop where
  | same (p : Property) : Property.Twin p p
  | relation {ps ps' : List RolePlayer} (h : S ps ps') : Property.Twin (.relation ps) (.relation ps')
  | isa {l l' : Label} (h : T l l') : Property.Twin (.isa (.label l)) (.isa (.label l'))

/-- The types that two statements give are the same, or have related labels. -/
inductive TypeRef.Twin : Option TypeRef → Option TypeRef → Prop where
  | same (o : Option TypeRef) : TypeRef.Twin o o
  | label {l l' : Label} (h : T l l') : TypeRef.Twin (some (.label l)) (some (.label l'))

/-- The statements have the same subject, and properties that are twins. -/
structure Statement.Twin (st st' : Statement) : Prop where
  subject : st'.subject = st.subject
  properties : List.Forall₂ (Property.Twin S T) st.properties st'.properties

/-- The statements of the conjunctions are twins. -/
def Conjunction.Twin (c c' : Conjunction) : Prop :=
  List.Forall₂ (Statement.Twin S T) c.statements c'.statements

/-- The types have related labels, and their variables were drawn while the anchors' own were not. -/
structure Anchor.Retyped (n m : Nat) (c c' : Anchor) : Prop where
  label : ∃ l ∈ c.label, ∃ l' ∈ c'.label, T l l'
  var_old : c.var.Old n m
  typeVar_drawn : ∃ j, c.typeVar = .generated (n + j)

/-- The anchors differ in variables that were drawn, in their numbers, and in their types as far as these are
related. -/
structure Anchor.Twin (n m : Nat) (c c' : Anchor) : Prop where
  var : c'.var = c.var.shift n m
  typeVar : c'.typeVar = c.typeVar.shift n m
  label : c'.label = c.label ∨ c.Retyped T n m c'
  var_apart : c.var.Apart n m
  typeVar_apart : c.typeVar.Apart n m

/-- The atoms have anchors that are twins, if they have any, and players that are related. -/
structure Atom.Twin (n m : Nat) (a a' : Atom) : Prop where
  family : a'.family = a.family
  anchors : Option.Rel (Anchor.Twin T n m) a.anchor? a'.anchor?
  players : ∃ ps ps', S ps ps' ∧ (∀ p ∈ ps, p.player.Old n m) ∧ a.players = ps.map RolePlayer.seat ∧
    a'.players = ps'.map RolePlayer.seat

/-- The central atoms are twins, and the predicates ask the same of the same old variables. -/
structure AtomicQuery.Twin (n m : Nat) (q q' : AtomicQuery) : Prop where
  central : q.central.Twin S T n m q'.central
  demands : q'.demands = q.demands
  old : ∀ e ∈ q.demands, e.2.Old n m

end Definitions

section Statements

variable {S : List RolePlayer → List RolePlayer → Prop} {T : Label → Label → Prop} {st st' : Statement}

/-- What neither relations nor types give is the same for twins. -/
theorem Statement.Twin.filterMap_eq {α : Type} {f : Property → Option α} (hf : ∀ ps, f (.relation ps) = none)
    (hf' : ∀ t, f (.isa t) = none) (h : st.Twin S T st') :
    st'.properties.filterMap f = st.properties.filterMap f := by
  have hproperties := h.properties
  generalize st.properties = ps at hproperties ⊢
  generalize st'.properties = ps' at hproperties ⊢
  clear h
  induction hproperties with
  | nil => rfl
  | cons hp _ ih =>
    cases hp with
    | same p => rw [List.filterMap_cons, List.filterMap_cons, ih]
    | relation => rw [List.filterMap_cons, List.filterMap_cons, hf, hf, ih]
    | isa => rw [List.filterMap_cons, List.filterMap_cons, hf', hf', ih]

theorem TypeRef.Twin.eq_none_iff {type type' : Option TypeRef} (h : TypeRef.Twin T type type') :
    type = none ↔ type' = none := by
  cases h with
  | same => exact Iff.rfl
  | label => exact iff_of_false nofun nofun

theorem Statement.Twin.type?_twin (h : st.Twin S T st') : TypeRef.Twin T st.type? st'.type? := by
  unfold Statement.type?
  have hproperties := h.properties
  generalize st.properties = ps at hproperties ⊢
  generalize st'.properties = ps' at hproperties ⊢
  clear h
  induction hproperties with
  | nil => exact .same none
  | @cons p _ _ _ hp _ ih =>
    rw [List.findSome?_cons, List.findSome?_cons]
    cases hp with
    | same =>
      cases p with
      | isa t => exact .same _
      | _ => exact ih
    | relation => exact ih
    | isa h => exact .label h

theorem Statement.Twin.ownerships_eq (h : st.Twin S T st') : st'.ownerships = st.ownerships :=
  h.filterMap_eq (fun _ => rfl) fun _ => rfl

theorem Statement.Twin.players?_rel (hrefl : ∀ ps, S ps ps) (h : st.Twin S T st') :
    Option.Rel S st.players? st'.players? := by
  unfold Statement.players?
  have hproperties := h.properties
  generalize st.properties = ps at hproperties ⊢
  generalize st'.properties = ps' at hproperties ⊢
  clear h
  induction hproperties with
  | nil => exact .none
  | @cons p p' _ _ hp _ ih =>
    rw [List.findSome?_cons, List.findSome?_cons]
    cases hp with
    | same =>
      cases p with
      | relation ps => exact .some (hrefl ps)
      | _ => exact ih
    | relation h => exact .some h
    | isa => exact ih

theorem Statement.Twin.predicates_eq (h : st.Twin S T st') :
    Decomposition.predicates st' = Decomposition.predicates st := by
  unfold Decomposition.predicates Statement.constraints Statement.ids
  rw [h.ownerships_eq, h.subject, h.filterMap_eq (fun _ => rfl) fun _ => rfl,
    h.filterMap_eq (fun _ => rfl) fun _ => rfl]

theorem Conjunction.Twin.predicates_eq {c c' : Conjunction} (h : c.Twin S T c') :
    c'.statements.flatMap Decomposition.predicates = c.statements.flatMap Decomposition.predicates := by
  have h : List.Forall₂ (Statement.Twin S T) c.statements c'.statements := h
  generalize c.statements = sts at h ⊢
  generalize c'.statements = sts' at h ⊢
  induction h with
  | nil => rfl
  | cons hst _ ih => rw [List.flatMap_cons, List.flatMap_cons, hst.predicates_eq, ih]

theorem Conjunction.Twin.refl (c : Conjunction) : c.Twin S T c :=
  List.forall₂_same.mpr fun _ _ => ⟨rfl, List.forall₂_same.mpr fun p _ => .same p⟩

theorem Property.Twin.perm_vars (hperm : ∀ ps ps', S ps ps' → ps.Perm ps') {p p' : Property}
    (h : p.Twin S T p') : p.vars.Perm p'.vars := by
  cases h with
  | same => exact .refl _
  | relation h => exact (hperm _ _ h).map _
  | isa => exact .refl _

theorem Statement.Twin.mem_vars_iff (hperm : ∀ ps ps', S ps ps' → ps.Perm ps') (h : st.Twin S T st')
    {v : Var} : v ∈ st'.vars ↔ v ∈ st.vars := by
  have hvars : List.Forall₂ List.Perm (st.properties.map Property.vars) (st'.properties.map Property.vars) :=
    List.forall₂_map_left_iff.mpr (List.forall₂_map_right_iff.mpr
      (h.properties.imp fun _ _ hp => hp.perm_vars hperm))
  have hmem : v ∈ st'.properties.flatMap Property.vars ↔ v ∈ st.properties.flatMap Property.vars :=
    (List.Perm.flatten_congr hvars).mem_iff.symm
  simp only [Statement.vars, SortedSet.mem_filter, SortedSet.mem_ofList, List.mem_cons, h.subject, hmem]

/-- Twins have the same variables. -/
theorem Conjunction.Twin.mem_vars_iff (hperm : ∀ ps ps', S ps ps' → ps.Perm ps') {c c' : Conjunction}
    (h : c.Twin S T c') {v : Var} : v ∈ c'.vars ↔ v ∈ c.vars := by
  have hmem {c : Conjunction} : v ∈ c.vars ↔ ∃ st ∈ c.statements, v ∈ st.vars := by
    rw [Conjunction.vars, SortedSet.mem_ofList, List.mem_flatMap]
    rfl
  rw [hmem, hmem]
  constructor
  · rintro ⟨st', hst', hv⟩
    obtain ⟨st, hst, hsame⟩ := exists_of_forall₂_of_mem h.flip hst'
    exact ⟨st, hst, (hsame.mem_vars_iff hperm).mp hv⟩
  · rintro ⟨st, hst, hv⟩
    obtain ⟨st', hst', hsame⟩ := exists_of_forall₂_of_mem h hst
    exact ⟨st', hst', (hsame.mem_vars_iff hperm).mpr hv⟩

/-- Of a pattern that names no variable that either supply has yet to generate all variables are old. -/
theorem Conjunction.old_of_mem {c : Conjunction} {n m : Nat} (hn : ∀ k, n ≤ k → .generated k ∉ c.vars)
    (hm : ∀ k, m ≤ k → .generated k ∉ c.vars) {st : Statement} (hst : st ∈ c.statements) :
    ∀ v ∈ st.subject :: st.properties.flatMap Property.vars, v.Old n m := by
  intro v hv
  cases hempty : v.isEmpty with
  | true => exact Var.old_of_isEmpty hempty
  | false =>
    rintro k rfl
    have hmem : .generated k ∈ c.vars := by
      refine SortedSet.mem_ofList.mpr (List.mem_flatMap.mpr ⟨st, hst, SortedSet.mem_filter.mpr ⟨?_, ?_⟩⟩)
      · exact SortedSet.mem_ofList.mpr hv
      · rw [hempty]
        rfl
    exact ⟨Nat.lt_of_not_le fun hk => hn k hk hmem, Nat.lt_of_not_le fun hk => hm k hk hmem⟩

theorem Conjunction.Twin.mem_userVars_iff (hperm : ∀ ps ps', S ps ps' → ps.Perm ps') {c c' : Conjunction}
    (h : c.Twin S T c') {v : Var} : v ∈ c'.userVars ↔ v ∈ c.userVars := by
  rw [Conjunction.userVars, Conjunction.userVars, SortedSet.mem_filter, SortedSet.mem_filter,
    h.mem_vars_iff hperm]

end Statements

namespace Atom.Twin

variable {S : List RolePlayer → List RolePlayer → Prop} {T : Label → Label → Prop} {n m : Nat} {a a' : Atom}
  {g : Graph}

theorem withQuery (h : a.Twin S T n m a') (i i' : QueryId) :
    (a.withQuery i).Twin S T n m (a'.withQuery i') := by
  have hfamily : (a'.withQuery i').family = (a.withQuery i).family := by
    rw [family_withQuery, family_withQuery, h.family]
  have hplayers (a : Atom) (i : QueryId) : (a.withQuery i).players = a.players := by
    cases a <;> rfl
  refine ⟨hfamily, ?_, by rw [hplayers, hplayers]; exact h.players⟩
  have hanchor {c c' : Anchor} (hc : c.Twin T n m c') : Anchor.Twin T n m
      { c with typePredicate := c.typePredicate.map fun p => { p with query := some i }, query := some i }
      { c' with typePredicate := c'.typePredicate.map fun p => { p with query := some i' }, query := some i' } :=
    ⟨hc.var, hc.typeVar, hc.label.imp_right fun h => ⟨h.label, h.var_old, h.typeVar_drawn⟩, hc.var_apart,
      hc.typeVar_apart⟩
  have hmap (a : Atom) (i : QueryId) : (a.withQuery i).anchor? = a.anchor?.map fun c =>
      { c with typePredicate := c.typePredicate.map fun p => { p with query := some i }, query := some i } := by
    cases a <;> rfl
  have hanchors := h.anchors
  rw [hmap, hmap]
  generalize a.anchor? = o at hanchors ⊢
  generalize a'.anchor? = o' at hanchors ⊢
  cases hanchors with
  | none => exact .none
  | some hc => exact .some (hanchor hc)

/-- Central atoms that are twins have anchors that are. -/
theorem exists_anchors (h : a.Twin S T n m a') (ha : a.isPredicate = false) : ∃ c c',
    a.anchor? = some c ∧ a'.anchor? = some c' ∧ c.Twin T n m c' ∧ (a.var = c.var ∧ a.typeVar = c.typeVar) ∧
      a'.var = c'.var ∧ a'.typeVar = c'.typeVar := by
  have hanchor {a : Atom} {c : Anchor} (h : a.anchor? = some c) : a.var = c.var ∧ a.typeVar = c.typeVar := by
    cases a with
    | isa _ | relation _ =>
      obtain rfl := Option.some.inj h
      exact ⟨rfl, rfl⟩
    | _ => cases h
  obtain ⟨c, hc⟩ : ∃ c, a.anchor? = some c := by
    cases a with
    | isa c => exact ⟨c, rfl⟩
    | relation r => exact ⟨r.anchor, rfl⟩
    | _ => cases ha
  have hanchors := h.anchors
  rw [hc] at hanchors
  cases hc' : a'.anchor? with
  | none =>
    rw [hc'] at hanchors
    cases hanchors
  | some c' =>
    rw [hc'] at hanchors
    obtain ⟨hcc'⟩ := hanchors
    exact ⟨c, c', hc, rfl, hcc', hanchor hc, hanchor hc'⟩

theorem isPredicate_eq_false (h : a.Twin S T n m a') (ha : a.isPredicate = false) : a'.isPredicate = false := by
  obtain ⟨_, c', -, hc', -⟩ := h.exists_anchors ha
  cases a' with
  | isa _ | relation _ => rfl
  | _ => cases hc'

theorem var_eq (h : a.Twin S T n m a') (ha : a.isPredicate = false) : a'.var = a.var.shift n m := by
  obtain ⟨c, c', -, -, hcc', ⟨hvar, -⟩, hvar', -⟩ := h.exists_anchors ha
  rw [hvar', hcc'.var, hvar]

theorem typeVar_eq (h : a.Twin S T n m a') (ha : a.isPredicate = false) :
    a'.typeVar = a.typeVar.shift n m := by
  obtain ⟨c, c', -, -, hcc', ⟨-, htype⟩, -, htype'⟩ := h.exists_anchors ha
  rw [htype', hcc'.typeVar, htype]

/-- Twins have the same label, or related labels beside variables that were drawn. -/
theorem label?_cases (h : a.Twin S T n m a') (ha : a.isPredicate = false) : a'.label? = a.label? ∨
    (∃ l ∈ a.label?, ∃ l' ∈ a'.label?, T l l') ∧ a.var.Old n m ∧ ∃ j, a.typeVar = .generated (n + j) := by
  obtain ⟨c, c', hc, hc', hcc', ⟨hvar, htype⟩, -⟩ := h.exists_anchors ha
  rw [Atom.label?, Atom.label?, hc, hc', hvar, htype]
  exact hcc'.label.imp_right fun h => ⟨h.label, h.var_old, h.typeVar_drawn⟩

theorem label?_eq (h : a.Twin S Eq n m a') (ha : a.isPredicate = false) : a'.label? = a.label? := by
  rcases h.label?_cases ha with h | ⟨⟨l, hl, _, hl', rfl⟩, -⟩
  · exact h
  · exact hl'.trans hl.symm

/-- Twins of one label have the same type, asked of the variable that was drawn. -/
theorem typePredicate?_eq (h : a.Twin S T n m a') (ha : a.CentralIn g) (ha' : a'.CentralIn g)
    (hlabel : a'.label? = a.label?) : a'.typePredicate?.map (fun p => (p.id, p.var)) =
      a.typePredicate?.map fun p => (p.id, p.var.shift n m) := by
  obtain ⟨c, c', hc, hc', hcc', -⟩ := h.exists_anchors ha.1
  rw [Atom.label?, Atom.label?, hc, hc', Option.bind_some, Option.bind_some] at hlabel
  rw [Atom.typePredicate?, Atom.typePredicate?, hc, hc', Option.bind_some, Option.bind_some]
  have hresolved := ha.2 c hc
  have hresolved' := ha'.2 c' hc'
  unfold Anchor.ResolvedIn at hresolved hresolved'
  rw [hlabel] at hresolved'
  cases hl : c.label with
  | none =>
    simp only [hl] at hresolved hresolved'
    rw [hresolved, hresolved']
    rfl
  | some l =>
    simp only [hl] at hresolved hresolved'
    obtain ⟨-, -, p, hp, hvar, hid⟩ := hresolved
    obtain ⟨-, -, p', hp', hvar', hid'⟩ := hresolved'
    rw [hp, hp', Option.map_some, Option.map_some, hvar, hvar', hcc'.typeVar,
      Option.some.inj (hid'.symm.trans hid)]

theorem apart (h : a.Twin S T n m a') (ha : a.isPredicate = false) :
    a.var.Apart n m ∧ a.typeVar.Apart n m ∧ ∀ p ∈ a.players, p.2.Old n m := by
  obtain ⟨c, c', -, -, hcc', ⟨hvar, htype⟩, -⟩ := h.exists_anchors ha
  obtain ⟨ps, ps', -, hold, hps, -⟩ := h.players
  refine ⟨hvar ▸ hcc'.var_apart, htype ▸ hcc'.typeVar_apart, fun p hp => ?_⟩
  rw [hps] at hp
  obtain ⟨p', hp', rfl⟩ := List.mem_map.mp hp
  exact hold p' hp'

/-- Twins have the same old variables. -/
theorem mem_vars_iff (h : a.Twin S T n m a') (ha : a.isPredicate = false)
    (hperm : ∀ ps ps', S ps ps' → ps.Perm ps') {v : Var} (hv : v.Old n m) : v ∈ a'.vars ↔ v ∈ a.vars := by
  obtain ⟨hvar, htype, -⟩ := h.apart ha
  obtain ⟨ps, ps', hS, -, hps, hps'⟩ := h.players
  have hplayers : (∃ p ∈ a'.players, p.2 = v) ↔ ∃ p ∈ a.players, p.2 = v := by
    rw [hps, hps']
    simp only [List.mem_map, exists_exists_and_eq_and, (hperm ps ps' hS).mem_iff]
  rw [mem_vars_central_iff ha, mem_vars_central_iff (h.isPredicate_eq_false ha), hplayers, h.var_eq ha,
    h.typeVar_eq ha]
  simp only [@eq_comm _ v, hvar.shift_eq_iff hv, htype.shift_eq_iff hv]

end Atom.Twin

/-! ## Decomposition -/

theorem AtomicQuery.demands_renumber {q : AtomicQuery} {i : QueryId} : (q.renumber i).demands = q.demands := by
  have hone (p : Atom) : ((p.withQuery i).demand?, (p.withQuery i).var) = (p.demand?, p.var) := by
    cases p <;> rfl
  simp only [demands, renumber, List.map_map, Function.comp_def, hone]

theorem forall₂_of_forall₂ {α β γ δ : Type} {R : α → β → Prop} {P : α → γ → Prop} {Q : β → δ → Prop}
    {T : γ → δ → Prop} {l : List α} {l' : List β} {k : List γ} {k' : List δ} (h : List.Forall₂ R l l')
    (hP : List.Forall₂ P l k) (hQ : List.Forall₂ Q l' k')
    (hT : ∀ a b c d, R a b → P a c → Q b d → T c d) : List.Forall₂ T k k' := by
  induction h generalizing k k' with
  | nil =>
    cases hP
    cases hQ
    exact .nil
  | cons hab _ ih =>
    cases hP with
    | cons hac hP =>
      cases hQ with
      | cons hbd hQ => exact .cons (hT _ _ _ _ hab hac hbd) (ih hP hQ)

namespace Decomposition

open Attempt

variable {S : List RolePlayer → List RolePlayer → Prop} {T : Label → Label → Prop} {n m : Nat}
  {t : Transaction}

theorem parallel_anchor {x : Var} {type type' : Option TypeRef} (hx : x.Old n m)
    (hold : ∀ v, type = some (.var v) → v.Old n m) (htype : TypeRef.Twin T type type') :
    Parallel n m (anchor t x type) (anchor t x type') (Anchor.Twin T n m) := by
  have hlabel {l l' : Label} (h : l' = l ∨ T l l') : Parallel n m (anchor t x (some (.label l)))
      (anchor t x (some (.label l'))) (Anchor.Twin T n m) := by
    have hlift : Parallel n m (liftExcept (resolve t l)) (liftExcept (resolve t l')) fun _ _ => True :=
      parallel_of_eq (fun h => (gives_liftExcept.mp h).2.symm) (fun h => (gives_liftExcept.mp h).2.symm)
        fun _ _ => trivial
    refine hlift.bind fun _ _ _ => parallel_var.bind fun v w hvw => parallel_pure ?_
    obtain ⟨j, rfl, rfl⟩ := hvw
    refine ⟨hx.shift_eq.symm, (Var.shift_generated n m j).symm, ?_, hx.apart, Var.apart_generated n m j⟩
    exact h.imp (congrArg some) fun h => ⟨⟨l, rfl, l', rfl, h⟩, hx, j, rfl⟩
  cases htype with
  | same =>
    cases type with
    | none =>
      have hempty : Var.Old n m .empty := Var.old_of_isEmpty rfl
      exact parallel_pure ⟨hx.shift_eq.symm, hempty.shift_eq.symm, .inl rfl, hx.apart, hempty.apart⟩
    | some type =>
      cases type with
      | label l => exact hlabel (.inl rfl)
      | var v =>
        have hv : v.Old n m := hold v rfl
        exact parallel_pure ⟨hx.shift_eq.symm, hv.shift_eq.symm, .inl rfl, hx.apart, hv.apart⟩
  | label h => exact hlabel (.inr h)

/-- To look up the roles of players draws nothing. -/
theorem eq_of_gives_checkRoles {ps : List RolePlayer} {s s' : Supply} {r : PUnit}
    (h : (forIn ps PUnit.unit fun p _ => do
      if let some role := p.role then
        let _ ← (liftExcept (resolve t role) : Attempt _)
        pure (ForInStep.yield PUnit.unit)
      else pure (ForInStep.yield PUnit.unit) : Attempt PUnit).Gives s r s') : s' = s := by
  refine (eq_of_gives_forIn (fun p _ v r w h => ?_) h).symm
  split at h
  · obtain ⟨_, x, hid, h⟩ := gives_bind.mp h
    exact (gives_liftExcept.mp hid).2.trans (gives_pure.mp h).2
  · exact (gives_pure.mp h).2

theorem parallel_relationAtom {st st' : Statement} {ps ps' : List RolePlayer} (hps : S ps ps')
    (hsubject : st'.subject = st.subject) (htype : TypeRef.Twin T st.type? st'.type?)
    (hx : st.subject.Old n m) (hold : ∀ v, st.type? = some (.var v) → v.Old n m)
    (hplayers : ∀ p ∈ ps, p.player.Old n m) :
    Parallel n m (relationAtom t st ps) (relationAtom t st' ps') (Atom.Twin S T n m) := by
  unfold relationAtom
  rw [hsubject]
  refine (parallel_anchor hx hold htype).bind fun c c' hc => ?_
  refine (parallel_of_eq (R := fun _ _ => True) eq_of_gives_checkRoles eq_of_gives_checkRoles
    fun _ _ => trivial).bind fun _ _ _ => parallel_pure ?_
  exact ⟨rfl, .some hc, ps, ps', hps, hplayers, rfl, rfl⟩

theorem parallel_hasAtom (hrefl : ∀ ps, S ps ps) {owner value : Var} {owned : Label}
    (howner : owner.Old n m) (hvalue : value.Old n m) :
    Parallel n m (hasAtom t owner owned value) (hasAtom t owner owned value) (Atom.Twin S T n m) := by
  unfold hasAtom
  split
  · exact fun _ _ _ _ _ _ _ _ _ h => absurd h not_gives_throw
  · refine parallel_var.bind fun v w hvw => parallel_var.bind fun x y hxy => parallel_pure ?_
    obtain ⟨i, rfl, rfl⟩ := hvw
    obtain ⟨j, rfl, rfl⟩ := hxy
    refine ⟨rfl, .some ⟨(Var.shift_generated n m j).symm, (Var.shift_generated n m i).symm, .inl rfl,
      Var.apart_generated n m j, Var.apart_generated n m i⟩, _, _,
      hrefl [⟨some owned.ownerRole, owner⟩, ⟨some owned.valueRole, value⟩], ?_, rfl, rfl⟩
    simpa using ⟨howner, hvalue⟩

variable {st st' : Statement} {c c' : Conjunction} {central central' preds : List Atom} {a a' : Atom}

theorem parallel_centralAtoms (hrefl : ∀ ps, S ps ps) (hst : st.Twin S T st')
    (hold : ∀ v ∈ st.subject :: st.properties.flatMap Property.vars, v.Old n m) :
    Parallel n m (centralAtoms t st) (centralAtoms t st') (List.Forall₂ (Atom.Twin S T n m)) := by
  intro j s s' u u' as bs hs hu hx hy
  obtain ⟨first, s₁, owned, rfl, howned, hfirst⟩ := exists_of_gives_centralAtoms hx
  obtain ⟨first', u₁, owned', rfl, howned', hfirst'⟩ := exists_of_gives_centralAtoms hy
  have hproperty {p : Property} (hp : p ∈ st.properties) {v : Var} (hv : v ∈ p.vars) : v.Old n m :=
    hold v (.tail _ (List.mem_flatMap.mpr ⟨p, hp, hv⟩))
  have htype (v : Var) (hv : st.type? = some (.var v)) : v.Old n m :=
    hproperty (Statement.mem_of_type? hv) (.head _)
  have hsubject : st.subject.Old n m := hold _ (.head _)
  have hplayers?_rel := hst.players?_rel hrefl
  have hrelated : List.Forall₂ (Atom.Twin S T n m) first first' ∧
      ∃ j, s₁.vars = n + j ∧ u₁.vars = m + j := by
    rcases hfirst with ⟨ps, a, hps, rfl, ha⟩ | ⟨type, a, hnone, htype?, rfl, ha⟩ | ⟨hnone, hnotype, rfl, rfl⟩
    · rw [hps] at hplayers?_rel
      rcases hfirst' with ⟨ps', a', hps', rfl, ha'⟩ | ⟨_, _, hnone', -⟩ | ⟨hnone', -⟩
      · rw [hps'] at hplayers?_rel
        obtain ⟨hS⟩ := hplayers?_rel
        obtain ⟨haa', j', hj'⟩ := parallel_relationAtom hS hst.subject hst.type?_twin hsubject htype
          (fun p hp => hproperty (Statement.mem_of_players? hps) (List.mem_map_of_mem hp))
          _ _ _ _ _ _ _ hs hu ha ha'
        exact ⟨.cons haa' .nil, j', hj'⟩
      all_goals
        rw [hnone'] at hplayers?_rel
        cases hplayers?_rel
    · rw [hnone] at hplayers?_rel
      rcases hfirst' with ⟨ps', _, hps', -⟩ | ⟨type', a', -, htype?', rfl, ha'⟩ | ⟨-, hnotype', -⟩
      · rw [hps'] at hplayers?_rel
        cases hplayers?_rel
      · rw [hst.subject, ← htype?'] at ha'
        rw [← htype?] at ha
        obtain ⟨haa', j', hj'⟩ := parallel_anchor (t := t) hsubject htype hst.type?_twin
          _ _ _ _ _ _ _ hs hu ha ha'
        refine ⟨.cons ⟨rfl, .some haa', [], [], hrefl [], ?_, rfl, rfl⟩ .nil, j', hj'⟩
        exact fun _ hp => nomatch hp
      · rw [hst.type?_twin.eq_none_iff.mpr hnotype'] at htype?
        cases htype?
    · rw [hnone] at hplayers?_rel
      rcases hfirst' with ⟨ps', _, hps', -⟩ | ⟨_, _, -, htype?', -⟩ | ⟨-, -, rfl, rfl⟩
      · rw [hps'] at hplayers?_rel
        cases hplayers?_rel
      · rw [hst.type?_twin.eq_none_iff.mp hnotype] at htype?'
        cases htype?'
      · exact ⟨.nil, j, hs, hu⟩
  obtain ⟨hfirsts, j', hs₁, hu₁⟩ := hrelated
  rw [hst.ownerships_eq, hst.subject] at howned'
  have howners : List.Forall₂ (fun o o' => o = o' ∧ o ∈ st.ownerships) st.ownerships st.ownerships :=
    List.forall₂_same.mpr fun o ho => ⟨rfl, ho⟩
  obtain ⟨hatoms, hdrawn⟩ := parallel_mapM howners (fun o o' ⟨heq, ho⟩ => by
      subst heq
      have hvalue := hproperty (Statement.mem_ownerships.mp ho) (.head _)
      exact parallel_hasAtom (T := T) (t := t) hrefl hsubject hvalue) _ _ _ _ _ _ _ hs₁ hu₁ howned howned'
  exact ⟨List.rel_append hfirsts hatoms, hdrawn⟩

variable (hrefl : ∀ ps, S ps ps) (hperm : ∀ ps ps', S ps ps' → ps.Perm ps')

include hrefl hperm

/-- Covering the same predicates leaves twins. -/
theorem twins_cover (hpreds : ∀ p ∈ preds, p.var.Old n m)
    (hcentral : ∀ a ∈ central, a.isPredicate = false)
    (h : List.Forall₂ (Atom.Twin S T n m) central central') :
    List.Forall₂ (Atom.Twin S T n m) (cover central preds) (cover central' preds) := by
  induction preds generalizing central central' with
  | nil => exact h
  | cons p preds ih =>
    obtain ⟨hp, hpreds⟩ := List.forall_mem_cons.mp hpreds
    have hany : (central'.any fun a => a.vars.contains p.var) = central.any fun a => a.vars.contains p.var := by
      clear ih
      induction h with
      | nil => rfl
      | @cons a a' _ _ ha _ ih =>
        obtain ⟨hpredicate, hcentral⟩ := List.forall_mem_cons.mp hcentral
        rw [List.any_cons, List.any_cons, ih hcentral]
        congr 1
        rw [Bool.eq_iff_iff, SortedSet.contains_iff, SortedSet.contains_iff]
        exact ha.mem_vars_iff hpredicate hperm hp
    rw [cover, cover, hany]
    split
    · exact ih hpreds hcentral h
    · refine ih hpreds (fun a ha => ?_) (List.rel_append h (.cons ?_ .nil))
      · rcases List.mem_append.mp ha with ha | ha
        · exact hcentral a ha
        · obtain rfl := List.mem_singleton.mp ha
          rfl
      · have hempty : Var.Old n m .empty := Var.old_of_isEmpty rfl
        refine ⟨rfl, .some ⟨hp.shift_eq.symm, hempty.shift_eq.symm, .inl rfl, hp.apart, hempty.apart⟩, [], [],
          hrefl [], ?_, rfl, rfl⟩
        exact List.forall_mem_nil _

/-- Patterns whose statements are twins, and which name no variable that either supply has yet to generate,
are decomposed into queries that are. -/
theorem twins_of_gives {d d' : DecomposedQuery} {s s' u u' : Supply} (hc : c.Twin S T c')
    (hd : (ofConjunction t c).Gives s d s') (hd' : (ofConjunction t c').Gives u d' u')
    (hs : ∀ k, s.vars ≤ k → .generated k ∉ c.vars) (hu : ∀ k, u.vars ≤ k → .generated k ∉ c.vars) :
    List.Forall₂ (AtomicQuery.Twin S T s.vars u.vars) d.queries d'.queries := by
  have hold {st : Statement} (hst : st ∈ c.statements) := Conjunction.old_of_mem hs hu hst
  have hpredsOld : ∀ p ∈ c.statements.flatMap predicates, p.var.Old s.vars u.vars := by
    intro p hp
    obtain ⟨st, hst, hp⟩ := List.mem_flatMap.mp hp
    exact hold hst p.var (DecomposedQuery.mem_of_names (DecomposedQuery.names_var_of_mem_predicates hp))
  obtain ⟨central, v, hcentral, -, hqueries⟩ := exists_of_gives_ofConjunction hd
  obtain ⟨central', v', hcentral', -, hqueries'⟩ := exists_of_gives_ofConjunction hd'
  have hstatements : List.Forall₂ (fun st st' => st.Twin S T st' ∧ st ∈ c.statements)
      c.statements c'.statements :=
    forall₂_imp_of_mem hc fun _ hmem _ h => ⟨h, hmem⟩
  obtain ⟨hatoms, -⟩ := parallel_mapM hstatements (fun st st' ⟨hst, hmem⟩ =>
    parallel_centralAtoms (t := t) hrefl hst (hold hmem)) 0 _ _ _ _ _ _ rfl rfl hcentral hcentral'
  have hcentralIn : ∀ a ∈ central.flatten, a.isPredicate = false := by
    intro a ha
    obtain ⟨as, has, ha⟩ := List.mem_flatten.mp ha
    obtain ⟨st, -, _, _, hst⟩ := exists_of_gives_mapM hcentral has
    exact (centralIn_of_gives_centralAtoms hst a ha).1
  have hflatten : List.Forall₂ (Atom.Twin S T s.vars u.vars) central.flatten central'.flatten :=
    List.rel_flatten hatoms
  have hcoverIn : ∀ a ∈ cover central.flatten (c.statements.flatMap predicates), a.isPredicate = false := by
    intro a ha
    rcases mem_of_mem_cover ha with ha | ⟨_, -, rfl⟩
    · exact hcentralIn a ha
    · rfl
  have hcover : List.Forall₂ (fun a a' => a.Twin S T s.vars u.vars a' ∧ a.isPredicate = false)
      (cover central.flatten (c.statements.flatMap predicates))
      (cover central'.flatten (c.statements.flatMap predicates)) :=
    forall₂_imp_of_mem (twins_cover hrefl hperm hpredsOld hcentralIn hflatten)
      fun a ha _ h => ⟨h, hcoverIn a ha⟩
  rw [hc.predicates_eq] at hqueries'
  refine forall₂_of_forall₂ hcover hqueries hqueries' ?_
  rintro a a' q q' ⟨haa', ha⟩ ⟨id, rfl⟩ ⟨id', rfl⟩
  have hattached : ((c.statements.flatMap predicates).filter fun p => a'.vars.contains p.var) =
      (c.statements.flatMap predicates).filter fun p => a.vars.contains p.var := by
    refine List.filter_congr fun p hp => ?_
    rw [Bool.eq_iff_iff, SortedSet.contains_iff, SortedSet.contains_iff]
    exact haa'.mem_vars_iff ha hperm (hpredsOld p hp)
  refine ⟨haa'.withQuery id id', ?_, fun e he => ?_⟩
  · rw [AtomicQuery.demands_renumber, AtomicQuery.demands_renumber]
    exact congrArg (List.map fun p => (p.demand?, p.var)) hattached
  · rw [AtomicQuery.demands_renumber] at he
    obtain ⟨p, hp, rfl⟩ := List.mem_map.mp he
    exact hpredsOld p (List.mem_of_mem_filter hp)

end Decomposition

/-! ## Renamings -/

namespace AtomicQuery.Twin

variable {S : List RolePlayer → List RolePlayer → Prop} {T : Label → Label → Prop} {n m : Nat}
  {q q' : AtomicQuery} {g : Graph}

/-- Every variable of a twin is old or moved. -/
theorem apart (h : q.Twin S T n m q') (hq : q.central.isPredicate = false) : ∀ v ∈ q.slots, v.Apart n m := by
  obtain ⟨hvar, htype, hplayers⟩ := h.central.apart hq
  intro v hv
  rcases mem_slots.mp hv with rfl | rfl | ⟨p, hp, rfl⟩ | ⟨e, he, rfl⟩
  · exact hvar
  · exact htype
  · exact (hplayers p hp).apart
  · exact (h.old e he).apart

/-- Twins of one label are renamings of each other. -/
theorem renames (h : q.Twin S T n m q') (hq : q.Decomposed g) (hq' : q'.Decomposed g)
    (hlabel : q'.central.label? = q.central.label?) (hperm : ∀ ps ps', S ps ps' → ps.Perm ps') :
    Renames (Var.shift n m) q q' := by
  have hcentral := hq.central.1
  have hapart := h.apart hcentral
  have hold {κ : Type} {l : List (κ × Var)} (hl : ∀ p ∈ l, p.2.Old n m) : relabel (Var.shift n m) l = l := by
    refine (List.map_congr_left fun p hp => ?_).trans (List.map_id l)
    rw [(hl p hp).shift_eq]
    rfl
  refine ⟨fun v hv w hw => (hapart v hv).injective (hapart w hw), fun v _ => v.userDefined_shift n m,
    fun v _ => v.isEmpty_shift n m, h.central.family, h.central.var_eq hcentral, h.central.typeVar_eq hcentral,
    h.central.typePredicate?_eq hq.central hq'.central hlabel, ?_, ?_⟩
  · obtain ⟨ps, ps', hS, -, hps, hps'⟩ := h.central.players
    rw [hold (h.central.apart hcentral).2.2, hps, hps']
    exact ((hperm ps ps' hS).symm.map _)
  · rw [hold h.old, h.demands]

end AtomicQuery.Twin

end GraphInference
