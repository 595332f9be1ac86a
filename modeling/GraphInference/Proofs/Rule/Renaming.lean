import GraphInference.Proofs.Pattern.Rereading
import GraphInference.Proofs.Query.Coverage
import GraphInference.Proofs.Query.Names
import GraphInference.Proofs.Resolution.Closure

/-!
# Renamed rules

A one-to-one renaming of the user-defined variables of a rule extends to a permutation of all variables
(`Unifier.Permutes`). Decomposition commutes with it: a renamed pattern has the renamed queries
(`Decomposition.carries_ofConjunction`), with the same variables drawn. So renamed rules are compiled into
rules with renamed heads and bodies (`RuleSet.exists_gives_ofRules`).
-/

namespace GraphInference

open Attempt

/-! ## Permutations of variables -/

/-- The unifier renames user-defined variables one to one and leaves all others alone. -/
structure Unifier.Permutes (u : Unifier) : Prop where
  injective : Function.Injective u.apply
  userDefined : ∀ v, (u.apply v).userDefined = v.userDefined
  isEmpty : ∀ v, (u.apply v).isEmpty = v.isEmpty
  fixed : ∀ v, v.userDefined = false → u.apply v = v

namespace Unifier

variable {u : Unifier} {σ : Var → Var} {vs : List Var}

theorem permutes_empty : Permutes {} :=
  ⟨fun _ _ h => h, fun _ => rfl, fun _ => rfl, fun _ _ => rfl⟩

theorem Permutes.renaming (h : u.Permutes) (vs : List Var) : Renaming u.apply vs :=
  ⟨fun _ _ _ _ heq => h.injective heq, fun v _ => h.userDefined v, fun v _ => h.isEmpty v⟩

theorem Permutes.apply_empty (h : u.Permutes) : u.apply .empty = .empty :=
  h.fixed _ rfl

/-- A unifier that lists the images of variables applies like the function that they are images under. -/
theorem apply_map (σ : Var → Var) (vs : List Var) (v : Var) :
    (⟨vs.map fun v => (v, σ v)⟩ : Unifier).apply v = if v ∈ vs then σ v else v := by
  have hget : (⟨vs.map fun v => (v, σ v)⟩ : Unifier).get? v = if v ∈ vs then some (σ v) else none := by
    unfold get?
    induction vs with
    | nil => rfl
    | cons w vs ih =>
      by_cases hv : w = v
      · subst hv
        simp
      · rw [List.map_cons, List.find?_cons_of_neg (by simpa using hv), ih]
        simp [List.mem_cons, eq_comm (a := v), hv]
  unfold apply
  rw [hget]
  split <;> rfl

/-- What permutes some user-defined variables among themselves makes a permutation. -/
theorem permutes_map (hinj : Set.InjOn σ {v | v ∈ vs}) (hvs : ∀ v ∈ vs, v.userDefined = true ∧ v.isEmpty = false)
    (hσ : ∀ v ∈ vs, σ v ∈ vs) : (⟨vs.map fun v => (v, σ v)⟩ : Unifier).Permutes := by
  have hin {v : Var} (hv : v ∈ vs) : (⟨vs.map fun v => (v, σ v)⟩ : Unifier).apply v = σ v := by
    rw [apply_map, if_pos hv]
  have hout {v : Var} (hv : v ∉ vs) : (⟨vs.map fun v => (v, σ v)⟩ : Unifier).apply v = v := by
    rw [apply_map, if_neg hv]
  refine ⟨fun v w heq => ?_, fun v => ?_, fun v => ?_, fun v hv => hout fun hmem => ?_⟩
  · by_cases hv : v ∈ vs <;> by_cases hw : w ∈ vs
    · rw [hin hv, hin hw] at heq
      exact hinj hv hw heq
    · rw [hin hv, hout hw] at heq
      exact absurd (heq ▸ hσ v hv) hw
    · rw [hout hv, hin hw] at heq
      exact absurd (heq ▸ hσ w hw) hv
    · rwa [hout hv, hout hw] at heq
  · by_cases hv : v ∈ vs
    · rw [hin hv, (hvs v hv).1, (hvs _ (hσ v hv)).1]
    · rw [hout hv]
  · by_cases hv : v ∈ vs
    · rw [hin hv, (hvs v hv).2, (hvs _ (hσ v hv)).2]
    · rw [hout hv]
  · rw [(hvs v hmem).1] at hv
    cases hv

/-- A one-to-one renaming of some user-defined variables extends to a permutation. -/
theorem exists_permutes (σ : Var → Var) (vs : List Var) (hinj : Set.InjOn σ {v | v ∈ vs})
    (hvs : ∀ v ∈ vs, v.userDefined = true ∧ v.isEmpty = false)
    (hσ : ∀ v ∈ vs, (σ v).userDefined = true ∧ (σ v).isEmpty = false) :
    ∃ u : Unifier, u.Permutes ∧ ∀ v ∈ vs, u.apply v = σ v := by
  -- the variables and their images are finitely many, and so what is left of them pairs off
  let S : Finset Var := vs.toFinset ∪ vs.toFinset.image σ
  have hS {v : Var} (hv : v ∈ S) : v.userDefined = true ∧ v.isEmpty = false := by
    rcases Finset.mem_union.mp hv with hv | hv
    · exact hvs v (List.mem_toFinset.mp hv)
    · obtain ⟨w, hw, rfl⟩ := Finset.mem_image.mp hv
      exact hσ w (List.mem_toFinset.mp hw)
  obtain ⟨e, he⟩ := Set.MapsTo.exists_equiv_extend_of_card_eq (α := S) (t := S) (Fintype.card_coe S)
    (f := fun v => σ v.1) (s := {v | v.1 ∈ vs})
    (fun v hv => Finset.mem_union_right _ (Finset.mem_image_of_mem σ (List.mem_toFinset.mpr hv)))
    (fun v hv w hw heq => Subtype.ext (hinj hv hw heq))
  let τ (v : Var) : Var := if h : v ∈ S then e ⟨v, h⟩ else v
  have hτ {v : Var} (h : v ∈ S) : τ v = e ⟨v, h⟩ := dif_pos h
  refine ⟨⟨S.toList.map fun v => (v, τ v)⟩, permutes_map (fun v hv w hw heq => ?_)
    (fun v hv => hS (Finset.mem_toList.mp hv)) (fun v hv => Finset.mem_toList.mpr ?_), fun v hv => ?_⟩
  · have hv : v ∈ S := Finset.mem_toList.mp hv
    have hw : w ∈ S := Finset.mem_toList.mp hw
    rw [hτ hv, hτ hw] at heq
    exact congrArg Subtype.val (e.injective (Subtype.ext heq))
  · rw [hτ (Finset.mem_toList.mp hv)]
    exact (e ⟨v, Finset.mem_toList.mp hv⟩).2
  · have hmem : v ∈ S := Finset.mem_union_left _ (List.mem_toFinset.mpr hv)
    rw [apply_map, if_pos (Finset.mem_toList.mpr hmem), hτ hmem]
    exact he ⟨v, hmem⟩ hv

end Unifier

/-! ## Renamed queries -/

section Renamed

variable {u : Unifier} {a : Atom} {q : AtomicQuery}

namespace Atom

theorem family_rename : (a.rename u).family = a.family := by
  cases a <;> rfl

theorem typeId?_rename : (a.rename u).typeId? = a.typeId? := by
  cases a with
  | isa _ | relation _ => exact Anchor.typeId?_rename
  | _ => rfl

theorem label?_rename : (a.rename u).label? = a.label? := by
  cases a <;> rfl

theorem demand?_rename : (a.rename u).demand? = a.demand? := by
  cases a <;> rfl

theorem withQuery_rename {i : QueryId} : (a.rename u).withQuery i = (a.withQuery i).rename u := by
  cases a <;> simp [rename, withQuery, RelationAtom.rename, Anchor.rename, Function.comp_def]

theorem typePredicate?_rename :
    (a.rename u).typePredicate? = a.typePredicate?.map fun p => { p with var := u.apply p.var } := by
  cases a <;> rfl

/-- The renamed atom has the variables of the atom under their new names. -/
theorem contains_vars_rename (hu : u.Permutes) {v : Var} :
    (a.rename u).vars.contains (u.apply v) = a.vars.contains v := by
  rw [Bool.eq_iff_iff, SortedSet.contains_iff, SortedSet.contains_iff, mem_vars_rename (hu.renaming _)]
  exact ⟨fun ⟨x, hx, heq⟩ => hu.injective heq ▸ hx, fun hv => ⟨v, hv, rfl⟩⟩

end Atom

def DecomposedQuery.rename (d : DecomposedQuery) (u : Unifier) : DecomposedQuery :=
  ⟨d.pattern.mapVars u.apply, d.queries.map (·.rename u)⟩

theorem AtomicQuery.renumber_rename {i : QueryId} : (q.rename u).renumber i = (q.renumber i).rename u := by
  simp [rename, renumber, Atom.withQuery_rename]

namespace AtomicQuery

/-- To rename nothing changes nothing, as an absent type variable is the empty one, and the predicates are on
variables of the central atom. -/
structure Tidy (q : AtomicQuery) : Prop where
  rename_empty : q.rename {} = q
  attached : q.IsAttached

theorem demands_rename : (q.rename u).demands = relabel u.apply q.demands := by
  simp [demands, rename, relabel, Atom.demand?_rename, Atom.var_rename, Function.comp_def]

theorem Tidy.typeVar_rename (hq : q.Tidy) (hu : u.Permutes) :
    (q.central.rename u).typeVar = u.apply q.central.typeVar := by
  rw [Atom.typeVar_rename]
  split
  · next hempty =>
    have hself : (q.central.rename {}).typeVar = q.central.typeVar := congrArg (·.central.typeVar) hq.rename_empty
    rw [Atom.typeVar_rename, if_pos hempty] at hself
    rw [← hself, hu.apply_empty]
  · rfl

/-- A permutation of the variables is a renaming into the query with its variables permuted. -/
theorem Tidy.renames_rename (hq : q.Tidy) (hu : u.Permutes) : Renames u.apply q (q.rename u) where
  injective := fun _ _ _ _ h => hu.injective h
  userDefined := fun v _ => hu.userDefined v
  absent := fun v _ => hu.isEmpty v
  family := Atom.family_rename
  var := Atom.var_rename
  typeVar := hq.typeVar_rename hu
  type := by
    rw [rename, Atom.typePredicate?_rename, Option.map_map]
    rfl
  players := List.Perm.of_eq Atom.players_rename
  demands := List.Perm.of_eq demands_rename

end AtomicQuery

end Renamed

/-! ## Renamed statements -/

namespace Statement

variable {ρ : Var → Var} {st : Statement}

theorem type?_mapVars : (st.mapVars ρ).type? = st.type?.map (·.mapVars ρ) := by
  have hone (p : Property) : (p.mapVars ρ).type? = p.type?.map (·.mapVars ρ) := by
    cases p <;> rfl
  rw [type?, type?, List.map_findSome?, mapVars, List.findSome?_map]
  exact congrArg (List.findSome? · _) (funext hone)

theorem players?_mapVars : (st.mapVars ρ).players? = st.players?.map (List.map (·.mapVars ρ)) := by
  have hone (p : Property) : (p.mapVars ρ).players? = p.players?.map (List.map (·.mapVars ρ)) := by
    cases p <;> rfl
  rw [players?, players?, List.map_findSome?, mapVars, List.findSome?_map]
  exact congrArg (List.findSome? · _) (funext hone)

theorem ownerships_mapVars : (st.mapVars ρ).ownerships = st.ownerships.map fun o => (o.1, ρ o.2.1, o.2.2) := by
  have hone (p : Property) : (p.mapVars ρ).has? = p.has?.map fun o => (o.1, ρ o.2.1, o.2.2) := by
    cases p <;> rfl
  rw [ownerships, ownerships, List.map_filterMap, mapVars, List.filterMap_map]
  exact congrArg (List.filterMap · _) (funext hone)

theorem constraints_mapVars : (st.mapVars ρ).constraints = st.constraints := by
  have hone (p : Property) : (p.mapVars ρ).value? = p.value? := by
    cases p <;> rfl
  rw [constraints, constraints, mapVars, List.filterMap_map]
  exact congrArg (List.filterMap · _) (funext hone)

theorem ids_mapVars : (st.mapVars ρ).ids = st.ids := by
  have hone (p : Property) : (p.mapVars ρ).id? = p.id? := by
    cases p <;> rfl
  rw [ids, ids, mapVars, List.filterMap_map]
  exact congrArg (List.filterMap · _) (funext hone)

end Statement

theorem Conjunction.mapVars_id {c : Conjunction} : c.mapVars (Unifier.apply {}) = c := by
  have hproperty (p : Property) : p.mapVars (Unifier.apply {}) = p := by
    cases p with
    | isa t => cases t <;> rfl
    | relation ps => exact congrArg Property.relation (List.map_id' ps)
    | _ => rfl
  have hstatement (st : Statement) : st.mapVars (Unifier.apply {}) = st :=
    congrArg (Statement.mk st.subject) (List.map_id'' hproperty st.properties)
  exact congrArg Conjunction.mk (List.map_id'' hstatement c.statements)

/-! ## Decomposition -/

namespace Attempt

variable {α β γ δ : Type} {x : Attempt α} {y : Attempt β} {f : α → β} {g : γ → δ}

/-- What the first attempt gives, the second one gives in other form, drawing as many variables. -/
def Carries (x : Attempt α) (y : Attempt β) (f : α → β) : Prop :=
  ∀ s a t, x.Gives s a t → y.Gives s (f a) t

theorem carries_pure {a : α} {b : β} (h : f a = b) : Carries (pure a) (pure b) f := by
  intro s a' t hx
  obtain ⟨rfl, rfl⟩ := gives_pure.mp hx
  exact gives_pure.mpr ⟨h.symm, rfl⟩

theorem carries_self (x : Attempt α) : Carries x x id :=
  fun _ _ _ h => h

theorem Carries.bind {k : α → Attempt γ} {l : β → Attempt δ} (hxy : Carries x y f)
    (hkl : ∀ s a t, x.Gives s a t → Carries (k a) (l (f a)) g) : Carries (x >>= k) (y >>= l) g := by
  intro s c t h
  obtain ⟨a, u, ha, h⟩ := gives_bind.mp h
  exact gives_bind.mpr ⟨f a, u, hxy s a u ha, hkl s a u ha u c t h⟩

theorem carries_mapM {k : α → Attempt γ} {k' : β → Attempt δ} {l : List α}
    (h : ∀ a ∈ l, Carries (k a) (k' (f a)) g) : Carries (l.mapM k) ((l.map f).mapM k') (List.map g) := by
  induction l with
  | nil => exact carries_pure rfl
  | cons a l ih =>
    obtain ⟨ha, hl⟩ := List.forall_mem_cons.mp h
    rw [List.map_cons, List.mapM_cons, List.mapM_cons]
    exact ha.bind fun _ c _ _ => (ih hl).bind fun _ cs _ _ => carries_pure rfl

end Attempt

namespace Decomposition

variable {t : Transaction} {u : Unifier} {st : Statement} {c : Conjunction}

theorem apply_of_gives_var (hu : u.Permutes) {s s' : Supply} {v : Var}
    (h : Attempt.Gives (Fresh.var : Fresh Var) s v s') : u.apply v = v ∧ v.isEmpty = false := by
  obtain ⟨rfl, -⟩ := Prod.mk.inj (gives_lift.mp h)
  exact ⟨hu.fixed _ rfl, Var.isEmpty_generated _⟩

theorem carries_anchor (hu : u.Permutes) (v : Var) {type : Option TypeRef}
    (htype : ∀ w, type = some (.var w) → w.isEmpty = false) :
    Carries (anchor t v type) (anchor t (u.apply v) (type.map (·.mapVars u.apply))) (·.rename u) := by
  cases type with
  | none => exact carries_pure rfl
  | some type =>
    cases type with
    | label l =>
      refine (carries_self (liftExcept (resolve t l))).bind fun _ id _ _ =>
        (carries_self (Fresh.var : Fresh Var)).bind fun _ w _ hw => carries_pure ?_
      obtain ⟨hfixed, hpresent⟩ := apply_of_gives_var hu hw
      simp [Anchor.rename, hfixed, hpresent]
    | var w =>
      refine carries_pure ?_
      simp [Anchor.rename, htype w rfl]

theorem carries_relationAtom (hu : u.Permutes) (ps : List RolePlayer)
    (htype : ∀ w, st.type? = some (.var w) → w.isEmpty = false) :
    Carries (relationAtom t st ps) (relationAtom t (st.mapVars u.apply) (ps.map (·.mapVars u.apply)))
      (·.rename u) := by
  unfold relationAtom
  rw [Statement.type?_mapVars]
  refine (carries_anchor hu st.subject htype).bind fun _ a _ _ => ?_
  rw [List.forIn_map]
  refine (carries_self _).bind fun _ _ _ _ => carries_pure ?_
  simp [Atom.rename, RelationAtom.rename, RolePlayer.mapVars, Function.comp_def]

theorem carries_hasAtom (hu : u.Permutes) (owner value : Var) (owned : Label) :
    Carries (hasAtom t owner owned value) (hasAtom t (u.apply owner) owned (u.apply value)) (·.rename u) := by
  unfold hasAtom
  split
  · exact fun _ _ _ h => absurd h not_gives_throw
  · next id hid =>
    refine (carries_self (Fresh.var : Fresh Var)).bind fun _ v _ hv =>
      (carries_self (Fresh.var : Fresh Var)).bind fun _ w _ hw => carries_pure ?_
    obtain ⟨hv, hpresent⟩ := apply_of_gives_var hu hv
    obtain ⟨hw, -⟩ := apply_of_gives_var hu hw
    simp [Atom.rename, RelationAtom.rename, Anchor.rename, hv, hw, hpresent]

theorem carries_centralAtoms (hu : u.Permutes)
    (hpresent : ∀ v ∈ st.subject :: st.properties.flatMap Property.vars, v.isEmpty = false) :
    Carries (centralAtoms t st) (centralAtoms t (st.mapVars u.apply)) (List.map (·.rename u)) := by
  have htype (w : Var) (hw : st.type? = some (.var w)) : w.isEmpty = false :=
    hpresent w (.tail _ (List.mem_flatMap.mpr ⟨_, Statement.mem_of_type? hw, .head _⟩))
  have howned : Carries (st.ownerships.mapM fun o => hasAtom t st.subject o.1 o.2.1)
      ((st.mapVars u.apply).ownerships.mapM fun o => hasAtom t (u.apply st.subject) o.1 o.2.1)
      (List.map (·.rename u)) := by
    rw [Statement.ownerships_mapVars]
    exact carries_mapM fun o _ => carries_hasAtom hu st.subject o.2.1 o.1
  have hrest (first : List Atom) : Carries
      (do
        let owned ← st.ownerships.mapM fun o => hasAtom t st.subject o.1 o.2.1
        return first ++ owned)
      (do
        let owned ← (st.mapVars u.apply).ownerships.mapM fun o => hasAtom t (u.apply st.subject) o.1 o.2.1
        return first.map (·.rename u) ++ owned) (List.map (·.rename u)) :=
    howned.bind fun _ _ _ _ => carries_pure List.map_append
  unfold centralAtoms
  dsimp only
  have hempty : (st.mapVars u.apply).properties.isEmpty = st.properties.isEmpty := List.isEmpty_map
  rw [hempty, Statement.players?_mapVars, Statement.type?_mapVars]
  split
  · exact fun _ _ _ h => absurd (gives_bind.mp h).choose_spec.choose_spec.1 not_gives_throw
  · cases hplayers : st.players? with
    | some ps =>
      exact (carries_relationAtom hu ps htype).bind fun _ a _ _ => hrest [a]
    | none =>
      cases htype? : st.type? with
      | some type =>
        have hanchor := carries_anchor (t := t) hu st.subject htype
        rw [htype?] at hanchor
        exact hanchor.bind fun _ a _ _ => hrest [.isa a]
      | none => exact hrest []

theorem predicates_mapVars : predicates (st.mapVars u.apply) = (predicates st).map (·.rename u) := by
  unfold predicates
  rw [Statement.ownerships_mapVars, Statement.constraints_mapVars, Statement.ids_mapVars, List.filterMap_map]
  simp only [List.map_append, List.map_filterMap, List.map_map, Option.map_map, Function.comp_def]
  rfl

theorem cover_rename (hu : u.Permutes) (central preds : List Atom) :
    cover (central.map (·.rename u)) (preds.map (·.rename u)) = (cover central preds).map (·.rename u) := by
  induction preds generalizing central with
  | nil => rfl
  | cons p preds ih =>
    have hany : ((central.map (·.rename u)).any fun a => a.vars.contains (p.rename u).var) =
        central.any fun a => a.vars.contains p.var := by
      rw [List.any_map]
      refine congrArg central.any (funext fun a => ?_)
      rw [Function.comp_apply, Atom.var_rename, Atom.contains_vars_rename hu]
    rw [List.map_cons, cover, cover, hany]
    split
    · exact ih central
    · rw [← ih (central ++ [Atom.untyped p.var]), List.map_append, Atom.var_rename]
      rfl

theorem run_mapM_attach_rename (hu : u.Permutes) (preds atoms : List Atom) (s : Supply) :
    ((atoms.map (·.rename u)).mapM (attach (preds.map (·.rename u)))).run s =
      (((atoms.mapM (attach preds)).run s).1.map (·.rename u), ((atoms.mapM (attach preds)).run s).2) := by
  have hone (a : Atom) (s : Supply) : (attach (preds.map (·.rename u)) (a.rename u)).run s =
      (((attach preds a).run s).1.rename u, ((attach preds a).run s).2) := by
    have hfilter : (preds.map (·.rename u)).filter (fun p => (a.rename u).vars.contains p.var) =
        (preds.filter fun p => a.vars.contains p.var).map (·.rename u) := by
      rw [List.filter_map]
      refine congrArg _ (List.filter_congr fun p _ => ?_)
      rw [Function.comp_apply, Atom.var_rename, Atom.contains_vars_rename hu]
    unfold attach
    rw [hfilter]
    exact congrArg (·, _) (AtomicQuery.renumber_rename
      (q := ⟨default, a, preds.filter fun p => a.vars.contains p.var⟩))
  induction atoms generalizing s with
  | nil => rfl
  | cons a atoms ih => rw [List.map_cons, Fresh.run_mapM_cons, Fresh.run_mapM_cons, hone, ih, List.map_cons]

/-- A renamed pattern is decomposed into the renamed queries. -/
theorem carries_ofConjunction (hu : u.Permutes) (hpresent : ∀ st ∈ c.statements,
    ∀ v ∈ st.subject :: st.properties.flatMap Property.vars, v.isEmpty = false) :
    Carries (ofConjunction t c) (ofConjunction t (c.mapVars u.apply)) (·.rename u) := by
  have hatoms : Carries (c.statements.mapM (centralAtoms t))
      ((c.mapVars u.apply).statements.mapM (centralAtoms t)) (List.map (List.map (·.rename u))) :=
    carries_mapM fun st hst => carries_centralAtoms hu (hpresent st hst)
  have hpredicates : (c.mapVars u.apply).statements.flatMap predicates =
      (c.statements.flatMap predicates).map (·.rename u) := by
    rw [Conjunction.mapVars, List.flatMap_map, List.map_flatMap]
    exact congrArg (List.flatMap · _) (funext fun st => predicates_mapVars)
  unfold ofConjunction
  dsimp only
  have hempty : (c.mapVars u.apply).statements.isEmpty = c.statements.isEmpty := List.isEmpty_map
  rw [hempty, hpredicates]
  split
  · exact fun _ _ _ h => absurd (gives_bind.mp h).choose_spec.choose_spec.1 not_gives_throw
  · refine hatoms.bind fun _ central _ _ => ?_
    have hattach : Carries
        (((cover central.flatten (c.statements.flatMap predicates)).mapM
          (attach (c.statements.flatMap predicates)) : Fresh _) : Attempt _)
        (((cover (central.map (List.map (·.rename u))).flatten
          ((c.statements.flatMap predicates).map (·.rename u))).mapM
          (attach ((c.statements.flatMap predicates).map (·.rename u))) : Fresh _) : Attempt _)
        (List.map (·.rename u)) := by
      intro s qs s' h
      rw [← List.map_flatten, cover_rename hu]
      refine gives_lift.mpr ((run_mapM_attach_rename hu _ _ s).trans ?_)
      rw [gives_lift.mp h]
    exact hattach.bind fun _ _ _ _ => carries_pure rfl

/-- The queries of a pattern without absent variables are tidy. -/
theorem tidy_of_gives {d : DecomposedQuery} {s s' : Supply} (hpresent : ∀ st ∈ c.statements,
    ∀ v ∈ st.subject :: st.properties.flatMap Property.vars, v.isEmpty = false)
    (hd : (ofConjunction t c).Gives s d s') : ∀ q ∈ d.queries, q.Tidy := by
  have hgives := carries_ofConjunction Unifier.permutes_empty hpresent s d s' hd
  rw [Conjunction.mapVars_id (c := c)] at hgives
  have hself : d = d.rename {} := by
    have heq := hd.symm.trans hgives
    exact Except.ok.inj (Prod.mk.inj heq).1
  have hqueries : d.queries.map (·.rename {}) = d.queries.map id :=
    (congrArg DecomposedQuery.queries hself).symm.trans (List.map_id d.queries).symm
  intro q hq
  refine ⟨List.map_inj_left.mp hqueries q hq, fun e he => ?_⟩
  obtain ⟨p, hp, rfl⟩ := List.mem_map.mp he
  have hmem := DecomposedQuery.var_mem_of_mem_predicates hd hq p hp
  rw [Atom.mem_vars_central_iff (decomposed_of_mem_queries hd hq).central.1] at hmem
  rcases hmem with ⟨hvar | htype, -⟩ | hplayer
  · exact .inl hvar
  · exact .inr (.inl htype)
  · exact .inr (.inr (List.mem_map.mpr hplayer))

end Decomposition

/-! ## Compiled rules -/

namespace Rule

def mapVars (ρ : Var → Var) (r : Rule) : Rule :=
  ⟨r.label, r.body.mapVars ρ, r.head.mapVars ρ⟩

/-- The variables that the body and the head name. -/
def names (r : Rule) : List Var :=
  (r.body.statements ++ r.head.statements).flatMap fun st => st.subject :: st.properties.flatMap Property.vars

/-- The second rule is the first one with other user-defined variables, no two of them alike, in the body and
in the head. None of its variables is absent. -/
def RenamedTo (r r' : Rule) : Prop :=
  (∀ v ∈ r.names, v.isEmpty = false) ∧ ∃ ρ : Var → Var, r' = r.mapVars ρ ∧ Set.InjOn ρ {v | v ∈ r.names} ∧
    ∀ v ∈ r.names, (ρ v).isEmpty = false ∧ (ρ v).userDefined = v.userDefined ∧ (v.userDefined = false → ρ v = v)

end Rule

theorem Property.mapVars_congr {ρ ρ' : Var → Var} {p : Property} (h : ∀ v ∈ p.vars, ρ v = ρ' v) :
    p.mapVars ρ = p.mapVars ρ' := by
  cases p with
  | isa t =>
    cases t with
    | label => rfl
    | var v => exact congrArg (Property.isa <| TypeRef.var ·) (h v (.head _))
  | relation ps =>
    exact congrArg Property.relation (List.map_congr_left fun p hp =>
      congrArg (RolePlayer.mk p.role) (h _ (List.mem_map_of_mem hp)))
  | has l v c => exact congrArg (Property.has l · c) (h v (.head _))
  | _ => rfl

theorem Conjunction.mapVars_congr {ρ ρ' : Var → Var} {c : Conjunction}
    (h : ∀ st ∈ c.statements, ∀ v ∈ st.subject :: st.properties.flatMap Property.vars, ρ v = ρ' v) :
    c.mapVars ρ = c.mapVars ρ' := by
  refine congrArg Conjunction.mk (List.map_congr_left fun st hst => ?_)
  refine congrArg₂ Statement.mk (h st hst _ (.head _)) (List.map_congr_left fun p hp => ?_)
  exact Property.mapVars_congr fun v hv => h st hst v (.tail _ (List.mem_flatMap.mpr ⟨p, hp, hv⟩))

/-- A renamed rule is one under a permutation of all variables. -/
theorem Rule.RenamedTo.exists_permutes {r r' : Rule} (h : r.RenamedTo r') :
    ∃ u : Unifier, u.Permutes ∧ r' = r.mapVars u.apply := by
  obtain ⟨hpresent, ρ, rfl, hinj, hnames⟩ := h
  have hmem {v : Var} : v ∈ r.names.filter Var.userDefined ↔ v ∈ r.names ∧ v.userDefined = true :=
    List.mem_filter
  obtain ⟨u, hu, heq⟩ := Unifier.exists_permutes ρ (r.names.filter Var.userDefined)
    (fun v hv w hw => hinj (hmem.mp hv).1 (hmem.mp hw).1)
    (fun v hv => ⟨(hmem.mp hv).2, hpresent v (hmem.mp hv).1⟩)
    (fun v hv => by
      obtain ⟨hempty, huser, -⟩ := hnames v (hmem.mp hv).1
      exact ⟨huser.trans (hmem.mp hv).2, hempty⟩)
  have hall : ∀ v ∈ r.names, ρ v = u.apply v := by
    intro v hv
    cases huser : v.userDefined with
    | true => exact (heq v (hmem.mpr ⟨hv, huser⟩)).symm
    | false => rw [hu.fixed v huser, (hnames v hv).2.2 huser]
  refine ⟨u, hu, congrArg₂ (Rule.mk r.label) (Conjunction.mapVars_congr fun st hst v hv => hall v ?_)
    (Conjunction.mapVars_congr fun st hst v hv => hall v ?_)⟩
  · exact List.mem_flatMap.mpr ⟨st, List.mem_append_left _ hst, hv⟩
  · exact List.mem_flatMap.mpr ⟨st, List.mem_append_right _ hst, hv⟩

/-- The head and the body of the second rule are those of the first one under a permutation of variables. -/
structure CompiledRule.RenamedBy (u : Unifier) (c c' : CompiledRule) : Prop where
  permutes : u.Permutes
  id : c'.id = c.id
  head : c'.head = c.head.rename u
  body : c'.body = c.body.map (·.rename u)
  tidy : ∀ q ∈ c.body, q.Tidy

namespace RuleSet

open Decomposition

variable {t : Transaction} {rules rules' set : RuleSet} {r r' : Rule} {s s' : Supply} {id : RuleId}

/-- Sets of rules that are renamings of each other take rules that are. -/
theorem exists_gives_add (hset : List.Forall₂ (fun c c' => ∃ u, c.RenamedBy u c') rules.rules rules'.rules)
    (hr : r.RenamedTo r') (h : (rules.add t r).Gives s (id, set) s') : ∃ set', (rules'.add t r').Gives s (id, set') s' ∧
      List.Forall₂ (fun c c' => ∃ u, c.RenamedBy u c') set.rules set'.rules := by
  obtain ⟨u, hu, rfl⟩ := hr.exists_permutes
  have hpresent {st : Statement} (hst : st ∈ r.body.statements ++ r.head.statements) :
      ∀ v ∈ st.subject :: st.properties.flatMap Property.vars, v.isEmpty = false :=
    fun v hv => hr.1 v (List.mem_flatMap.mpr ⟨st, hst, hv⟩)
  have hhead := carries_ofConjunction (t := t) hu (c := r.head) fun st hst => hpresent (List.mem_append_right _ hst)
  have hbody := carries_ofConjunction (t := t) hu (c := r.body) fun st hst => hpresent (List.mem_append_left _ hst)
  have hsize : rules'.size = rules.size := hset.length_eq.symm
  obtain ⟨d, s₁, hd, h⟩ := gives_bind.mp h
  split at h
  · next head hqueries =>
    obtain ⟨e, s₂, he, h⟩ := gives_bind.mp h
    obtain ⟨heq, rfl⟩ := gives_pure.mp h
    obtain ⟨rfl, rfl⟩ := Prod.mk.inj heq
    refine ⟨⟨rules'.rules ++ [⟨⟨rules.size⟩, r.mapVars u.apply, head.rename u, e.queries.map (·.rename u)⟩]⟩, ?_,
      List.rel_append hset (.cons ⟨u, hu, rfl, rfl, rfl, tidy_of_gives
        (fun _ hst => hpresent (List.mem_append_left _ hst)) he⟩ .nil)⟩
    have hqueries' : (d.rename u).queries = [head.rename u] := by
      rw [DecomposedQuery.rename, hqueries]
      rfl
    refine gives_bind.mpr ⟨_, s₁, hhead _ _ _ hd, ?_⟩
    rw [hqueries']
    refine gives_bind.mpr ⟨_, s₂, hbody _ _ _ he, gives_pure.mpr ⟨?_, rfl⟩⟩
    rw [hsize]
    rfl
  · exact absurd h not_gives_throw

/-- Renamed rules are compiled into renamed rules, and draw as many variables. -/
theorem exists_gives_ofRules {R R' : List Rule} (hrenamed : List.Forall₂ Rule.RenamedTo R R')
    (h : (ofRules t R).Gives s rules s') : ∃ rules', (ofRules t R').Gives s rules' s' ∧
      List.Forall₂ (fun c c' => ∃ u, c.RenamedBy u c') rules.rules rules'.rules := by
  have hfold {set set' : RuleSet} (hset : List.Forall₂ (fun c c' => ∃ u, c.RenamedBy u c') set.rules set'.rules)
      (h : (R.foldlM (fun set r => do return (← set.add t r).2) set : Attempt RuleSet).Gives s rules s') :
      ∃ rules', (R'.foldlM (fun set r => do return (← set.add t r).2) set' : Attempt RuleSet).Gives s rules' s' ∧
        List.Forall₂ (fun c c' => ∃ u, c.RenamedBy u c') rules.rules rules'.rules := by
    clear * - hrenamed hset h
    induction hrenamed generalizing set set' s with
    | nil =>
      obtain ⟨rfl, rfl⟩ := gives_pure.mp h
      exact ⟨set', gives_pure.mpr ⟨rfl, rfl⟩, hset⟩
    | @cons r r' R R' hr _ ih =>
      rw [List.foldlM_cons] at h
      obtain ⟨added, s₁, hadded, h⟩ := gives_bind.mp h
      obtain ⟨⟨id, _⟩, s₂, hadd, hpure⟩ := gives_bind.mp hadded
      obtain ⟨rfl, rfl⟩ := gives_pure.mp hpure
      obtain ⟨added', hadd', hadded⟩ := exists_gives_add hset hr hadd
      obtain ⟨rules', hrules', hall⟩ := ih hadded h
      refine ⟨rules', ?_, hall⟩
      rw [List.foldlM_cons]
      exact gives_bind.mpr ⟨added', _, gives_bind.mpr ⟨_, _, hadd', gives_pure.mpr ⟨rfl, rfl⟩⟩, hrules'⟩
  exact hfold .nil h

end RuleSet

end GraphInference
