import GraphInference.Proofs.Pattern.Reading
import GraphInference.Proofs.Pattern.Text

/-!
# What patterns of one text mean

Legible patterns of one text mean the same of the variables that are not generated
(`Conjunction.Legible.means`): a variable that is not printed is a generated one and stands nowhere else,
so that any value may be chosen for it.
-/

namespace GraphInference

namespace Conjunction

/-- The text of the pattern tells what it says: the variable that stands for an owned value is printed, or
it is generated and only this property names it. -/
structure Legible (c : Conjunction) : Prop where
  statements : ∀ s ∈ c.statements, s.Legible
  unprinted : ∀ s ∈ c.statements, ∀ owned v p, .has owned v (some p) ∈ s.properties →
    (∃ k, v = .generated k) ∧ v ≠ s.subject ∧ ∀ s' ∈ c.statements, ∀ q ∈ s'.properties,
      q.Names s'.subject v → s'.subject = s.subject ∧ q = .has owned v (some p)

/-- What the one pattern says of the variables that are not generated the other one says too. -/
def Means (c c' : Conjunction) : Prop :=
  ∀ g look, c.Reads g look →
    ∃ look', (∀ v, (∀ k, v ≠ .generated k) → look' v = look v) ∧ c'.Reads g look'

end Conjunction

variable {g : Graph} {look : Var → Option ConceptId} {x : Var}

theorem Constraint.Reads.of_alike {p q : Constraint} {v w : Var} {look' : Var → Option ConceptId}
    (h : p.Reads g look v) (hpq : p.Alike q) (heq : look v = look' w) : q.Reads g look' w := by
  obtain ⟨c, hc, hv, value, hvalue, htest⟩ := h
  exact ⟨c, hc, heq ▸ hv, value, hvalue, hpq value ▸ htest⟩

/-- What a property says when a concept can be chosen for the variable that it does not print. -/
def Property.Says (g : Graph) (look : Var → Option ConceptId) (x : Var) : Property → Prop
  | .has owned v (some p) =>
    ∃ id, (Property.has owned v (some p)).Reads g (Function.update look v (some id)) x
  | p => p.Reads g look x

theorem Property.Alike.says {p q : Property} (hpq : p.Alike q) (h : p.Reads g look x)
    (hq : ∀ owned v r, q = .has owned v (some r) → v ≠ x) : q.Says g look x := by
  have hself {owned : Label} {v w : Var} {p q : Constraint} (hpq : p.Alike q) (hw : w ≠ x)
      (h : (Property.has owned v (some p)).Reads g look x) :
      (Property.has owned w (some q)).Says g look x := by
    obtain ⟨⟨c, c', hc⟩, hp⟩ := h
    have hvalue := Function.update_self w (some c'.player) look
    refine ⟨c'.player, ⟨c, c', { hc with owner := ?_, value := hvalue }⟩, ?_⟩
    · rw [Function.update_of_ne hw.symm, hc.owner]
    · intro r hr
      obtain rfl := Option.some.inj hr
      exact (hp p rfl).of_alike hpq (hc.value.trans hvalue.symm)
  cases hpq with
  | refl p =>
    cases p with
    | has owned v r =>
      cases r with
      | none => exact h
      | some r => exact hself (fun _ => rfl) (hq owned v r rfl) h
    | _ => exact h
  | has owned v w hpq => exact hself hpq (hq owned w _ rfl) h
  | value hpq => exact Constraint.Reads.of_alike h hpq rfl

theorem Property.Alike.symm {p q : Property} (h : p.Alike q) : q.Alike p := by
  cases h with
  | refl p => exact .refl p
  | has owned v w h => exact .has owned w v fun actual => (h actual).symm
  | value h => exact .value fun actual => (h actual).symm

theorem Statement.Alike.symm {s s' : Statement} (h : s.Alike s') : s'.Alike s :=
  ⟨h.subject.symm, h.players.symm, h.others.flip.imp fun _ _ => Property.Alike.symm⟩

/-- A property of the one statement has a like one in the other. -/
theorem Statement.Alike.exists_alike {s s' : Statement} (h : s.Alike s') (hs' : s'.Legible) {q : Property}
    (hq : q ∈ s'.properties) : ∃ p ∈ s.properties, p.Alike q := by
  cases hrelation : q.isRelation with
  | true =>
    cases q with
    | relation ps =>
      have hplayers : s.players? = some ps := h.players.trans (hs'.players _ hq ps rfl)
      obtain ⟨p, hp, hps⟩ := List.exists_of_findSome?_eq_some hplayers
      cases p with
      | relation qs => exact ⟨_, hp, Option.some.inj hps ▸ .refl _⟩
      | _ => cases hps
    | _ => cases hrelation
  | false =>
    obtain ⟨p, hp, halike⟩ := exists_of_forall₂_of_mem h.others.flip
      (List.mem_filter.mpr ⟨hq, by rw [hrelation]; rfl⟩)
    exact ⟨p, (List.mem_filter.mp hp).1, halike⟩

/-- The concepts can be chosen for all variables that are not printed at once. -/
theorem Conjunction.Legible.exists_reads {c : Conjunction} (hc : c.Legible)
    (h : ∀ s ∈ c.statements, ∀ p ∈ s.properties, p.Says g look s.subject) :
    ∃ look', (∀ v, (∀ k, v ≠ .generated k) → look' v = look v) ∧ c.Reads g look' := by
  classical
  -- a concept that a property with the variable `v` may be chosen to have
  let Fits (v : Var) (id : ConceptId) : Prop := ∃ s ∈ c.statements, ∃ owned p,
    .has owned v (some p) ∈ s.properties ∧
      (Property.has owned v (some p)).Reads g (Function.update look v (some id)) s.subject
  let look' (v : Var) : Option ConceptId := if h : ∃ id, Fits v id then some h.choose else look v
  have hkept (v : Var) (hv : ¬ ∃ id, Fits v id) : look' v = look v := dif_neg hv
  have hnamed {s : Statement} (hs : s ∈ c.statements) {p : Property} (hp : p ∈ s.properties) {v : Var}
      (hv : p.Names s.subject v) (hprinted : ∀ owned q, p ≠ .has owned v (some q)) : look' v = look v := by
    refine hkept v ?_
    rintro ⟨id, s', hs', owned, q, hq, -⟩
    obtain ⟨-, -, honly⟩ := hc.unprinted s' hs' owned v q hq
    exact hprinted owned q (honly s hs p hp hv).2
  refine ⟨look', fun v hv => hkept v ?_, fun s hs p hp => ?_⟩
  · rintro ⟨id, s, hs, owned, q, hq, -⟩
    obtain ⟨⟨k, hk⟩, -⟩ := hc.unprinted s hs owned v q hq
    exact hv k hk
  · have hsays := h s hs p hp
    by_cases hp' : ∃ owned v q, p = .has owned v (some q)
    · obtain ⟨owned, v, q, rfl⟩ := hp'
      obtain ⟨-, hne, -⟩ := hc.unprinted s hs owned v q hp
      have hfits : ∃ id, Fits v id := hsays.imp fun id hid => ⟨s, hs, owned, q, hp, hid⟩
      obtain ⟨s', hs', owned', q', hq', hreads⟩ := hfits.choose_spec
      obtain ⟨-, -, honly⟩ := hc.unprinted s' hs' owned' v q' hq'
      obtain ⟨hsubject, hsame⟩ := honly s hs _ hp (.inr rfl)
      cases hsame
      rw [← hsubject] at hreads
      have hchosen : look' v = some hfits.choose := dif_pos hfits
      refine hreads.congr fun w hw => ?_
      rcases hw with rfl | rfl
      · rw [Function.update_of_ne hne.symm]
        refine (hnamed hs hp (.inl rfl) fun owned' q' heq => hne ?_).symm
        cases heq
        rfl
      · rw [Function.update_self, hchosen]
    · have hreads : p.Reads g look s.subject := by
        cases p with
        | has owned v q =>
          cases q with
          | none => exact hsays
          | some q => exact absurd ⟨owned, v, q, rfl⟩ hp'
        | _ => exact hsays
      exact hreads.congr fun v hv =>
        (hnamed hs hp hv fun owned q heq => hp' ⟨owned, v, q, heq⟩).symm

namespace Conjunction.Legible

variable {c c' : Conjunction}

/-- A property of a statement of the one pattern has a like one in the other. -/
theorem exists_alike (hc : c.Legible) (hc' : c'.Legible) (h : c.text = c'.text) {s' : Statement}
    (hs' : s' ∈ c'.statements) : ∃ s ∈ c.statements, s.subject = s'.subject ∧
      ∀ q ∈ s'.properties, ∃ p ∈ s.properties, p.Alike q := by
  obtain ⟨s, hs, halike⟩ :=
    exists_of_forall₂_of_mem (alike_of_text_eq hc.statements hc'.statements h).flip hs'
  exact ⟨s, hs, halike.subject, fun q hq => halike.exists_alike (hc'.statements s' hs') hq⟩

theorem means (hc : c.Legible) (hc' : c'.Legible) (h : c.text = c'.text) : c.Means c' := by
  intro g look hreads
  refine hc'.exists_reads fun s' hs' q hq => ?_
  obtain ⟨s, hs, hsubject, hlike⟩ := hc.exists_alike hc' h hs'
  obtain ⟨p, hp, hpq⟩ := hlike q hq
  refine hpq.says (hsubject ▸ hreads s hs p hp) ?_
  rintro owned v r rfl
  exact (hc'.unprinted s' hs' owned v r hq).2.1

theorem names_of_text_eq (hc : c.Legible) (hc' : c'.Legible) (h : c.text = c'.text) {v : Var}
    (hv : ∀ k, v ≠ .generated k) (hnames : c'.Names v) : c.Names v := by
  obtain ⟨s', hs', q, hq, hv'⟩ := hnames
  obtain ⟨s, hs, hsubject, hlike⟩ := hc.exists_alike hc' h hs'
  obtain ⟨p, hp, hpq⟩ := hlike q hq
  refine ⟨s, hs, p, hp, ?_⟩
  rw [hsubject]
  cases hpq with
  | refl p => exact hv'
  | has owned w w' hpq =>
    obtain ⟨⟨k, hk⟩, -⟩ := hc'.unprinted s' hs' owned w' _ hq
    exact .inl (hv'.resolve_right (hk ▸ hv k))
  | value hpq => exact hv'

end Conjunction.Legible

/-! ## Statements that say something -/

/-- The statement says something: of a relation it names a player, or it has another property. -/
def Statement.IsFounded (s : Statement) : Prop :=
  ∃ p ∈ s.properties, p ≠ .relation []

theorem Conjunction.Legible.isFounded {c c' : Conjunction} (hc : c.Legible) (hc' : c'.Legible)
    (h : c.text = c'.text) (hfounded : ∀ s ∈ c.statements, s.IsFounded) :
    ∀ s' ∈ c'.statements, s'.IsFounded := by
  intro s' hs'
  obtain ⟨s, hs, halike⟩ :=
    exists_of_forall₂_of_mem (alike_of_text_eq hc.statements hc'.statements h).flip hs'
  obtain ⟨p, hp, hne⟩ := hfounded s hs
  obtain ⟨q, hq, hqp⟩ := halike.symm.exists_alike (hc.statements s hs) hp
  refine ⟨q, hq, ?_⟩
  rintro rfl
  cases hqp
  exact hne rfl

namespace FragmentSet

open Attempt

/-- A statement that says nothing makes no fragment set, and only such a one. -/
theorem ofStatement_eq_nil_iff (s : Statement) (u : Supply) :
    ((ofStatement s).run u).1 = [] ↔ ¬ s.IsFounded := by
  constructor
  · rintro hnil ⟨p, hp, hne⟩
    obtain ⟨v, hv⟩ : ∃ v, p.Names s.subject v := by
      cases p with
      | relation ps =>
        obtain ⟨q, hq⟩ := List.exists_mem_of_ne_nil ps fun h => hne (congrArg _ h)
        exact ⟨s.subject, q, hq, .inl rfl⟩
      | isa t => cases t <;> exact ⟨s.subject, by simp [Property.Names, TypeRef.Names]⟩
      | has owned v p => exact ⟨s.subject, .inl rfl⟩
      | _ => exact ⟨s.subject, rfl⟩
    have himparts := imparts_ofStatement Graph.wellFormed_empty s u
    obtain ⟨set, hset, -⟩ := (himparts.mentions v).mpr (.inl ⟨p, hp, hv⟩)
    rw [hnil] at hset
    cases hset
  · intro h
    have hlist : ∀ (ps : List Property) (u : Supply), (∀ p ∈ ps, p = .relation []) →
        ((ps.mapM (ofProperty s)).run u).1.flatten = [] := by
      intro ps
      induction ps with
      | nil => exact fun _ _ => rfl
      | cons p ps ih =>
        intro u hps
        obtain ⟨rfl, hrest⟩ := List.forall_mem_cons.mp hps
        rw [List.mapM_cons]
        exact ih u hrest
    exact hlist s.properties u fun p hp => by_contra fun hne => h ⟨p, hp, hne⟩

/-- The sets of statements can be made if and only if each of them says something. -/
theorem exists_gives_iff_isFounded {statements : List Statement}
    {u : Supply} : (∃ sets t, (ofStatements statements).Gives u sets t) ↔
      ∀ s ∈ statements, s.IsFounded := by
  induction statements generalizing u with
  | nil => exact iff_of_true ⟨[], u, gives_pure.mpr ⟨rfl, rfl⟩⟩ fun _ hs => nomatch hs
  | cons s statements ih =>
    simp only [gives_ofStatements_cons, Ne, ofStatement_eq_nil_iff, not_not, List.forall_mem_cons]
    rw [← ih (u := ((ofStatement s).run u).2)]
    constructor
    · rintro ⟨sets, t, hs, rest, hrest, -⟩
      exact ⟨hs, rest, t, hrest⟩
    · rintro ⟨hs, rest, t, hrest⟩
      exact ⟨_, t, hs, rest, hrest, rfl⟩

end FragmentSet

/-- A pattern can be planned if and only if each of its statements says something. -/
theorem Conjunction.exists_planWithBound_iff {c : Conjunction} {u : Supply} :
    (∃ p t, (Planner.planWithBound c .empty).Gives u p t) ↔ ∀ s ∈ c.statements, s.IsFounded := by
  rw [← FragmentSet.exists_gives_iff_isFounded (u := u)]
  constructor
  · rintro ⟨p, t, hp⟩
    obtain ⟨sets, hsets, -⟩ := Planner.order_of_gives hp
    exact ⟨sets, t, hsets⟩
  · rintro ⟨sets, t, hsets⟩
    obtain ⟨p, hp⟩ := Planner.exists_planWithBound hsets .empty
    exact ⟨p, t, hp⟩

end GraphInference
