import GraphInference.Proofs.Query.Class
import GraphInference.Proofs.Unification.Equivalent

/-!
# Equivalence and hashes

Hashes are made of what equivalence compares, so equivalent atoms have one hash, and so have equivalent
queries, whose predicates are hashed one by one and sorted (`AtomicQuery.hash_congr`). The order in which
players and predicates are written is in no hash: `AtomicQuery.equivalence_with_hashes`.
-/

namespace GraphInference

/-! ## Atoms -/

theorem Anchor.hash_eq_of_isEquivalent {a b : Anchor} (h : a.isEquivalent b = true) : a.hash = b.hash := by
  have htype : a.typeId? = b.typeId? := of_decide_eq_true (Bool.and_eq_true_iff.mp h).2
  rw [hash, hash, htype]

theorem RelationAtom.hash_eq_of_isEquivalent {r s : RelationAtom} (h : r.isEquivalent s = true) :
    r.hash = s.hash := by
  obtain ⟨hanchor, hshape⟩ := Bool.and_eq_true_iff.mp h
  have hshape : r.shape = s.shape := of_decide_eq_true hshape
  rw [hash, hash, hshape, Anchor.hash_eq_of_isEquivalent hanchor]

namespace Atom

variable {a b : Atom}

theorem hash_eq_of_isEquivalent (h : a.isEquivalent b = true) : a.hash = b.hash := by
  cases a with
  | isa c =>
    cases b with
    | isa d => exact Anchor.hash_eq_of_isEquivalent h
    | _ => cases h
  | relation r =>
    cases b with
    | relation s => exact RelationAtom.hash_eq_of_isEquivalent h
    | _ => cases h
  | value p =>
    cases b with
    | value q =>
      have hsame : p.constraint = q.constraint := of_decide_eq_true h
      rw [hash, hash, ValuePredicate.hash, ValuePredicate.hash, hsame]
    | _ => cases h
  | identity p =>
    cases b with
    | identity q =>
      have hsame : p.id = q.id := of_decide_eq_true h
      rw [hash, hash, IdPredicate.hash, IdPredicate.hash, hsame]
    | _ => cases h
  | substitution s =>
    cases b with
    | substitution t =>
      have hsame : s.value = t.value := of_decide_eq_true h
      rw [hash, hash, Substitution.hash, Substitution.hash, hsame]
    | _ => cases h

/-- The hash of an atom is that of its class. -/
theorem hash_factorsThrough : Function.FactorsThrough hash isEquivalent :=
  fun _ _ h => hash_eq_of_isEquivalent (isEquivalent_iff_eq.mpr h)

/-- The atom is the other one, with its players in this order or another. -/
inductive Reorders : Atom → Atom → Prop where
  | refl (a : Atom) : Reorders a a
  | players {c : Anchor} {ps ps' : List (Role × Var)} (h : ps.Perm ps') :
      Reorders (.relation ⟨c, ps⟩) (.relation ⟨c, ps'⟩)

theorem Reorders.isEquivalent (h : a.Reorders b) : a.isEquivalent b = true := by
  cases h with
  | refl => exact isEquivalent_refl a
  | @players c ps ps' h =>
    have hanchor : c.isEquivalent c = true := by simp [Anchor.isEquivalent]
    exact Bool.and_eq_true_iff.mpr ⟨hanchor, decide_eq_true (RelationAtom.shape_eq_of_perm h)⟩

end Atom

/-! ## Queries -/

namespace AtomicQuery

variable {q r q' r' : AtomicQuery}

/-- The hashes of the predicates count, not their order. -/
theorem hash_congr (hcentral : q.central.hash = r.central.hash)
    (hpredicates : (q.predicates.map Atom.hash).Perm (r.predicates.map Atom.hash)) : q.hash = r.hash := by
  have horder : (fun a b : UInt64 => decide (a ≤ b)) = fun a b => (compare a b).isLE :=
    funext fun a => funext fun b => by rw [Bool.eq_iff_iff, decide_eq_true_eq, Std.isLE_compare]
  rw [hash, hash, hcentral, horder, RelationAtom.mergeSort_eq_of_perm hpredicates]

theorem hash_eq_of_isEquivalent (h : q.isEquivalent r = true) : q.hash = r.hash := by
  obtain ⟨hcentral, hkinds⟩ := isEquivalent_iff_kind.mp h
  -- a predicate's hash is read off its kind
  let hashOf (k : (Atom → Bool) × Option VarPosition) : UInt64 :=
    Function.extend Atom.isEquivalent Atom.hash (fun _ => 0) k.1
  have hhash (q : AtomicQuery) : (q.predicates.map q.kind).map hashOf = q.predicates.map Atom.hash := by
    rw [List.map_map]
    exact List.map_congr_left fun a _ => Atom.hash_factorsThrough.extend_apply (fun _ => 0) a
  refine hash_congr (Atom.hash_eq_of_isEquivalent hcentral) ?_
  rw [← hhash q, ← hhash r]
  exact hkinds.map hashOf

/-- The query is the other one, with its players and its predicates in this order or another. -/
structure Reorders (q r : AtomicQuery) : Prop where
  central : q.central.Reorders r.central
  predicates : q.predicates.Perm r.predicates

theorem Reorders.hash_eq (h : q.Reorders r) : q.hash = r.hash :=
  hash_congr (Atom.hash_eq_of_isEquivalent h.central.isEquivalent) (h.predicates.map _)

/-- Equivalence of atoms and of queries, whatever their predicates are, is an equivalence relation, and what is
equivalent has one hash, in whatever order players and predicates are written. -/
theorem equivalence_with_hashes :
    (Equivalence fun a b : Atom => a.isEquivalent b = true) ∧
    (Equivalence fun q r : AtomicQuery => q.isEquivalent r = true) ∧
    (∀ a b a' b' : Atom, a.isEquivalent b = true → a'.Reorders a → b'.Reorders b →
      a'.isEquivalent b' = true ∧ a'.hash = b'.hash) ∧
    ∀ q r q' r' : AtomicQuery, q.isEquivalent r = true → q'.Reorders q → r'.Reorders r → q'.hash = r'.hash := by
  refine ⟨⟨Atom.isEquivalent_refl, Atom.isEquivalent_symm, Atom.isEquivalent_trans⟩,
    ⟨isEquivalent_refl, isEquivalent_symm, isEquivalent_trans⟩, fun a b a' b' h ha hb => ?_,
    fun q r q' r' h hq hr => ?_⟩
  · have heq : a'.isEquivalent b' = true :=
      Atom.isEquivalent_trans ha.isEquivalent (Atom.isEquivalent_trans h (Atom.isEquivalent_symm hb.isEquivalent))
    exact ⟨heq, Atom.hash_eq_of_isEquivalent heq⟩
  · rw [hq.hash_eq, hr.hash_eq, hash_eq_of_isEquivalent h]

end AtomicQuery

end GraphInference
