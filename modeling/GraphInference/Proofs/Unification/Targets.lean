import GraphInference.Proofs.Unification.Equivalent

/-!
# Where a unifier sends the players

A unifier is to send every player of a relation to the player at the place where alignment seats it, a
user-defined anchor's counterpart and a type's to theirs (`RelationAtom.Targets`). It fails where a variable has
two targets, but a variable that is a target of its own is not mapped to itself, and so this target is lost
against any other one. `RelationAtom.unifier_follows_alignment` says which players come to their places, and
that all of them do where no variable has itself and another one as targets (`RelationAtom.Settled`).
-/

namespace GraphInference

open Atom

namespace RelationAtom

variable {r s : RelationAtom} {u : Unifier} {v w : Var}

/-- What the one variable is to become: a player the one at its place, a type the other type, an anchor the
other anchor, if this is user-defined. -/
def Targets (r s : RelationAtom) (v w : Var) : Prop :=
  v = r.anchor.var ∧ w = s.anchor.var ∧ s.anchor.var.userDefined = true ∨
    (Atom.relation r).typeVar? = some v ∧ (Atom.relation s).typeVar? = some w ∨
    Counterpart r.players s.players (r.placed s) v w

/-- No variable has itself and another one as targets. -/
def Settled (r s : RelationAtom) : Prop :=
  ∀ v w, r.Targets s v v → r.Targets s v w → w = v

/-- What a unifier maps has another variable as its target. -/
theorem get?_eq_some_iff_targets (hu : r.unifier s = .ok u) : u.get? v = some w ↔ w ≠ v ∧ r.Targets s v w := by
  rw [get?_eq_some_iff_paired hu, ne_comm]
  exact Iff.rfl

/-- A target is reached unless it is the variable itself and there is another one. -/
theorem apply_eq_iff_of_targets (hu : r.unifier s = .ok u) (h : r.Targets s v w) :
    u.apply v = w ↔ ¬ (w = v ∧ ∃ x, x ≠ v ∧ r.Targets s v x) := by
  by_cases hne : w = v
  · subst hne
    rw [and_iff_right rfl, not_exists]
    constructor
    · intro happly x hx
      have hmoved : u.apply w = x := Unifier.apply_of_get? ((get?_eq_some_iff_targets hu).mpr hx)
      exact hx.1 (hmoved.symm.trans happly)
    · intro hnone
      refine Unifier.apply_of_get?_eq_none (Option.eq_none_iff_forall_ne_some.mpr fun x hx => ?_)
      exact hnone x ((get?_eq_some_iff_targets hu).mp hx)
  · exact iff_of_true (Unifier.apply_of_get? ((get?_eq_some_iff_targets hu).mpr ⟨hne, h⟩)) fun h => hne h.1

/-- There is a unifier if every player has a place and no variable has two targets beside itself. -/
theorem exists_unifier_iff_targets : (∃ u, r.unifier s = .ok u) ↔ (∃ pairs, r.align s = .ok pairs) ∧
    ∀ v w w', r.Targets s v w → r.Targets s v w' → w ≠ v → w' ≠ v → w = w' := by
  refine (exists_unifier_iff (q := .relation r) (h := .relation s) rfl rfl).trans ?_
  refine and_congr exists_align_iff.symm (forall_congr' fun v => forall_congr' fun w => forall_congr' fun w' => ?_)
  show v ≠ w ∧ r.Targets s v w → v ≠ w' ∧ r.Targets s v w' → w = w' ↔ _
  rw [ne_comm, ne_comm (b := w')]
  tauto

/-- Among settled relations a unifier is refused to any two targets of one variable. -/
theorem Settled.exists_unifier_iff (h : r.Settled s) : (∃ u, r.unifier s = .ok u) ↔
    (∃ pairs, r.align s = .ok pairs) ∧ ∀ v w w', r.Targets s v w → r.Targets s v w' → w = w' := by
  rw [exists_unifier_iff_targets]
  refine and_congr_right fun _ => ⟨fun hsingle v w w' hw hw' => ?_, fun hsingle v w w' hw hw' _ _ =>
    hsingle v w w' hw hw'⟩
  by_cases hself : r.Targets s v v
  · rw [h v w hself hw, h v w' hself hw']
  · exact hsingle v w w' hw hw' (fun e => hself (e ▸ hw)) fun e => hself (e ▸ hw')

/-- Relations without a common variable are settled. -/
theorem settled_of_disjoint (h : ∀ v ∈ (Atom.relation r).vars, v ∉ (Atom.relation s).vars)
    (hanchor : r.anchor.var ≠ s.anchor.var) : r.Settled s := by
  rintro v w (⟨rfl, heq, -⟩ | ⟨hv, hv'⟩ | ⟨i, j, role, role', hv, -, hv'⟩) -
  · exact absurd heq hanchor
  · exact absurd (mem_vars_of_type hv') (h v (mem_vars_of_type hv))
  · exact absurd (mem_vars_of_player (q := .relation s) hv') (h v (mem_vars_of_player (q := .relation r) hv))

/-- The players have places of their own among those of the other relation, with an equal role or where one of
the roles is not stated, and the unifier sends each player to the one at its place. -/
def Assigns (r s : RelationAtom) (u : Unifier) : Prop :=
  ∃ js, Placement r.players s.players js ∧ ∀ (i j : Nat) (p p' : Role × Var), r.players[i]? = some p →
    js[i]? = some j → s.players[j]? = some p' → u.apply p.2 = p'.2

/-- A unifier is a placement that sends a player to the one at its place unless this is the player itself, which
has another target too. There is one exactly if every player has a place and no variable has two targets beside
itself. Among settled relations all players come to their places, and there is no unifier where a variable has two
targets, be it one of them. -/
theorem unifier_follows_alignment (r s : RelationAtom) :
    (∀ u, r.unifier s = .ok u → Placement r.players s.players (r.placed s) ∧
      ∀ (i j : Nat) (p p' : Role × Var), r.players[i]? = some p → (r.placed s)[i]? = some j →
        s.players[j]? = some p' →
        (u.apply p.2 = p'.2 ↔ ¬ (p'.2 = p.2 ∧ ∃ x, x ≠ p.2 ∧ r.Targets s p.2 x))) ∧
    ((∃ u, r.unifier s = .ok u) ↔ (∃ pairs, r.align s = .ok pairs) ∧
      ∀ v w w', r.Targets s v w → r.Targets s v w' → w ≠ v → w' ≠ v → w = w') ∧
    (r.Settled s → (∀ u, r.unifier s = .ok u → r.Assigns s u) ∧
      ((∃ u, r.unifier s = .ok u) ↔ (∃ pairs, r.align s = .ok pairs) ∧
        ∀ v w w', r.Targets s v w → r.Targets s v w' → w = w')) := by
  have hplayers {u : Unifier} (hu : r.unifier s = .ok u) : Placement r.players s.players (r.placed s) :=
    (get?_unifier (q := .relation r) (h := .relation s) rfl hu).1
  have htargets {i j : Nat} {p p' : Role × Var} (hp : r.players[i]? = some p) (hj : (r.placed s)[i]? = some j)
      (hp' : s.players[j]? = some p') : r.Targets s p.2 p'.2 :=
    .inr (.inr ⟨i, j, p.1, p'.1, hp, hj, hp'⟩)
  refine ⟨fun u hu => ⟨hplayers hu, fun i j p p' hp hj hp' => apply_eq_iff_of_targets hu (htargets hp hj hp')⟩,
    exists_unifier_iff_targets, fun hsettled => ⟨fun u hu => ⟨_, hplayers hu, fun i j p p' hp hj hp' => ?_⟩,
      hsettled.exists_unifier_iff⟩⟩
  refine (apply_eq_iff_of_targets hu (htargets hp hj hp')).mpr fun ⟨hself, x, hne, hx⟩ => hne ?_
  have hstands := htargets hp hj hp'
  rw [hself] at hstands
  exact hsettled p.2 x hstands hx

end RelationAtom

/-! ## Friends of themselves -/

namespace OwnFriend

open RelationAtom

def friendship (anchor type : Nat) (players : List (Role × Var)) : RelationAtom where
  anchor := ⟨.generated anchor, .generated type, some ⟨.generated type, ⟨"T2"⟩, none⟩, some ⟨"friendship"⟩, none⟩
  players := players

def friend : Role := .known ⟨"friend"⟩

/-- `(friend: $p, $p)` follows its alignment with `(friend: $x, friend: $x)`. -/
theorem unifier_follows_alignment_twice :
    let r := friendship 0 2 [(friend, .named "p"), (.unstated, .named "p")]
    let s := friendship 1 3 [(friend, .named "x"), (friend, .named "x")]
    ∃ u, r.unifier s = .ok u ∧ r.Settled s ∧ r.Assigns s u := by
  intro r s
  have hdisjoint : ∀ v ∈ (Atom.relation r).vars.toList, v ∉ (Atom.relation s).vars.toList := by decide +kernel
  have hsettled : r.Settled s := settled_of_disjoint hdisjoint (by decide +kernel)
  obtain ⟨u, hu⟩ : ∃ u, r.unifier s = .ok u := ⟨_, rfl⟩
  obtain ⟨-, -, hall⟩ := unifier_follows_alignment r s
  exact ⟨u, hu, hsettled, (hall hsettled).1 u hu⟩

/-- `(friend: $x, friend: $x)` has a unifier with `(friend: $x, friend: $y)`, which sends both players to the
second one. -/
theorem not_assigns_own_friend :
    ¬ ∀ (r s : RelationAtom) (u : Unifier), r.unifier s = .ok u → r.Assigns s u := by
  intro h
  let r := friendship 0 2 [(friend, .named "x"), (friend, .named "x")]
  let s := friendship 1 3 [(friend, .named "x"), (friend, .named "y")]
  obtain ⟨u, hu⟩ : ∃ u, r.unifier s = .ok u := ⟨_, rfl⟩
  obtain ⟨js, ⟨hlength, hnodup, hfits⟩, hsent⟩ := h r s u hu
  have hx : u.apply (.named "x") = .named "y" := by
    obtain rfl := Except.ok.inj hu
    decide +kernel
  -- both players would have to be at the only place of the other friend
  have hsecond {i j : Nat} (hi : r.players[i]? = some (friend, .named "x")) (hj : js[i]? = some j) : j = 1 := by
    obtain ⟨p, hp, -⟩ := hfits i j _ hi hj
    have hplayer : Var.named "y" = p.2 := hx.symm.trans (hsent i j _ p hi hj hp)
    match j with
    | 0 =>
      obtain rfl := Option.some.inj hp
      exact absurd hplayer (by decide +kernel)
    | 1 => rfl
  obtain ⟨a, b, rfl⟩ : ∃ a b, js = [a, b] := List.length_eq_two.mp hlength
  obtain rfl : a = 1 := hsecond (i := 0) rfl rfl
  obtain rfl : b = 1 := hsecond (i := 1) rfl rfl
  simp at hnodup

end OwnFriend

end GraphInference
