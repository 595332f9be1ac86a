import GraphInference.Atom
import GraphInference.Unifier

/-!
# Unification of atoms

A unifier of two atoms renames the variables of the one, the child, to those of the other, the
parent. Relations are unified by aligning each player of the child with a player of its own in the
parent: players of equal roles first, then players one of whose roles is not stated, always with
the first free player of the parent.
-/

namespace GraphInference

/-! ## Anchors -/

namespace Anchor

/-- Maps the anchor, towards a user-defined parent only, and the variable of the type. -/
def unifier (child parent : Anchor) : Except InferenceError Unifier := do
  let u ←
    if parent.var.userDefined ∧ child.var ≠ parent.var then Unifier.add {} child.var parent.var
    else pure {}
  if child.typeVar.isEmpty ∨ parent.typeVar.isEmpty ∨ child.typeVar = parent.typeVar then return u
  else u.add child.typeVar parent.typeVar

def rename (a : Anchor) (u : Unifier) : Anchor :=
  { a with
    var := u.apply a.var
    typeVar := if a.typeVar.isEmpty then .empty else u.apply a.typeVar
    typePredicate := a.typePredicate.map fun p => { p with var := u.apply p.var } }

end Anchor

/-! ## Relations -/

namespace RelationAtom

/-- The first place not taken whose role passes `accepts`, counted from `i`. -/
def freePlace? (taken : List Nat) (accepts : Role → Bool) : Nat → List (Role × Var) → Option Nat
  | _, [] => none
  | i, (role, _) :: rest =>
    if i ∉ taken ∧ accepts role then some i else freePlace? taken accepts (i + 1) rest

/-- Gives places to the players that `eligible` passes and that have none yet, in order, each the
first free one that its own role accepts. -/
def assign (places : List (Role × Var)) (accepts : Role → Role → Bool) :
    List Nat → List (Role × Option Nat) → List (Option Nat)
  | _, [] => []
  | taken, (_, some j) :: rest => some j :: assign places accepts taken rest
  | taken, (role, none) :: rest =>
    match freePlace? taken (accepts role) 0 places with
    | some j => some j :: assign places accepts (j :: taken) rest
    | none => none :: assign places accepts taken rest

/-- A stated role takes an equal one. -/
def exactMatch (role place : Role) : Bool :=
  role ≠ .unstated && place = role

/-- A role that is not stated takes any, and any takes one that is not stated. -/
def looseMatch (role place : Role) : Bool :=
  role = .unstated || place = .unstated

/-- The place in `parent` of each player of `child`. -/
def places (child parent : RelationAtom) : List (Option Nat) :=
  let roles := child.players.map (·.1)
  let exact := assign parent.players exactMatch [] (roles.map (·, none))
  assign parent.players looseMatch (exact.filterMap id) (roles.zip exact)

/-- Each player of `child` with its counterpart in `parent`. -/
def align (child parent : RelationAtom) : Except InferenceError (List (Var × Var)) :=
  (child.players.zip (child.places parent)).mapM fun ((role, player), place) =>
    match place.bind (parent.players[·]?) with
    | some counterpart => .ok (player, counterpart.2)
    | none => .error (.incompatibleAtoms ("role-player " ++ role.text ++ ": " ++ player.text ++
        " has no counterpart in " ++ parent.text))

def unifier (child parent : RelationAtom) : Except InferenceError Unifier := do
  let u ← child.anchor.unifier parent.anchor
  let pairs ← child.align parent
  match u.addAll (pairs.filter fun p => p.1 ≠ p.2) with
  | .ok u => return u
  | .error e => .error (.incompatibleAtoms e.message)

def rename (r : RelationAtom) (u : Unifier) : RelationAtom :=
  ⟨r.anchor.rename u, r.players.map fun p => (p.1, u.apply p.2)⟩

end RelationAtom

/-! ## Atoms -/

namespace Atom

/-- Maps one variable to another, unless they are the same. -/
def varUnifier (child parent : Var) : Except InferenceError Unifier :=
  if child = parent then .ok {} else Unifier.add {} child parent

/-- The unifier of `child` with `parent`. -/
def unifier : Atom → Atom → Except InferenceError Unifier
  | .isa child, .isa parent => child.unifier parent
  | .relation child, .relation parent => child.unifier parent
  | .value child, .value parent => varUnifier child.var parent.var
  | .identity child, .identity parent => varUnifier child.var parent.var
  | .substitution child, .substitution parent => varUnifier child.var parent.var
  | child, parent => .error (.incompatibleAtoms ("cannot unify " ++ child.family.text ++
      " atom with " ++ parent.family.text ++ " atom"))

/-- The atom with its variables renamed. -/
def rename (a : Atom) (u : Unifier) : Atom :=
  match a with
  | .isa a => .isa (a.rename u)
  | .relation r => .relation (r.rename u)
  | .value p => .value { p with var := u.apply p.var }
  | .identity p => .identity { p with var := u.apply p.var }
  | .substitution s => .substitution { s with var := u.apply s.var }

end Atom

end GraphInference
