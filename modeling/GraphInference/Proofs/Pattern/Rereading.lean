import GraphInference.Proofs.Pattern.Printing
import GraphInference.Proofs.Sorted
import GraphInference.Proofs.Traversal.Meaning

/-!
# Reading a printed pattern back

1. A statement that leaves its variable out and a property with a predicate draw a variable each, one after
   the other (`WrittenStatement.allFilled`).
2. Printed, a statement shows its variable, drawn or not; the variable of a property with a predicate is
   elided. So what is read back draws variables for these alone (`WrittenStatement.reread`).
3. What is drawn anew for the elided variables renames them: none of them is shown elsewhere, and each is
   elided once (`renamedTo_allFilled`).
-/

namespace GraphInference

open Text Attempt

/-! ## Renamed patterns -/

def TypeRef.mapVars (ρ : Var → Var) : TypeRef → TypeRef
  | .label l => .label l
  | .var v => .var (ρ v)

def RolePlayer.mapVars (ρ : Var → Var) (p : RolePlayer) : RolePlayer :=
  ⟨p.role, ρ p.player⟩

def Property.mapVars (ρ : Var → Var) : Property → Property
  | .isa t => .isa (t.mapVars ρ)
  | .relation ps => .relation (ps.map (·.mapVars ρ))
  | .has l v p => .has l (ρ v) p
  | .value p => .value p
  | .identity id => .identity id

def Statement.mapVars (ρ : Var → Var) (s : Statement) : Statement :=
  ⟨ρ s.subject, s.properties.map (·.mapVars ρ)⟩

def Conjunction.mapVars (ρ : Var → Var) (c : Conjunction) : Conjunction :=
  ⟨c.statements.map (·.mapVars ρ)⟩

/-- The second pattern is the first one with other variables for those that were generated from the `m`-th up
to the `n`-th, one for each. -/
def Conjunction.RenamedTo (m n : Nat) (c c' : Conjunction) : Prop :=
  ∃ ρ : Var → Var, c' = c.mapVars ρ ∧ (∀ v, ¬ FragmentSet.Hidden m n v → ρ v = v) ∧
    (∀ v, (ρ v).userDefined = v.userDefined) ∧ Set.InjOn ρ {v | v ∈ c.vars}

/-- The variables of a list replaced by those that are generated from the `m`-th on, in the order of the
list. -/
def Var.renumber (elided : List Var) (m : Nat) (v : Var) : Var :=
  if v ∈ elided then .generated (m + elided.idxOf v) else v

section Renumber

variable {elided : List Var} {m : Nat} {v w : Var}

theorem Var.renumber_of_not_mem (hv : v ∉ elided) : v.renumber elided m = v := if_neg hv

theorem Var.renumber_of_mem (hv : v ∈ elided) :
    v.renumber elided m = .generated (m + elided.idxOf v) := if_pos hv

theorem Var.map_renumber (hnodup : elided.Nodup) :
    elided.map (Var.renumber elided m) = (List.range' m elided.length).map .generated := by
  refine List.ext_getElem (by simp) fun i hi _ => ?_
  rw [List.length_map] at hi
  rw [List.getElem_map, List.getElem_map, List.getElem_range'_1,
    Var.renumber_of_mem (List.getElem_mem hi), hnodup.idxOf_getElem]

/-- Variables are kept apart if no other variable is one of those that are put in. -/
theorem Var.renumber_injective_of (hv : v ∉ elided → ∀ k, m ≤ k → v ≠ .generated k)
    (hw : w ∉ elided → ∀ k, m ≤ k → w ≠ .generated k) (heq : v.renumber elided m = w.renumber elided m) :
    v = w := by
  by_cases hvm : v ∈ elided <;> by_cases hwm : w ∈ elided
  · rw [renumber_of_mem hvm, renumber_of_mem hwm] at heq
    have := Var.generated_injective heq
    exact (List.idxOf_inj hvm).mp (by omega)
  · rw [renumber_of_mem hvm, renumber_of_not_mem hwm] at heq
    exact absurd heq.symm (hw hwm _ (Nat.le_add_right _ _))
  · rw [renumber_of_not_mem hvm, renumber_of_mem hwm] at heq
    exact absurd heq (hv hvm _ (Nat.le_add_right _ _))
  · rwa [renumber_of_not_mem hvm, renumber_of_not_mem hwm] at heq

end Renumber

/-! ## Shown and elided variables -/

/-- The variables that are printed with the property. -/
def Property.shown : Property → List Var
  | .isa (.var v) => [v]
  | .relation ps => ps.map RolePlayer.player
  | .has _ v none => [v]
  | _ => []

/-- The variable that a predicate is printed for. -/
def Property.elided : Property → List Var
  | .has _ v (some _) => [v]
  | _ => []

def Statement.shown (s : Statement) : List Var :=
  s.subject :: s.properties.flatMap Property.shown

def Statement.elided (s : Statement) : List Var :=
  s.properties.flatMap Property.elided

theorem Property.mem_vars_iff {p : Property} {v : Var} :
    v ∈ p.vars ↔ v ∈ p.shown ∨ v ∈ p.elided := by
  cases p with
  | isa t => cases t <;> simp [vars, shown, elided]
  | has l w p => cases p <;> simp [vars, shown, elided]
  | _ => simp [vars, shown, elided]

/-! ## What written patterns stand for -/

theorem Fresh.run_mapM_cons {α β : Type} (f : α → Fresh β) (a : α) (l : List α) (s : Supply) :
    ((a :: l).mapM f).run s = (((f a).run s).1 :: ((l.mapM f).run ((f a).run s).2).1,
      ((l.mapM f).run ((f a).run s).2).2) := by
  rw [List.mapM_cons]
  rfl

namespace WrittenProperty

/-- The variables that the property names. -/
def vars : WrittenProperty → List Var
  | .isa (.var v) => [v]
  | .has _ (.var v) => [v]
  | _ => []

/-- How many variables the property draws. -/
def draws : WrittenProperty → Nat
  | .has _ (.value _) => 1
  | _ => 0

theorem run_toProperty (w : WrittenProperty) (s : Supply) :
    w.toProperty.run s = (w.property (.generated s.vars), { s with vars := s.vars + w.draws }) := by
  cases w with
  | has l o => cases o <;> rfl
  | _ => rfl

theorem shown_property (w : WrittenProperty) (x : Var) : (w.property x).shown = w.vars := by
  cases w with
  | has l o => cases o <;> rfl
  | isa t => cases t <;> rfl
  | _ => rfl

theorem elided_property (w : WrittenProperty) (n : Nat) :
    (w.property (.generated n)).elided = (List.range' n w.draws).map .generated := by
  cases w with
  | has l o => cases o <;> rfl
  | _ => rfl

theorem text_property (w : WrittenProperty) (x y : Var) : (w.property x).text = (w.property y).text := by
  cases w with
  | has l o => cases o <;> rfl
  | _ => rfl

theorem mapVars_property {w : WrittenProperty} {ρ : Var → Var} {n : Nat} {y : Var}
    (hshown : ∀ v ∈ w.vars, ρ v = v) (hdrawn : 0 < w.draws → ρ (.generated n) = y) :
    (w.property (.generated n)).mapVars ρ = w.property y := by
  cases w with
  | has l o =>
    cases o with
    | var v => exact congrArg (Property.has l · none) (hshown v (.head _))
    | value p => exact congrArg (Property.has l · (some p)) (hdrawn Nat.zero_lt_one)
  | isa t =>
    cases t with
    | label l => rfl
    | var v => exact congrArg (fun v => Property.isa (.var v)) (hshown v (.head _))
  | _ => rfl

/-- How many variables the properties draw. -/
def allDraws (ws : List WrittenProperty) : Nat :=
  (ws.map draws).sum

theorem allDraws_cons (w : WrittenProperty) (ws : List WrittenProperty) :
    allDraws (w :: ws) = w.draws + allDraws ws := rfl

/-- What the properties stand for if the `n`-th variable is the next one to be generated. -/
def filled : Nat → List WrittenProperty → List Property
  | _, [] => []
  | n, w :: ws => w.property (.generated n) :: filled (n + w.draws) ws

theorem run_mapM_toProperty (ws : List WrittenProperty) (s : Supply) :
    (ws.mapM toProperty).run s = (filled s.vars ws, { s with vars := s.vars + allDraws ws }) := by
  induction ws generalizing s with
  | nil => rfl
  | cons w ws ih =>
    rw [Fresh.run_mapM_cons, run_toProperty, ih, allDraws_cons, ← Nat.add_assoc]
    rfl

theorem stand_filled (n : Nat) (ws : List WrittenProperty) : Stand ws (filled n ws) := by
  induction ws generalizing n with
  | nil => exact .nil
  | cons w ws ih => exact .cons ⟨.generated n, rfl⟩ (ih _)

theorem elided_filled (n : Nat) (ws : List WrittenProperty) :
    (filled n ws).flatMap Property.elided = (List.range' n (allDraws ws)).map .generated := by
  induction ws generalizing n with
  | nil => rfl
  | cons w ws ih =>
    rw [filled, List.flatMap_cons, elided_property, ih, ← List.map_append, List.range'_append_1]
    rfl

theorem shown_filled (n : Nat) (ws : List WrittenProperty) :
    (filled n ws).flatMap Property.shown = ws.flatMap vars := by
  induction ws generalizing n with
  | nil => rfl
  | cons w ws ih => rw [filled, List.flatMap_cons, List.flatMap_cons, shown_property, ih]

theorem text_filled (m n : Nat) (ws : List WrittenProperty) :
    (filled m ws).map Property.text = (filled n ws).map Property.text := by
  induction ws generalizing m n with
  | nil => rfl
  | cons w ws ih =>
    rw [filled, filled, List.map_cons, List.map_cons, text_property w _ (.generated n), ih]

theorem mapVars_filled {ws : List WrittenProperty} {ρ : Var → Var} {m n : Nat}
    (hshown : ∀ v ∈ ws.flatMap vars, ρ v = v)
    (hdrawn : ∀ i < allDraws ws, ρ (.generated (n + i)) = .generated (m + i)) :
    (filled n ws).map (·.mapVars ρ) = filled m ws := by
  induction ws generalizing m n with
  | nil => rfl
  | cons w ws ih =>
    rw [List.flatMap_cons, List.forall_mem_append] at hshown
    rw [allDraws_cons] at hdrawn
    rw [filled, filled, List.map_cons, mapVars_property hshown.1 (y := .generated m) ?_, ih hshown.2]
    · intro i hi
      rw [Nat.add_assoc, Nat.add_assoc]
      exact hdrawn (w.draws + i) (by omega)
    · exact fun hpos => hdrawn 0 (by omega)

end WrittenProperty

namespace WrittenStatement

open GraphInference.WrittenProperty (allDraws)

variable {w : WrittenStatement} {ws : List WrittenStatement} {ρ : Var → Var} {m n : Nat}

/-- The variables that the statement names. -/
def vars (w : WrittenStatement) : List Var :=
  w.subject.toList ++ ((w.players.getD []).map RolePlayer.player ++ w.properties.flatMap WrittenProperty.vars)

/-- How many variables the statement draws. -/
def draws (w : WrittenStatement) : Nat :=
  allDraws w.properties + if w.subject.isSome then 0 else 1

/-- The variable of the statement if the `n`-th variable is the next one to be generated: where it is left
out, it is drawn after those of the properties. -/
def subjectFrom (n : Nat) (w : WrittenStatement) : Var :=
  w.subject.getD (.generated (n + allDraws w.properties))

/-- What the statement stands for if the `n`-th variable is the next one to be generated. -/
def filled (n : Nat) (w : WrittenStatement) : Statement :=
  w.statement (w.subjectFrom n) (WrittenProperty.filled n w.properties)

theorem run_toStatement (w : WrittenStatement) (s : Supply) :
    w.toStatement.run s = (w.filled s.vars, { s with vars := s.vars + w.draws }) := by
  obtain ⟨subject, players, properties⟩ := w
  have hproperties := WrittenProperty.run_mapM_toProperty properties s
  cases subject with
  | some v =>
    have hrun : (toStatement ⟨some v, players, properties⟩).run s =
        (statement ⟨some v, players, properties⟩ v ((properties.mapM WrittenProperty.toProperty).run s).1,
          ((properties.mapM WrittenProperty.toProperty).run s).2) := rfl
    rw [hrun, hproperties]
    rfl
  | none =>
    have hrun : (toStatement ⟨none, players, properties⟩).run s =
        (statement ⟨none, players, properties⟩
          (Fresh.var.run ((properties.mapM WrittenProperty.toProperty).run s).2).1
          ((properties.mapM WrittenProperty.toProperty).run s).1,
          (Fresh.var.run ((properties.mapM WrittenProperty.toProperty).run s).2).2) := rfl
    rw [hrun, hproperties]
    rfl

/-- What the statements stand for if the `n`-th variable is the next one to be generated. -/
def allFilled : Nat → List WrittenStatement → List Statement
  | _, [] => []
  | n, w :: ws => w.filled n :: allFilled (n + w.draws) ws

/-- The statements as they are printed, with all their variables. -/
def reread : Nat → List WrittenStatement → List WrittenStatement
  | _, [] => []
  | n, w :: ws => { w with subject := some (w.subjectFrom n) } :: reread (n + w.draws) ws

theorem run_mapM_toStatement (ws : List WrittenStatement) (s : Supply) :
    (ws.mapM toStatement).run s =
      (allFilled s.vars ws, { s with vars := s.vars + (ws.map draws).sum }) := by
  induction ws generalizing s with
  | nil => rfl
  | cons w ws ih =>
    rw [Fresh.run_mapM_cons, run_toStatement, ih, List.map_cons, List.sum_cons, ← Nat.add_assoc]
    rfl

theorem shown_filled (n : Nat) (w : WrittenStatement) : (w.filled n).shown = w.subjectFrom n ::
    ((w.players.getD []).map RolePlayer.player ++ w.properties.flatMap WrittenProperty.vars) := by
  unfold Statement.shown filled statement
  dsimp only
  rw [List.flatMap_append, WrittenProperty.shown_filled]
  cases w.players with
  | none => rfl
  | some ps => simp [Property.shown]

theorem elided_filled (n : Nat) (w : WrittenStatement) :
    (w.filled n).elided = (List.range' n (allDraws w.properties)).map .generated := by
  unfold Statement.elided filled statement
  dsimp only
  rw [List.flatMap_append, WrittenProperty.elided_filled]
  cases w.players with
  | none => rfl
  | some ps => rfl

/-- Printed and read again, a statement has the same text. -/
theorem text_filled (m n : Nat) (w : WrittenStatement) :
    (filled m { w with subject := some (w.subjectFrom n) }).text = (w.filled n).text := by
  have hrelation (k : Nat) := (WrittenProperty.stand_filled k w.properties).isRelation
  have hlisted : Statement.listed (WrittenProperty.filled m w.properties) =
      Statement.listed (WrittenProperty.filled n w.properties) := by
    have htext := WrittenProperty.text_filled m n w.properties
    have hmap (k : Nat) : (WrittenProperty.filled k w.properties).map (·.text.toList) =
        ((WrittenProperty.filled k w.properties).map Property.text).map String.toList := by
      rw [List.map_map]
      rfl
    have hempty (k : Nat) : (WrittenProperty.filled k w.properties).isEmpty =
        ((WrittenProperty.filled k w.properties).map Property.text).isEmpty := List.isEmpty_map.symm
    unfold Statement.listed
    rw [hmap m, hmap n, hempty m, hempty n, htext]
  refine String.toList_inj.mp ?_
  unfold filled
  rw [Statement.toList_text, Statement.toList_text, players?_statement (hrelation m),
    players?_statement (hrelation n), others_statement (hrelation m), others_statement (hrelation n),
    hlisted]
  rfl

theorem mapVars_filled (hshown : ∀ v ∈ (w.filled n).shown, ρ v = v)
    (hdrawn : ∀ i < allDraws w.properties, ρ (.generated (n + i)) = .generated (m + i)) :
    (w.filled n).mapVars ρ = filled m { w with subject := some (w.subjectFrom n) } := by
  rw [shown_filled, List.forall_mem_cons, List.forall_mem_append] at hshown
  obtain ⟨hsubject, hplayers, hproperties⟩ := hshown
  have hrelation : ((w.players.map Property.relation).toList).map (·.mapVars ρ) =
      (w.players.map Property.relation).toList := by
    cases hps : w.players with
    | none => rfl
    | some ps =>
      have hplayer : ∀ p ∈ ps, p.mapVars ρ = p := by
        intro p hp
        unfold RolePlayer.mapVars
        rw [hplayers p.player]
        rw [hps]
        exact List.mem_map_of_mem hp
      simp only [Option.map_some, Option.toList_some, List.map_singleton, Property.mapVars]
      rw [List.map_congr_left hplayer, List.map_id']
  unfold filled statement Statement.mapVars
  dsimp only
  rw [hsubject, List.map_append, hrelation, WrittenProperty.mapVars_filled hproperties hdrawn]
  rfl

/-! ## Lists of statements -/

/-- The elided variables are generated one after the other. -/
theorem elided_sublist (n : Nat) (ws : List WrittenStatement) :
    ((allFilled n ws).flatMap Statement.elided).Sublist
      ((List.range' n (ws.map draws).sum).map .generated) := by
  induction ws generalizing n with
  | nil => exact List.Sublist.refl _
  | cons w ws ih =>
    rw [allFilled, List.flatMap_cons, elided_filled, List.map_cons, List.sum_cons,
      ← List.range'_append_1, List.map_append]
    refine List.Sublist.append (List.Sublist.map _ ?_) (ih _)
    unfold draws
    rw [← List.range'_append_1]
    exact List.sublist_append_left _ _

theorem exists_generated_of_mem_elided {v : Var}
    (hv : v ∈ (allFilled n ws).flatMap Statement.elided) :
    ∃ k, n ≤ k ∧ k < n + (ws.map draws).sum ∧ v = .generated k := by
  obtain ⟨k, hk, rfl⟩ := List.mem_map.mp ((elided_sublist n ws).subset hv)
  obtain ⟨hlow, hhigh⟩ := List.mem_range'_1.mp hk
  exact ⟨k, hlow, hhigh, rfl⟩

/-- A variable that is shown is named, or it was drawn for a statement. -/
theorem named_or_drawn_of_mem_shown {st : Statement} (hst : st ∈ allFilled n ws) {v : Var}
    (hv : v ∈ st.shown) : (∃ w ∈ ws, v ∈ w.vars) ∨ ∃ k, n ≤ k ∧ k < n + (ws.map draws).sum ∧
      v = .generated k ∧ v ∉ (allFilled n ws).flatMap Statement.elided := by
  induction ws generalizing n with
  | nil => cases hst
  | cons w ws ih =>
    -- the variables drawn for the properties, for the statement and for the other statements
    have hapart {k : Nat} (hk : n + allDraws w.properties ≤ k)
        (hrest : Var.generated k ∉ (allFilled (n + w.draws) ws).flatMap Statement.elided) :
        Var.generated k ∉ (allFilled n (w :: ws)).flatMap Statement.elided := by
      rw [allFilled, List.flatMap_cons, elided_filled, List.mem_append, not_or]
      refine ⟨fun hmem => ?_, hrest⟩
      obtain ⟨j, hj, heq⟩ := List.mem_map.mp hmem
      obtain ⟨-, hj⟩ := List.mem_range'_1.mp hj
      have := Var.generated_injective heq
      omega
    rw [List.map_cons, List.sum_cons]
    rcases List.mem_cons.mp hst with rfl | hst
    · rw [shown_filled] at hv
      rcases List.mem_cons.mp hv with rfl | hv
      · cases hsubject : w.subject with
        | some x => exact .inl ⟨w, .head _, by simp [subjectFrom, vars, hsubject]⟩
        | none =>
          have hdraws : w.draws = allDraws w.properties + 1 := by simp [draws, hsubject]
          have hx : w.subjectFrom n = .generated (n + allDraws w.properties) := by
            simp [subjectFrom, hsubject]
          rw [hx]
          refine .inr ⟨_, by omega, by omega, rfl, hapart le_rfl fun hmem => ?_⟩
          obtain ⟨k, hk, -, heq⟩ := exists_generated_of_mem_elided hmem
          have := Var.generated_injective heq
          omega
      · exact .inl ⟨w, .head _, List.mem_append_right _ hv⟩
    · rcases ih hst with ⟨w', hw', hv⟩ | ⟨k, hlow, hhigh, rfl, hnot⟩
      · exact .inl ⟨w', .tail _ hw', hv⟩
      · have hdraws : allDraws w.properties ≤ w.draws := Nat.le_add_right _ _
        exact .inr ⟨k, by omega, by omega, rfl, hapart (by omega) hnot⟩

/-- Printed and read again, the statements have the same text. -/
theorem text_allFilled (m n : Nat) (ws : List WrittenStatement) :
    (allFilled m (reread n ws)).map Statement.text = (allFilled n ws).map Statement.text := by
  induction ws generalizing m n with
  | nil => rfl
  | cons w ws ih => rw [reread, allFilled, allFilled, List.map_cons, List.map_cons, text_filled, ih]

theorem mapVars_allFilled (hshown : ∀ st ∈ allFilled n ws, ∀ v ∈ st.shown, ρ v = v) {k : Nat}
    (hdrawn : ((allFilled n ws).flatMap Statement.elided).map ρ = (List.range' m k).map .generated) :
    (allFilled n ws).map (·.mapVars ρ) = allFilled m (reread n ws) := by
  induction ws generalizing m n k with
  | nil => rfl
  | cons w ws ih =>
    rw [allFilled, List.forall_mem_cons] at hshown
    rw [allFilled, List.flatMap_cons, elided_filled, List.map_append, List.map_map] at hdrawn
    have hk : k = allDraws w.properties +
        ((allFilled (n + w.draws) ws).flatMap Statement.elided).length := by
      have hlength := congrArg List.length hdrawn
      simp only [List.length_append, List.length_map, List.length_range'] at hlength
      exact hlength.symm
    rw [hk, ← List.range'_append_1, List.map_append] at hdrawn
    obtain ⟨hhead, hrest⟩ := List.append_inj hdrawn (by simp)
    have hdraws : draws { w with subject := some (w.subjectFrom n) } = allDraws w.properties := rfl
    rw [allFilled, reread, allFilled, List.map_cons, hdraws, ih hshown.2 hrest,
      mapVars_filled hshown.1 fun i hi => ?_]
    have hget := congrArg (·[i]?) hhead
    simpa [hi] using hget

end WrittenStatement

open GraphInference.WrittenStatement (allFilled reread)

/-! ## Printed statements -/

namespace Grammar

variable {cs r r' : List Char} {n : Nat}

theorem StatementForm.varForm_subjectFrom {w : WrittenStatement} (h : StatementForm isBlank cs w r)
    (hr : Stops marks r') : VarForm ((w.subjectFrom n).text.toList ++ r') (w.subjectFrom n) r' := by
  obtain ⟨hsubject, -, -, -, -, -, -, -⟩ := h
  cases hsubject with
  | none _ => exact varForm_generated _ hr
  | some h => exact h.printed hr

theorem StatementsForm.printed {ws : List WrittenStatement} (h : StatementsForm isBlank cs ws r)
    (hrestorable : ∀ st ∈ allFilled n ws, ∀ p ∈ st.properties, p.Restorable) (r' : List Char) :
    StatementsForm isBlank
      ([' '].intercalate ((allFilled n ws).map fun st => st.text.toList ++ [';']) ++ r')
      (reread n ws) r' := by
  have hstatement {cs r : List Char} {w : WrittenStatement} {m : Nat} (h : StatementForm isBlank cs w r)
      (hw : ∀ p ∈ (w.filled m).properties, p.Restorable) (r' : List Char) :
      StatementForm isBlank ((w.filled m).text.toList ++ [';'] ++ r')
        { w with subject := some (w.subjectFrom m) } r' := by
    rw [List.append_assoc]
    exact h.printed h.varForm_subjectFrom (WrittenProperty.stand_filled m w.properties)
      (fun p hp => hw p (List.mem_append_right _ hp)) r'
  induction h generalizing n with
  | one _ h =>
    rw [allFilled, allFilled, List.map_singleton, List.intercalate_singleton]
    exact .one (.none _) (hstatement h (hrestorable _ (.head _)) r')
  | @more _ _ _ _ w ws _ h hs ih =>
    rw [allFilled, List.forall_mem_cons] at hrestorable
    have hrest := ih hrestorable.2
    obtain ⟨w', ws', rfl⟩ : ∃ w' ws', ws = w' :: ws' := by
      cases hs <;> exact ⟨_, _, rfl⟩
    rw [allFilled, List.map_cons] at hrest
    rw [allFilled, List.map_cons, allFilled, List.map_cons, List.intercalate_cons_cons, List.append_assoc,
      List.append_assoc]
    exact .more (.none _) (hstatement h hrestorable.1 _) (hrest.of_blanks (.more rfl (.none _)))

end Grammar

/-! ## Reading back -/

/-- The text names the variable. -/
def Grammar.Names (text : String) (v : Var) : Prop :=
  ∃ written, Grammar.pattern text.toList = .ok written ∧ ∃ w ∈ written, v ∈ w.vars

theorem Conjunction.run_ofWritten (ws : List WrittenStatement) (s : Supply) :
    (Conjunction.ofWritten ws).run s = (⟨allFilled s.vars ws⟩,
      { s with vars := s.vars + (ws.map WrittenStatement.draws).sum }) := by
  have hrun : (Conjunction.ofWritten ws).run s = (⟨((ws.mapM WrittenStatement.toStatement).run s).1⟩,
      ((ws.mapM WrittenStatement.toStatement).run s).2) := rfl
  rw [hrun, WrittenStatement.run_mapM_toStatement]

theorem Conjunction.shown_or_elided_of_mem_vars {c : Conjunction} {v : Var} (hv : v ∈ c.vars) :
    (∃ st ∈ c.statements, v ∈ st.shown) ∨ v ∈ c.statements.flatMap Statement.elided := by
  rw [Conjunction.vars, SortedSet.mem_ofList, List.mem_flatMap] at hv
  obtain ⟨st, hst, hv⟩ := hv
  rw [← SortedSet.mem_iff_mem_toList, Statement.vars, SortedSet.mem_filter, SortedSet.mem_ofList] at hv
  rcases List.mem_cons.mp hv.1 with rfl | hv
  · exact .inl ⟨st, hst, .head _⟩
  · obtain ⟨p, hp, hv⟩ := List.mem_flatMap.mp hv
    rcases Property.mem_vars_iff.mp hv with hv | hv
    · exact .inl ⟨st, hst, .tail _ (List.mem_flatMap.mpr ⟨p, hp, hv⟩)⟩
    · exact .inr (List.mem_flatMap.mpr ⟨st, hst, List.mem_flatMap.mpr ⟨p, hp, hv⟩⟩)

/-- What is filled with the variables from the `n`-th on becomes what is read of its text with those from the
`m`-th on, by renaming the elided variables. -/
theorem renamedTo_allFilled {ws : List WrittenStatement} {m n : Nat}
    (hfresh : ∀ w ∈ ws, ∀ v ∈ w.vars, ∀ k, n ≤ k → v ≠ .generated k)
    (hm : n + (ws.map WrittenStatement.draws).sum ≤ m) :
    Conjunction.RenamedTo n (n + (ws.map WrittenStatement.draws).sum) ⟨allFilled n ws⟩
      ⟨allFilled m (reread n ws)⟩ := by
  generalize helided : (allFilled n ws).flatMap Statement.elided = elided
  have hgenerated {v : Var} (hv : v ∈ elided) :
      ∃ k, n ≤ k ∧ k < n + (ws.map WrittenStatement.draws).sum ∧ v = .generated k :=
    WrittenStatement.exists_generated_of_mem_elided (helided ▸ hv)
  have hnodup : elided.Nodup := by
    have hall : ((List.range' n (ws.map WrittenStatement.draws).sum).map Var.generated).Nodup :=
      List.Nodup.map Var.generated_injective List.nodup_range'
    exact helided ▸ hall.sublist (WrittenStatement.elided_sublist n ws)
  have hshown {v : Var} (hv : ∃ st ∈ allFilled n ws, v ∈ st.shown) :
      v ∉ elided ∧ ∀ k, m ≤ k → v ≠ .generated k := by
    obtain ⟨st, hst, hv⟩ := hv
    rcases WrittenStatement.named_or_drawn_of_mem_shown hst hv with ⟨w, hw, hv⟩ | ⟨k, -, hk, rfl, hnot⟩
    · refine ⟨fun hmem => ?_, fun k hk => hfresh w hw v hv k (by omega)⟩
      obtain ⟨k, hk, -, heq⟩ := hgenerated hmem
      exact hfresh w hw v hv k hk heq
    · refine ⟨helided ▸ hnot, fun j hj heq => ?_⟩
      have := Var.generated_injective heq
      omega
  have hkept {v : Var} (hv : v ∉ elided) : v.renumber elided m = v := Var.renumber_of_not_mem hv
  have hout {v : Var} (hv : v ∈ Conjunction.vars ⟨allFilled n ws⟩) (hnot : v ∉ elided) :
      ∀ k, m ≤ k → v ≠ .generated k :=
    (hshown ((Conjunction.shown_or_elided_of_mem_vars hv).resolve_right (helided ▸ hnot))).2
  refine ⟨Var.renumber elided m, ?_, fun v hv => hkept fun hmem => hv ?_, fun v => ?_,
    fun v hv w hw heq => Var.renumber_injective_of (hout hv) (hout hw) heq⟩
  · have hdrawn := Var.map_renumber (m := m) hnodup
    nth_rewrite 2 [← helided] at hdrawn
    exact congrArg Conjunction.mk (WrittenStatement.mapVars_allFilled
      (fun st hst v hv => hkept (hshown ⟨st, hst, hv⟩).1) hdrawn).symm
  · obtain ⟨k, hlow, hhigh, rfl⟩ := hgenerated hmem
    exact ⟨k, hlow, hhigh, rfl⟩
  · by_cases hv : v ∈ elided
    · rw [Var.renumber_of_mem hv]
      obtain ⟨k, -, -, rfl⟩ := hgenerated hv
      rfl
    · rw [hkept hv]

end GraphInference
