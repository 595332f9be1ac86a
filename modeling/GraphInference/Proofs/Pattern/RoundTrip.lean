import GraphInference.Proofs.Pattern.Weight

/-!
# Printed patterns are read back

A pattern that was read from a text is read back from its own text, up to the variables that are not printed,
if and only if its literals and identifiers are restorable (`Conjunction.ofText_text_iff`). What is printed is
a derivation of the grammar then. Conversely, what is read of a text weighs no less than the text when it is
printed, and no more only if it is restorable.
-/

namespace GraphInference

open Attempt Text

open GraphInference.Grammar (PatternForm)
open GraphInference.WrittenStatement (allFilled reread)

theorem Property.restorable_mapVars {p : Property} {ρ : Var → Var} :
    (p.mapVars ρ).Restorable ↔ p.Restorable := by
  cases p with
  | has l v p => cases p <;> exact Iff.rfl
  | _ => exact Iff.rfl

/-- A pattern that is restorable is derived from its text. -/
theorem Grammar.PatternForm.printed {cs : List Char} {ws : List WrittenStatement}
    (h : PatternForm isBlank cs ws []) {n : Nat}
    (hrestorable : ∀ st ∈ allFilled n ws, ∀ p ∈ st.properties, p.Restorable) :
    PatternForm isBlank (Conjunction.mk (allFilled n ws)).text.toList (reread n ws) [] := by
  obtain ⟨h, -⟩ := h
  have hprinted := h.printed hrestorable []
  rw [List.append_nil, ← Conjunction.toList_text ⟨allFilled n ws⟩] at hprinted
  exact .intro hprinted (.none [])

/-- Printed and read again, a pattern is the same up to the variables that were drawn for it, and has the same
text, if and only if all its literals and identifiers can be restored. -/
theorem Conjunction.ofText_text_iff {text : String} {s t u : Supply} {c : Conjunction}
    (h : (Conjunction.ofText text).Gives s c t)
    (hfresh : ∀ k, s.vars ≤ k → ¬ Grammar.Names text (.generated k)) (hu : t.vars ≤ u.vars) :
    (∃ c' v, (Conjunction.ofText c.text).Gives u c' v ∧ c.RenamedTo s.vars t.vars c' ∧ c'.text = c.text) ↔
      ∀ st ∈ c.statements, ∀ p ∈ st.properties, p.Restorable := by
  obtain ⟨ws, hws, hrun⟩ := Conjunction.gives_ofText_iff.mp h
  rw [Conjunction.run_ofWritten] at hrun
  obtain ⟨rfl, rfl⟩ := Prod.mk.inj hrun
  constructor
  · rintro ⟨c', v, hgives, ⟨ρ, rfl, -⟩, htext⟩ st hst p hp
    obtain ⟨ws', hws', hrun'⟩ := Conjunction.gives_ofText_iff.mp hgives
    rw [Conjunction.run_ofWritten] at hrun'
    obtain ⟨hc', -⟩ := Prod.mk.inj hrun'
    have hrestorable := (hws'.weighs u.vars).2 (by rw [hc', htext, weight_nil, Int.add_zero])
    have hst' : st.mapVars ρ ∈ allFilled u.vars ws' := by
      rw [show allFilled u.vars ws' = _ from congrArg Conjunction.statements hc']
      exact List.mem_map_of_mem hst
    exact Property.restorable_mapVars.mp (hrestorable _ hst' _ (List.mem_map_of_mem hp))
  · intro hrestorable
    refine ⟨⟨allFilled u.vars (reread s.vars ws)⟩, _, Conjunction.gives_ofText_iff.mpr
      ⟨reread s.vars ws, hws.printed hrestorable, Conjunction.run_ofWritten _ u⟩, ?_, ?_⟩
    · refine renamedTo_allFilled (fun w hw v hv k hk heq => hfresh k hk ?_) hu
      exact ⟨ws, Grammar.pattern_eq_ok_iff.mpr hws, w, hw, heq ▸ hv⟩
    · have htext := WrittenStatement.text_allFilled u.vars s.vars ws
      have hmap (c : Conjunction) : c.text =
          " ".intercalate ((c.statements.map Statement.text).map (· ++ ";")) := by
        rw [List.map_map]
        rfl
      rw [hmap, hmap, htext]

/-- A text in which every variable is a user-defined one names none that is generated. -/
theorem Grammar.not_names_generated {text : String}
    (h : ∀ w ∈ (Grammar.pattern text.toList).toOption.getD [], ∀ v ∈ w.vars, v.userDefined = true)
    (k : Nat) : ¬ Grammar.Names text (.generated k) := by
  rintro ⟨written, hwritten, w, hw, hv⟩
  rw [hwritten] at h
  have huser := h w hw _ hv
  cases huser

namespace Membership

/-- Two members of a club; the first one has a height and a name, the latter in single quotes. -/
def text : String :=
  "(member: $x, $y) isa club; $x isa person, has height 1.5, has name 'Bob';"

/-- What the text stands for. -/
def pattern : Conjunction :=
  (Conjunction.ofText text).resultOr {} ⟨[]⟩

def supply : Supply :=
  ((Conjunction.ofText text).run {}).2

theorem ofText_text_pattern : ∃ c' v, (Conjunction.ofText pattern.text).Gives supply c' v ∧
    pattern.RenamedTo 0 supply.vars c' ∧ c'.text = pattern.text := by
  have hgives : (Conjunction.ofText text).Gives {} pattern supply := gives_resultOr (by decide +kernel) _
  have hnames : ∀ k, ¬ Grammar.Names text (.generated k) := Grammar.not_names_generated (by decide +kernel)
  exact (Conjunction.ofText_text_iff hgives (fun k _ => hnames k) le_rfl).mpr (by decide +kernel)

end Membership

namespace Whole

/-- A whole number that is written as a double. -/
def text : String := "$x val 2.0;"

/-- What the text stands for. -/
def pattern : Conjunction :=
  (Conjunction.ofText text).resultOr {} ⟨[]⟩

/-- Printed without its point, the double is read back as an integer. -/
theorem not_ofText_text : ¬ ∀ (text : String) (s t u : Supply) (c : Conjunction),
    (Conjunction.ofText text).Gives s c t → (∀ k, s.vars ≤ k → ¬ Grammar.Names text (.generated k)) →
      t.vars ≤ u.vars → ∃ c' v, (Conjunction.ofText c.text).Gives u c' v ∧
        c.RenamedTo s.vars t.vars c' ∧ c'.text = c.text := by
  intro h
  have hgives : (Conjunction.ofText text).Gives {} pattern {} := gives_resultOr (by decide +kernel) _
  have hnames : ∀ k, ¬ Grammar.Names text (.generated k) :=
    Grammar.not_names_generated (by decide +kernel)
  obtain ⟨c', v, hread, ⟨ρ, rfl, -⟩, -⟩ := h text {} {} {} pattern hgives (fun k _ => hnames k) le_rfl
  have hpattern : pattern = ⟨[⟨.named "x", [.value (.eq (.double ⟨0x4000000000000000⟩))]⟩]⟩ := by
    decide +kernel
  have hlong : (Conjunction.ofText pattern.text).resultOr {} ⟨[]⟩ =
      ⟨[⟨.named "x", [.value (.eq (.long 2))]⟩]⟩ := by
    decide +kernel
  have hreread := gives_resultOr (x := Conjunction.ofText pattern.text) (s := {}) (by decide +kernel) ⟨[]⟩
  have heq := Except.ok.inj (Prod.mk.inj (hread.symm.trans hreread)).1
  rw [hlong, hpattern] at heq
  have hvalues : [[Property.value (.eq (.double ⟨0x4000000000000000⟩))]] =
      [[Property.value (.eq (.long 2))]] := congrArg (·.statements.map Statement.properties) heq
  exact absurd hvalues (by decide)

end Whole

end GraphInference
