import GraphInference.Proofs.Number.Decimal
import GraphInference.Proofs.Number.Integers
import GraphInference.Value

/-!
# Literals

Two literals of one text pass the same values (`Comparison.test_eq_of_literal_eq`), provided that no
string has a quote in it and no integer at or above `2^53` has the text of a double.
-/

namespace GraphInference

/-! ## Characters -/

/-- The characters of a literal without quotes. -/
def Text.isLiteralChar (c : Char) : Bool :=
  c.isAlphanum || c = '-' || c = '.'

open Text (isLiteralChar)

theorem isLiteralChar_of_isDigit {c : Char} (h : c.isDigit = true) : isLiteralChar c = true := by
  simp [isLiteralChar, Char.isAlphanum, h]

theorem isLiteralChar_of_mem_toString {n : Int} :
    ∀ c ∈ (toString n).toList, isLiteralChar c = true := by
  have hdigits : ∀ c ∈ Nat.toDigits 10 n.natAbs, isLiteralChar c = true := fun c hc =>
    isLiteralChar_of_isDigit (Double.isDigit_of_mem_toDigits c hc)
  rw [Double.toList_toString]
  split
  · exact List.forall_mem_cons.mpr ⟨rfl, hdigits⟩
  · exact hdigits

namespace Double

theorem isLiteralChar_of_mem_positional {m : Nat} {k : Int} :
    ∀ c ∈ positional m k, isLiteralChar c = true := by
  have hdigits : ∀ c ∈ Nat.toDigits 10 m, isLiteralChar c = true := fun c hc =>
    isLiteralChar_of_isDigit (isDigit_of_mem_toDigits c hc)
  have hzeros {j : Nat} : ∀ c ∈ List.replicate j '0', isLiteralChar c = true := fun c hc =>
    List.eq_of_mem_replicate hc ▸ rfl
  unfold positional
  dsimp only
  split
  · exact List.forall_mem_append.mpr ⟨hdigits, hzeros⟩
  · have hpadded {j : Nat} : ∀ c ∈ List.replicate j '0' ++ Nat.toDigits 10 m,
        isLiteralChar c = true := List.forall_mem_append.mpr ⟨hzeros, hdigits⟩
    refine List.forall_mem_append.mpr ⟨fun c hc => hpadded c (List.mem_of_mem_take hc),
      List.forall_mem_cons.mpr ⟨rfl, fun c hc => hpadded c (List.mem_of_mem_drop hc)⟩⟩

theorem eq_of_toString_eq {m n : Int} (h : toString m = toString n) : m = n := by
  have hdigits {a b : Nat} (h : Nat.toDigits 10 a = Nat.toDigits 10 b) : a = b := by
    rw [← digitsValue_toDigits a, h, digitsValue_toDigits]
  have hsign {a : Nat} {cs : List Char} : '-' :: cs ≠ Nat.toDigits 10 a := fun h =>
    absurd (isDigit_of_mem_toDigits '-' (h ▸ List.mem_cons_self)) (by decide)
  have h := congrArg String.toList h
  rw [toList_toString, toList_toString] at h
  split at h <;> split at h
  · have := hdigits (List.cons.inj h).2
    simp only [decide_eq_true_eq] at *
    omega
  · exact absurd h hsign
  · exact absurd h.symm hsign
  · have := hdigits h
    simp only [decide_eq_true_eq] at *
    omega

theorem isLiteralChar_of_mem_text {d : Double} : ∀ c ∈ d.text.toList, isLiteralChar c = true := by
  unfold text
  split
  · exact List.all_eq_true.mp (by decide)
  · dsimp only
    rw [String.toList_ofList]
    have hbody : ∀ c ∈ (if d.isInfinite = true then ['i', 'n', 'f'] else if d.magnitude = 0 then ['0'] else
        positional (shortest d.magnitude).1 (shortest d.magnitude).2), isLiteralChar c = true := by
      split
      · exact List.all_eq_true.mp rfl
      · split
        · exact List.all_eq_true.mp rfl
        · exact isLiteralChar_of_mem_positional
    split
    · exact List.forall_mem_cons.mpr ⟨rfl, hbody⟩
    · exact hbody

/-- A NaN has a text of its own. -/
theorem text_eq_nan_iff {d : Double} : d.text = "NaN" ↔ d.isNaN = true := by
  constructor
  · intro h
    by_contra hnan
    have hread := ofText?_text (Bool.eq_false_iff.mpr hnan)
    rw [h] at hread
    obtain rfl := Option.some.inj (ofText?_nan.symm.trans hread)
    exact hnan (by decide)
  · exact fun h => if_pos h

/-- Numbers of one text compare alike. -/
theorem compare?_eq_of_text_eq {d e : Double} (h : d.text = e.text) (a : Double) :
    a.compare? d = a.compare? e := by
  by_cases hnan : d.isNaN = true
  · have hnan' : e.isNaN = true := text_eq_nan_iff.mp (h ▸ text_eq_nan_iff.mpr hnan)
    unfold compare?
    rw [hnan, hnan', Bool.or_true]
    rfl
  · have hnan' : ¬ e.isNaN = true := fun he => hnan (text_eq_nan_iff.mp (h ▸ text_eq_nan_iff.mpr he))
    have hd := ofText?_text (Bool.eq_false_iff.mpr hnan)
    have he := ofText?_text (Bool.eq_false_iff.mpr hnan')
    rw [h] at hd
    rw [Option.some.inj (hd.symm.trans he)]

theorem decimalLength_natAbs_toInt (n : Int64) : decimalLength n.toInt.natAbs ≤ 400 := by
  have := n.toInt_lt
  have := n.le_toInt
  exact (decimalLength_le_iff.mpr (show _ < 10 ^ 20 by omega)).trans (by decide)

/-- A number with the text of an integer is the one nearest to it. -/
theorem eq_ofInt_of_text_eq {d : Double} {n : Int64} (h : d.text = toString n.toInt) :
    d = ofInt n.toInt := by
  have hnan : ¬ d.isNaN = true := by
    intro hnan
    have hchar : 'N' ∈ (toString n.toInt).toList := by
      rw [← h, text_eq_nan_iff.mpr hnan]
      decide
    rw [toList_toString] at hchar
    have hdigits : 'N' ∉ Nat.toDigits 10 n.toInt.natAbs := fun hc =>
      absurd (isDigit_of_mem_toDigits _ hc) (by decide)
    split at hchar
    · exact hdigits ((List.mem_cons.mp hchar).resolve_left (by decide))
    · exact hdigits hchar
  have hread := ofText?_text (Bool.eq_false_iff.mpr hnan)
  rw [h, ofText?_toString (decimalLength_natAbs_toInt n)] at hread
  exact (Option.some.inj hread).symm

end Double

/-! ## Literals -/

namespace Value

/-- A literal that its text tells apart: a string has no quote in it, and an integer that has the text of
a double is below `2^53`. -/
def Legible : Value → Prop
  | .string s => '"' ∉ s.toList
  | .double d => ∀ n : Int64, d.text = toString n.toInt → n.toInt.natAbs < 2 ^ 53
  | _ => True

theorem isLiteralChar_of_mem_literal {v : Value} (h : ∀ s, v ≠ .string s) :
    ∀ c ∈ v.literal.toList, isLiteralChar c = true := by
  cases v with
  | string s => exact absurd rfl (h s)
  | long n => exact isLiteralChar_of_mem_toString
  | double d => exact Double.isLiteralChar_of_mem_text
  | boolean b => cases b <;> exact List.all_eq_true.mp (by decide)

theorem toList_literal_string (s : String) : (literal (.string s)).toList = '"' :: (s.toList ++ ['"']) := by
  show ("\"" ++ s ++ "\"").toList = _
  rw [String.toList_append, String.toList_append]
  rfl

theorem literal_ne_string {v : Value} (hv : ∀ s, v ≠ .string s) (t : String) :
    v.literal ≠ literal (.string t) := by
  intro h
  have hquote : '"' ∈ v.literal.toList := by
    rw [h, toList_literal_string]
    exact .head _
  exact absurd (isLiteralChar_of_mem_literal hv _ hquote) (by decide)

theorem string_eq_of_literal_eq {s t : String} (h : literal (.string s) = literal (.string t)) :
    s = t := by
  have h := congrArg String.toList h
  rw [toList_literal_string, toList_literal_string] at h
  exact String.toList_inj.mp (List.append_cancel_right (List.cons.inj h).2)

/-- A number reads as a number, which a truth value does not. -/
theorem literal_ne_boolean {v : Value} {d : Double} (h : Double.ofText? v.literal.toList = some d)
    (b : Bool) : v.literal ≠ literal (.boolean b) := by
  intro heq
  have hword : Double.ofText? (literal (.boolean b)).toList = none := by
    cases b <;> rfl
  rw [heq, hword] at h
  cases h

theorem ofText?_long (n : Int64) :
    Double.ofText? (literal (.long n)).toList = some (.ofInt n.toInt) :=
  Double.ofText?_toString (Double.decimalLength_natAbs_toInt n)

theorem exists_ofText?_double (d : Double) :
    ∃ e, Double.ofText? (literal (.double d)).toList = some e := by
  by_cases hnan : d.isNaN = true
  · have htext : literal (.double d) = "NaN" := Double.text_eq_nan_iff.mpr hnan
    exact ⟨.nan, htext ▸ Double.ofText?_nan⟩
  · exact ⟨d, Double.ofText?_text (Bool.eq_false_iff.mpr hnan)⟩

theorem compare?_double_eq_long {d : Double} {n : Int64} (hd : (Value.double d).Legible)
    (h : d.text = toString n.toInt) (actual : Value) :
    actual.compare? (.double d) = actual.compare? (.long n) := by
  obtain rfl := Double.eq_ofInt_of_text_eq h
  cases actual with
  | long a => exact Double.compare?_ofInt a.toInt (hd n h)
  | _ => rfl

/-- Literals of one text are equal, or they are numbers that values compare alike with. -/
theorem compare?_eq_of_literal_eq {v w : Value} (hv : v.Legible) (hw : w.Legible)
    (h : v.literal = w.literal) : v = w ∨ (∀ s, v ≠ .string s) ∧ (∀ s, w ≠ .string s) ∧
      ∀ actual : Value, actual.compare? v = actual.compare? w := by
  cases v with
  | string s =>
    cases w with
    | string t => exact .inl (congrArg Value.string (string_eq_of_literal_eq h))
    | _ => exact absurd h.symm (literal_ne_string (by simp) s)
  | long n =>
    cases w with
    | string t => exact absurd h (literal_ne_string (by simp) t)
    | long m => exact .inl (congrArg Value.long (Int64.toInt_inj.mp (Double.eq_of_toString_eq h)))
    | double d =>
      exact .inr ⟨by simp, by simp,
        fun a => (compare?_double_eq_long hw h.symm a).symm⟩
    | boolean b => exact absurd h (literal_ne_boolean (ofText?_long n) b)
  | double d =>
    cases w with
    | string t => exact absurd h (literal_ne_string (by simp) t)
    | long n =>
      exact .inr ⟨by simp, by simp, compare?_double_eq_long hv h⟩
    | double e =>
      have hcompare := Double.compare?_eq_of_text_eq h
      refine .inr ⟨by simp, by simp, fun actual => ?_⟩
      cases actual with
      | long a => exact hcompare _
      | double a => exact hcompare a
      | _ => rfl
    | boolean b =>
      obtain ⟨e, he⟩ := exists_ofText?_double d
      exact absurd h (literal_ne_boolean he b)
  | boolean b =>
    cases w with
    | string t => exact absurd h (literal_ne_string (by simp) t)
    | long n => exact absurd h.symm (literal_ne_boolean (ofText?_long n) b)
    | double d =>
      obtain ⟨e, he⟩ := exists_ofText?_double d
      exact absurd h.symm (literal_ne_boolean he b)
    | boolean b' =>
      refine .inl ?_
      cases b <;> cases b' <;> first | rfl | exact absurd h (by decide)

end Value

/-- Values pass the same comparisons with literals of one text. -/
theorem Comparison.test_eq_of_literal_eq {v w : Value} (hv : v.Legible) (hw : w.Legible)
    (h : v.literal = w.literal) (op : Comparison) (actual : Value) :
    op.test actual v = op.test actual w := by
  rcases Value.compare?_eq_of_literal_eq hv hw h with rfl | ⟨hv, hw, hcompare⟩
  · rfl
  · cases op with
    | contains =>
      unfold test
      cases actual <;> cases v <;> cases w <;> first
        | rfl
        | exact absurd rfl (hv _)
        | exact absurd rfl (hw _)
    | _ =>
      unfold test
      rw [hcompare]
end GraphInference
