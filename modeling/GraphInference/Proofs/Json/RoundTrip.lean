import GraphInference.Json.Printer
import GraphInference.Json.Reader
import GraphInference.Proofs.Number.Decimal
import GraphInference.Proofs.Pattern.Tokens
import GraphInference.Proofs.Text.Beginnings

/-!
# Reading documents back

A document that is written one item a line is read back as it was (`Json.ofText?_pretty`). Each reader reads
what the printer writes wherever a comma or a line break ends it (`Json.ReadsBack`): strings by way of their
escapes, integers by way of their digits, arrays and objects by one lemma about lists of items. A step of
fuel a character is enough, so the fuel that a text is read with does not matter.
-/

namespace GraphInference.Json

open Text

variable {α : Type} {one : Nat → List Char → Option (α × List Char)} {close : Char} {cs r x : List Char}
  {fuel : Nat}

/-- The marks that stand after a value in a printed document. -/
def marks : List Char := [',', '\n']

/-! ## Strings -/

theorem hexValue?_hexDigit {n : Nat} (h : n < 0x20) :
    hexValue? ['0', '0', hexDigit (n / 16), hexDigit n] = some n := by
  have hall : ∀ n < 0x20, hexValue? ['0', '0', hexDigit (n / 16), hexDigit n] = some n := by decide
  exact hall n h

/-- An escaped character is read as the character. -/
theorem readUnits_escapeChar (c : Char) (cs : List Char) :
    readUnits (escapeChar c ++ cs) = (readUnits cs).map fun (us, r) => (c.toNat :: us, r) := by
  unfold escapeChar
  split_ifs with h1 h2 h3 h4 h5 h6 h7 h8
  · subst h1; simp [readUnits, escape?]
  · subst h2; simp [readUnits, escape?]
  · subst h3; simp [readUnits, escape?]
  · subst h4; simp [readUnits, escape?]
  · subst h5; simp [readUnits, escape?]
  · subst h6; simp [readUnits, escape?]
  · subst h7; simp [readUnits, escape?]
  · simp [readUnits, hexValue?_hexDigit h8]
  · rw [List.singleton_append, readUnits, if_neg h8]
    · exact h1
    · exact fun _ _ _ _ _ h => absurd h h2
    · exact fun _ _ h => absurd h h2

theorem readUnits_quoted (s r : List Char) :
    readUnits (s.flatMap escapeChar ++ '"' :: r) = some (s.map Char.toNat, r) := by
  induction s with
  | nil => rfl
  | cons c s ih => rw [List.flatMap_cons, List.append_assoc, readUnits_escapeChar, ih]; rfl

/-- No character is half a surrogate pair. -/
theorem isHalf_toNat (c : Char) : isHighHalf c.toNat = false ∧ isLowHalf c.toNat = false := by
  have hvalid : c.toNat < 0xd800 ∨ 0xdfff < c.toNat ∧ c.toNat < 0x110000 := c.valid
  simp only [isHighHalf, isLowHalf, Bool.and_eq_false_iff, decide_eq_false_iff_not]
  omega

theorem joinHalves?_map_toNat (s : List Char) : joinHalves? (s.map Char.toNat) = some s := by
  induction s with
  | nil => rfl
  | cons c s ih =>
    obtain ⟨hhigh, hlow⟩ := isHalf_toNat c
    cases s with
    | nil => simp [joinHalves?, hhigh, hlow, Char.ofNat_toNat]
    | cons d s =>
      rw [List.map_cons] at ih ⊢
      rw [List.map_cons, joinHalves?, hhigh, hlow, ih]
      simp [Char.ofNat_toNat]

theorem readString_quoted (s : String) (r : List Char) :
    readString (s.toList.flatMap escapeChar ++ '"' :: r) = some (some s, r) := by
  rw [readString, readUnits_quoted, Option.map_some]
  dsimp only
  rw [joinHalves?_map_toNat, Option.map_some, String.ofList_toList]

theorem toList_quote (s : String) : (quote s).toList = '"' :: (s.toList.flatMap escapeChar ++ ['"']) :=
  String.toList_ofList

/-! ## Numbers -/

theorem head?_toDigits_ne_zero {n : Nat} (hn : n ≠ 0) : (Nat.toDigits 10 n).head? ≠ some '0' := by
  have hdigit : ∀ d < 10, d ≠ 0 → Nat.digitChar d ≠ '0' := by decide
  induction n using Nat.strong_induction_on with
  | _ n ih =>
    by_cases hlt : n < 10
    · rw [Nat.toDigits_of_lt_base hlt]
      exact fun h => hdigit n hlt hn (Option.some.inj h)
    · rw [Nat.toDigits_of_base_le (by decide) (Nat.not_lt.mp hlt),
        List.head?_append_of_ne_nil _ Nat.toDigits_ne_nil]
      exact ih (n / 10) (by omega) (by omega)

theorem readWhole_toDigits (n : Nat) (hr : Stops marks r) :
    readWhole (Nat.toDigits 10 n ++ r) = some (Nat.toDigits 10 n, r) := by
  by_cases hn : n = 0
  · subst hn
    rfl
  · have hnot : ∀ s, Nat.toDigits 10 n ++ r ≠ '0' :: s := by
      intro s hs
      have hhead := congrArg List.head? hs
      rw [List.head?_append_of_ne_nil _ Nat.toDigits_ne_nil] at hhead
      exact head?_toDigits_ne_zero hn hhead
    have hstop : r.takeWhile Char.isDigit = [] ∧ r.dropWhile Char.isDigit = r := by
      cases r with
      | nil => exact ⟨rfl, rfl⟩
      | cons c r =>
        have hc : c.isDigit = false := by
          have hmarks : marks.all (!Char.isDigit ·) = true := rfl
          simpa using List.all_eq_true.mp hmarks c (stops_cons.mp hr)
        simp [hc]
    have hdigits : ∀ c ∈ Nat.toDigits 10 n, c.isDigit = true := Double.isDigit_of_mem_toDigits
    rw [readWhole]
    · rw [List.takeWhile_append_of_pos hdigits, List.dropWhile_append_of_pos hdigits, hstop.1, hstop.2,
        List.append_nil]
      simp [Nat.toDigits_ne_nil]
    · exact fun s hs => hnot s hs

/-- Reads a number after its sign. -/
def readMagnitude (negative : Bool) (cs : List Char) : Option (Json × List Char) := do
  let (whole, r) ← readWhole cs
  let (fraction, r) ← readFraction r
  let (exponent, r) ← readExponent r
  some ((NumberSpelling.mk negative whole fraction exponent).value, r)

theorem readNumber_minus (cs : List Char) : readNumber ('-' :: cs) = readMagnitude true cs := rfl

theorem readNumber_of_ne_minus {c : Char} (hc : c ≠ '-') :
    readNumber (c :: cs) = readMagnitude false (c :: cs) := by
  unfold readNumber
  dsimp only
  split
  · next h => exact absurd (List.cons.inj h).1 hc
  · rfl

/-- Digits are read as an integer up to a mark. -/
theorem readMagnitude_toDigits (negative : Bool) (n : Nat) (hr : Stops marks r) :
    readMagnitude negative (Nat.toDigits 10 n ++ r) =
      some ((NumberSpelling.mk negative (Nat.toDigits 10 n) none none).value, r) := by
  have hfraction : readFraction r = some (none, r) := by
    cases r with
    | nil => rfl
    | cons c r =>
      rw [readFraction]
      rintro s ⟨⟩
      exact absurd (stops_cons.mp hr) (by decide)
  have hexponent : readExponent r = some (none, r) := by
    cases r with
    | nil => rfl
    | cons c r =>
      refine if_neg ?_
      rintro (rfl | rfl) <;> exact absurd (stops_cons.mp hr) (by decide)
  simp [readMagnitude, readWhole_toDigits n hr, hfraction, hexponent]

theorem value_natural {n : Nat} (hn : n < UInt64.size) :
    (NumberSpelling.mk false (Nat.toDigits 10 n) none none).value = .number (.natural n) := by
  simp [NumberSpelling.value, Double.digitsValue_toDigits, hn]

theorem value_negative {n : Nat} (hn : n ≠ 0) (hmin : Int64.minValue.toInt ≤ -(n : Int)) :
    (NumberSpelling.mk true (Nat.toDigits 10 n) none none).value = .number (.negative (-n)) := by
  have hle : ¬ 9223372036854775808 < n := by
    have hvalue : Int64.minValue.toInt = -9223372036854775808 := rfl
    omega
  simp [NumberSpelling.value, Double.digitsValue_toDigits, hn, hle]

/-! ## Lists -/

/-- Blanks before what is read do not matter. -/
def Lenient (one : Nat → List Char → Option (α × List Char)) : Prop :=
  ∀ fuel cs, one fuel (skipBlanks cs) = one fuel cs

/-- The text is read as the value wherever a mark ends it, with a step of fuel a character. -/
def ReadsBack (one : Nat → List Char → Option (α × List Char)) (x : List Char) (a : α) : Prop :=
  ∀ ⦃fuel : Nat⦄ ⦃r : List Char⦄, Stops marks r → x.length ≤ fuel → one fuel (x ++ r) = some (a, r)

theorem ReadsBack.of_cons {c : Char} {a : α}
    (h : ∀ ⦃fuel : Nat⦄ ⦃r : List Char⦄, Stops marks r → x.length ≤ fuel →
      one (fuel + 1) (c :: (x ++ r)) = some (a, r)) : ReadsBack one (c :: x) a := by
  rintro (_ | fuel) r hr hfuel
  · cases hfuel
  · exact h hr (Nat.le_of_succ_le_succ hfuel)

theorem skipBlanks_append {blanks : List Char} (hblanks : ∀ c ∈ blanks, isBlank c = true) (cs : List Char) :
    skipBlanks (blanks ++ cs) = skipBlanks cs :=
  List.dropWhile_append_of_pos hblanks

theorem Lenient.append (h : Lenient one) {blanks : List Char} (hblanks : ∀ c ∈ blanks, isBlank c = true) :
    one fuel (blanks ++ cs) = one fuel cs := by
  rw [← h, skipBlanks_append hblanks, h]

/-- After an item, reads the others or the closing bracket. -/
def readOthers (others : List Char → Option (List α × List Char)) (close : Char) :
    α × List Char → Option (List α × List Char)
  | (a, r) =>
    match skipBlanks r with
    | [] => none
    | c :: r =>
      if c = ',' then (others r).map fun (as, r) => (a :: as, r)
      else if c = close then some ([a], r)
      else none

/-- Reads items with commas between them, up to a closing bracket. -/
def readListed (one : Nat → List Char → Option (α × List Char)) (close : Char) :
    Nat → List Char → Option (List α × List Char)
  | 0, _ => none
  | fuel + 1, cs => (one fuel cs).bind (readOthers (readListed one close fuel) close)

theorem Lenient.listed (h : Lenient one) : Lenient (readListed one close) := by
  rintro (_ | fuel) cs
  · rfl
  · rw [readListed, readListed, h]

/-- Items that are read back one by one are read back as a list. -/
theorem readListed_intercalate (hone : Lenient one) (hclose : close ≠ ',') (hbare : isBlank close = false)
    {sep blanks : List Char} (hsep : ∀ c ∈ sep, isBlank c = true)
    (hblanks : ∀ c ∈ '\n' :: blanks, isBlank c = true) {f : α → List Char} {items : List α}
    (hne : items ≠ []) (hitems : ∀ a ∈ items, ReadsBack one (f a) a)
    (hfuel : ((',' :: sep).intercalate (items.map f)).length < fuel) (r : List Char) :
    readListed one close fuel
      ((',' :: sep).intercalate (items.map f) ++ '\n' :: (blanks ++ close :: r)) = some (items, r) := by
  induction items generalizing fuel with
  | nil => exact absurd rfl hne
  | cons a items ih =>
    obtain ⟨ha, hitems⟩ := List.forall_mem_cons.mp hitems
    obtain ⟨fuel, rfl⟩ := Nat.exists_eq_add_one.mpr (Nat.zero_lt_of_lt hfuel)
    rw [readListed]
    cases items with
    | nil =>
      rw [List.map_singleton, List.intercalate_singleton] at hfuel ⊢
      have hend : skipBlanks ('\n' :: (blanks ++ close :: r)) = close :: r :=
        (skipBlanks_append hblanks _).trans (Grammar.bare_cons.mpr hbare).skipBlanks_eq
      rw [ha (stops_cons.mpr (by decide)) (by omega), Option.bind_some, readOthers, hend]
      dsimp only
      rw [if_neg hclose, if_pos rfl]
    | cons b items =>
      rw [List.map_cons, List.map_cons, List.intercalate_cons_cons, ← List.map_cons] at hfuel ⊢
      simp only [List.length_append, List.length_cons] at hfuel
      rw [List.append_assoc, List.append_assoc, List.cons_append, ha (stops_cons.mpr (by decide)) (by omega),
        Option.bind_some, readOthers, (Grammar.bare_cons.mpr (by decide)).skipBlanks_eq]
      dsimp only
      rw [if_pos rfl, hone.listed.append hsep, ih (List.cons_ne_nil b items) hitems (by omega)]
      rfl

/-! ## Documents -/

theorem skipBlanks_skipBlanks (cs : List Char) : skipBlanks (skipBlanks cs) = skipBlanks cs :=
  (Grammar.bare_skipBlanks cs).skipBlanks_eq

theorem lenient_readValue : Lenient readValue := by
  rintro (_ | fuel) cs
  · rfl
  · rw [readValue, readValue, skipBlanks_skipBlanks]

/-- Reads a name and a value. -/
def readField (fuel : Nat) (cs : List Char) : Option ((String × Json) × List Char) :=
  match skipBlanks cs with
  | '"' :: r =>
    (readString r).bind fun (name?, r) => name?.bind fun name =>
      match skipBlanks r with
      | ':' :: r => (readValue fuel r).map fun (v, r) => ((name, v), r)
      | _ => none
  | _ => none

theorem lenient_readField : Lenient readField := by
  intro fuel cs
  rw [readField, readField, skipBlanks_skipBlanks]

theorem readItems_eq : readItems = readListed readValue ']' := by
  funext fuel cs
  induction fuel generalizing cs with
  | zero => rfl
  | succ fuel ih =>
    rw [readItems, readListed]
    refine congrArg (Option.bind _) (funext fun p => ?_)
    obtain ⟨v, r⟩ := p
    rw [readOthers, ← funext ih]
    dsimp only
    generalize skipBlanks r = t
    split
    · rfl
    · rfl
    · cases t <;> simp_all

theorem readFields_eq : readFields = readListed readField '\x7d' := by
  funext fuel cs
  induction fuel generalizing cs with
  | zero => rfl
  | succ fuel ih =>
    rw [readFields, readListed, readField]
    generalize skipBlanks cs = t
    split
    · simp only [Option.bind_assoc]
      refine congrArg (Option.bind _) (funext fun p => ?_)
      obtain ⟨name?, r⟩ := p
      refine congrArg name?.bind (funext fun name => ?_)
      dsimp only
      generalize skipBlanks r = t
      split
      · simp only [Option.bind_map]
        refine congrArg (Option.bind _) (funext fun p => ?_)
        obtain ⟨v, r⟩ := p
        dsimp only [Function.comp_apply]
        rw [readOthers, ← funext ih]
        dsimp only
        generalize skipBlanks r = t
        split
        · rfl
        · rfl
        · cases t <;> simp_all
      · simp
    · simp

/-- What begins with a digit or a minus is read as a number. -/
theorem readValue_number {c : Char} (hc : c = '-' ∨ c.isDigit = true) (fuel : Nat) (cs : List Char) :
    readValue (fuel + 1) (c :: cs) = readNumber (c :: cs) := by
  have hbare : skipBlanks (c :: cs) = c :: cs := by
    refine (Grammar.bare_cons.mpr ?_).skipBlanks_eq
    rcases hc with rfl | hc
    · rfl
    · simp only [isBlank, Bool.or_eq_false_iff, decide_eq_false_iff_not]
      refine ⟨⟨⟨?_, ?_⟩, ?_⟩, ?_⟩ <;> rintro rfl <;> exact absurd hc (by decide)
  rw [readValue, hbare]
  split
  case h_1 h => cases h
  case h_8 => rfl
  all_goals
    next h =>
      obtain rfl := (List.cons.inj h).1
      exact absurd hc (by decide)

theorem readItems_closing (fuel : Nat) (cs : List Char) : readItems fuel (']' :: cs) = none := by
  rcases fuel with _ | _ | fuel <;> rfl

theorem readFields_closing (fuel : Nat) (cs : List Char) : readFields fuel ('\x7d' :: cs) = none := by
  cases fuel <;> rfl

theorem readValue_array {items : List Json} (h : readItems fuel cs = some (items, r)) :
    readValue (fuel + 1) ('[' :: cs) = some (.array items, r) := by
  rw [readItems_eq, ← lenient_readValue.listed, ← readItems_eq] at h
  rw [readValue, (Grammar.bare_cons.mpr (by decide)).skipBlanks_eq]
  simp only
  split
  · next hclosing =>
    rw [hclosing, readItems_closing] at h
    cases h
  · rw [h]
    rfl

theorem readValue_object {fields : List (String × Json)} (h : readFields fuel cs = some (fields, r)) :
    readValue (fuel + 1) ('\x7b' :: cs) = some (.object fields, r) := by
  rw [readFields_eq, ← lenient_readField.listed, ← readFields_eq] at h
  rw [readValue, (Grammar.bare_cons.mpr (by decide)).skipBlanks_eq]
  simp only
  split
  · next hclosing =>
    rw [hclosing, readFields_closing] at h
    cases h
  · rw [h]
    rfl

/-! ## Printed documents -/

/-- Every number is an integer in range, and every leaf names something. A double is read in two roundings,
so it may come back as another one. -/
inductive Exact : Json → Prop where
  | null : Exact .null
  | bool (b : Bool) : Exact (.bool b)
  | natural {n : Nat} (h : n < UInt64.size) : Exact (.number (.natural n))
  | negative {n : Nat} (h : n ≠ 0) (hmin : Int64.minValue.toInt ≤ -(n : Int)) :
    Exact (.number (.negative (-n)))
  | string (s : String) : Exact (.string s)
  | array {items : List Json} (h : ∀ v ∈ items, Exact v) : Exact (.array items)
  | object {fields : List (String × Json)} (h : ∀ f ∈ fields, Exact f.2) : Exact (.object fields)

/-- A field on a line of its own. -/
def fieldText (indent : Nat) (f : String × Json) : List Char :=
  '"' :: (f.1.toList.flatMap escapeChar ++ '"' :: ':' :: ' ' :: (prettyAt indent f.2).toList)

theorem prettyItems_eq (indent : Nat) (items : List Json) :
    prettyItems indent items = items.map (prettyAt indent) := by
  induction items with
  | nil => rfl
  | cons v items ih => rw [prettyItems, ih, List.map_cons]

theorem toList_prettyFields (indent : Nat) (fields : List (String × Json)) :
    (prettyFields indent fields).map String.toList = fields.map (fieldText indent) := by
  induction fields with
  | nil => rfl
  | cons f fields ih =>
    have hfield : (quote f.1 ++ ": " ++ prettyAt indent f.2).toList = fieldText indent f := by
      simp [fieldText, toList_quote]
    rw [prettyFields, List.map_cons, ih, List.map_cons, hfield]

theorem blank_spaces (n : Nat) : ∀ c ∈ List.replicate n ' ', isBlank c = true := by
  intro c hc
  obtain rfl := List.eq_of_mem_replicate hc
  rfl

theorem blank_newline (n : Nat) : ∀ c ∈ '\n' :: List.replicate n ' ', isBlank c = true :=
  List.forall_mem_cons.mpr ⟨rfl, blank_spaces n⟩

theorem readsBack_field {f : String × Json} {indent : Nat}
    (hv : ReadsBack readValue (prettyAt indent f.2).toList f.2) :
    ReadsBack readField (fieldText indent f) f := by
  obtain ⟨name, v⟩ := f
  dsimp only at hv
  intro fuel r hr hfuel
  simp only [fieldText, List.length_cons, List.length_append] at hfuel
  have hblank : ∀ c ∈ [' '], isBlank c = true := blank_spaces 1
  rw [fieldText, List.cons_append, readField, (Grammar.bare_cons.mpr (by decide)).skipBlanks_eq]
  simp only [List.append_assoc, List.cons_append, readString_quoted, Option.bind_some]
  rw [(Grammar.bare_cons.mpr (by decide)).skipBlanks_eq]
  simp only
  rw [← List.singleton_append, lenient_readValue.append hblank, hv hr (by omega)]
  rfl

/-- Items on lines of their own, up to a closing bracket. -/
def linesText (indent : Nat) (f : α → List Char) (items : List α) (close : Char) : List Char :=
  '\n' :: (List.replicate (2 * (indent + 1)) ' ' ++
    ((',' :: '\n' :: List.replicate (2 * (indent + 1)) ' ').intercalate (items.map f) ++
      '\n' :: (List.replicate (2 * indent) ' ' ++ [close])))

theorem toList_prettyAt_array {items : List Json} (hne : items ≠ []) (indent : Nat) :
    (prettyAt indent (.array items)).toList =
      '[' :: linesText indent (String.toList ∘ prettyAt (indent + 1)) items ']' := by
  obtain ⟨v, items, rfl⟩ := List.exists_cons_of_ne_nil hne
  rw [prettyAt, prettyItems_eq]
  simp [linesText, newline, String.toList_intercalate]

theorem toList_prettyAt_object {fields : List (String × Json)} (hne : fields ≠ []) (indent : Nat) :
    (prettyAt indent (.object fields)).toList =
      '\x7b' :: linesText indent (fieldText (indent + 1)) fields '\x7d' := by
  obtain ⟨f, fields, rfl⟩ := List.exists_cons_of_ne_nil hne
  rw [prettyAt]
  simp [linesText, newline, String.toList_intercalate, toList_prettyFields]

theorem readListed_lines (hone : Lenient one) (hclose : close ≠ ',') (hbare : isBlank close = false)
    {f : α → List Char} {items : List α} (hne : items ≠ []) (hitems : ∀ a ∈ items, ReadsBack one (f a) a)
    {indent : Nat} (hfuel : (linesText indent f items close).length ≤ fuel) (r : List Char) :
    readListed one close fuel (linesText indent f items close ++ r) = some (items, r) := by
  simp only [linesText, List.length_cons, List.length_append] at hfuel
  rw [linesText, ← List.cons_append, List.append_assoc, hone.listed.append (blank_newline _),
    List.append_assoc, List.cons_append, List.append_assoc, List.singleton_append]
  exact readListed_intercalate hone hclose hbare (blank_newline _) (blank_newline _) hne hitems (by omega) r

theorem readsBack_natural {n : Nat} (hn : n < UInt64.size) :
    ReadsBack readValue (Nat.toDigits 10 n) (.number (.natural n)) := by
  obtain ⟨c, cs, hcs⟩ := List.exists_cons_of_ne_nil (Nat.toDigits_ne_nil (b := 10) (n := n))
  have hdigit : c.isDigit = true := Double.isDigit_of_mem_toDigits c (hcs ▸ List.mem_cons_self)
  have hminus : c ≠ '-' := by
    rintro rfl
    exact absurd hdigit (by decide)
  rw [hcs]
  refine .of_cons fun fuel r hr _ => ?_
  rw [readValue_number (.inr hdigit), readNumber_of_ne_minus hminus, ← List.cons_append, ← hcs,
    readMagnitude_toDigits _ _ hr, value_natural hn]

theorem readsBack_negative {n : Nat} (hn : n ≠ 0) (hmin : Int64.minValue.toInt ≤ -(n : Int)) :
    ReadsBack readValue ('-' :: Nat.toDigits 10 n) (.number (.negative (-n))) := by
  refine .of_cons fun fuel r hr _ => ?_
  rw [readValue_number (.inl rfl), readNumber_minus, readMagnitude_toDigits _ _ hr, value_negative hn hmin]

theorem readsBack_quote (s : String) : ReadsBack readValue (quote s).toList (.string s) := by
  rw [toList_quote]
  refine .of_cons fun fuel r _ _ => ?_
  rw [readValue, (Grammar.bare_cons.mpr (by decide)).skipBlanks_eq]
  simp only [List.append_assoc, List.singleton_append, readString_quoted]
  rfl

theorem readsBack_prettyAt {v : Json} (hv : Exact v) (indent : Nat) :
    ReadsBack readValue (prettyAt indent v).toList v := by
  induction hv generalizing indent with
  | null =>
    rw [prettyAt]
    exact .of_cons fun _ _ _ _ => rfl
  | bool b =>
    rw [prettyAt]
    cases b <;> exact .of_cons fun _ _ _ _ => rfl
  | @natural n hn =>
    have hdigits : (toString n).toList = Nat.toDigits 10 n := Double.toList_toString n
    rw [prettyAt, JsonNumber.text, hdigits]
    exact readsBack_natural hn
  | @negative n hn hmin =>
    rw [prettyAt, JsonNumber.text, Double.toList_toString, decide_eq_true (by omega), Int.natAbs_neg,
      Int.natAbs_natCast]
    exact readsBack_negative hn hmin
  | string s => exact readsBack_quote s
  | @array items _ ih =>
    by_cases hne : items = []
    · subst hne
      rw [prettyAt]
      exact .of_cons fun _ _ _ _ => rfl
    · rw [toList_prettyAt_array hne]
      refine .of_cons fun fuel r _ hfuel => readValue_array ?_
      rw [readItems_eq]
      exact readListed_lines lenient_readValue (by decide) (by decide) hne (fun v hv => ih v hv _) hfuel r
  | @object fields _ ih =>
    by_cases hne : fields = []
    · subst hne
      rw [prettyAt]
      exact .of_cons fun _ _ _ _ => rfl
    · rw [toList_prettyAt_object hne]
      refine .of_cons fun fuel r _ hfuel => readValue_object ?_
      rw [readFields_eq]
      exact readListed_lines lenient_readField (by decide) (by decide) hne
        (fun f hf => readsBack_field (ih f hf _)) hfuel r

/-- A document is read back from its text. -/
theorem ofText?_pretty {v : Json} (hv : Exact v) : ofText? v.pretty = some v := by
  have hend : Stops marks [] := fun _ h => nomatch h
  have hfuel : v.pretty.toList.length ≤ 2 * v.pretty.toList.length + 2 := by omega
  have hread : readValue _ (v.pretty.toList ++ []) = _ := readsBack_prettyAt hv 0 hend hfuel
  rw [List.append_nil] at hread
  rw [ofText?, hread]
  rfl

end GraphInference.Json
