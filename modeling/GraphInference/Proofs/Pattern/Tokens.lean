import GraphInference.Proofs.Outcome
import GraphInference.Proofs.Pattern.Grammar

/-!
# What is read as a token

The readers of blanks, words and tokens agree with the forms of the grammar exactly: a token is read if and
only if one starts the text, with the same rest.
-/

namespace GraphInference

open Text

namespace Grammar

variable {α β : Type} {cs c r : List Char}

/-! ## Blanks -/

/-- The text does not start with a blank. -/
def Bare (cs : List Char) : Prop :=
  ∀ c ∈ cs.head?, isBlank c = false

theorem bare_cons {c : Char} : Bare (c :: cs) ↔ isBlank c = false := by
  simp [Bare]

theorem Bare.skipBlanks_eq (h : Bare cs) : skipBlanks cs = cs := by
  cases cs with
  | nil => rfl
  | cons c cs => exact List.dropWhile_cons_of_neg (by simp [bare_cons.mp h])

theorem bare_skipBlanks (cs : List Char) : Bare (skipBlanks cs) := by
  intro c hc
  have h := List.head?_dropWhile_not isBlank cs
  rw [show List.dropWhile isBlank cs = skipBlanks cs from rfl, hc] at h
  exact h

theorem skipBlanks_cons {c : Char} (hc : isBlank c = true) : skipBlanks (c :: cs) = skipBlanks cs :=
  List.dropWhile_cons_of_pos hc

theorem blanks_skipBlanks (cs : List Char) : Blanks isBlank cs (skipBlanks cs) := by
  induction cs with
  | nil => exact .none []
  | cons c cs ih =>
    by_cases hc : isBlank c = true
    · rw [skipBlanks_cons hc]
      exact .more hc ih
    · rw [Bare.skipBlanks_eq (bare_cons.mpr (Bool.eq_false_iff.mpr hc))]
      exact .none _

namespace Blanks

variable {blank : Char → Bool}

theorem trans (h : Blanks blank cs c) (h' : Blanks blank c r) : Blanks blank cs r := by
  induction h with
  | none _ => exact h'
  | more hc _ ih => exact .more hc (ih h')

theorem skipBlanks_eq (h : Blanks isBlank cs r) : skipBlanks cs = skipBlanks r := by
  induction h with
  | none _ => rfl
  | more hc _ ih => rw [skipBlanks_cons hc, ih]

theorem skipBlanks_eq_of_bare (h : Blanks isBlank cs r) (hr : Bare r) : skipBlanks cs = r :=
  h.skipBlanks_eq.trans hr.skipBlanks_eq

theorem suffix (h : Blanks blank cs r) : r <:+ cs := by
  induction h with
  | none r => exact List.suffix_rfl
  | more _ _ ih => exact ih.trans (List.suffix_cons _ _)

end Blanks

theorem SomeBlanks.suffix {blank : Char → Bool} (h : SomeBlanks blank cs r) : r <:+ cs := by
  obtain ⟨_, h⟩ := h
  exact h.suffix.trans (List.suffix_cons _ _)

theorem blanks_of_skipBlanks_eq (h : skipBlanks cs = r) : Blanks isBlank cs r :=
  h ▸ blanks_skipBlanks cs

/-! ## Words, runs and marks -/

theorem afterWord?_eq_some {word : List Char} : afterWord? word cs = some r ↔ cs = word ++ r := by
  unfold afterWord?
  split
  · next h =>
    obtain ⟨t, rfl⟩ := List.isPrefixOf_iff_prefix.mp h
    rw [List.drop_left, Option.some.injEq, List.append_cancel_left_eq]
  · next h =>
    refine ⟨fun e => (nomatch e), fun e => absurd ?_ h⟩
    exact List.isPrefixOf_iff_prefix.mpr ⟨r, e.symm⟩

theorem scanRun_eq_some {p : Char → Bool} {run : List Char} :
    scanRun p cs = some (run, r) ↔ Run p cs run r := by
  unfold scanRun
  constructor
  · intro h
    dsimp only at h
    split at h
    · cases h
    · next hne =>
      obtain ⟨rfl, rfl⟩ := Prod.mk.inj (Option.some.inj h)
      refine ⟨List.takeWhile_append_dropWhile.symm, fun e => hne (List.isEmpty_iff.mpr e),
        fun c hc => List.mem_takeWhile_imp hc, fun c hc => ?_⟩
      have hdrop := List.head?_dropWhile_not p cs
      rw [hc] at hdrop
      exact hdrop
  · rintro ⟨rfl, hne, hin, hends⟩
    have htake : (run ++ r).takeWhile p = run := by
      rw [List.takeWhile_append_of_pos hin]
      cases r with
      | nil => simp
      | cons c r => rw [List.takeWhile_cons_of_neg (by simp [hends c rfl]), List.append_nil]
    have hdrop : (run ++ r).dropWhile p = r := by
      rw [List.dropWhile_append_of_pos hin]
      cases r with
      | nil => rfl
      | cons c r => exact List.dropWhile_cons_of_neg (by simp [hends c rfl])
    dsimp only
    rw [htake, hdrop, if_neg fun e => hne (List.isEmpty_iff.mp e)]

theorem Run.suffix {p : Char → Bool} {run : List Char} (h : Run p cs run r) : r <:+ cs :=
  ⟨run, h.split.symm⟩

/-- A run starts with a character of its class. -/
theorem Run.exists_head {p : Char → Bool} {run : List Char} (h : Run p cs run r) :
    ∃ d s, cs = d :: s ∧ p d = true := by
  obtain ⟨rfl, hne, hin, -⟩ := h
  cases run with
  | nil => exact absurd rfl hne
  | cons d run => exact ⟨d, run ++ r, rfl, hin d (.head _)⟩

theorem someBlanks?_eq_some :
    someBlanks? cs = some r ↔ SomeBlanks isBlank cs r ∧ Bare r := by
  unfold someBlanks?
  rw [Option.map_eq_some_iff]
  constructor
  · rintro ⟨⟨run, r⟩, h, rfl⟩
    have hrun := scanRun_eq_some.mp h
    obtain ⟨d, s, rfl, hd⟩ := hrun.exists_head
    refine ⟨.intro hd ?_, hrun.ends⟩
    have hdrop : r = skipBlanks (d :: s) := by
      unfold scanRun at h
      dsimp only at h
      split at h
      · cases h
      · exact ((Prod.mk.inj (Option.some.inj h)).2).symm
    rw [hdrop, skipBlanks_cons hd]
    exact blanks_skipBlanks s
  · rintro ⟨⟨hd, h⟩, hr⟩
    next d s =>
    refine ⟨(List.takeWhile isBlank (d :: s), skipBlanks (d :: s)), ?_, ?_⟩
    · unfold scanRun
      dsimp only
      rw [if_neg (by simp [List.takeWhile_cons_of_pos hd])]
      rfl
    · rw [skipBlanks_cons hd, h.skipBlanks_eq_of_bare hr]

theorem afterMark?_eq_some {mark : Char} (hmark : isBlank mark = false) :
    afterMark? mark cs = some r ↔ ∃ r', Blanks isBlank cs (mark :: r') ∧ skipBlanks r' = r := by
  unfold afterMark?
  constructor
  · intro h
    split at h
    · next d s hs =>
      split at h
      · next hd =>
        obtain rfl := hd
        exact ⟨s, blanks_of_skipBlanks_eq hs, Option.some.inj h⟩
      · cases h
    · cases h
  · rintro ⟨r', hb, rfl⟩
    rw [hb.skipBlanks_eq_of_bare (bare_cons.mpr hmark)]
    exact if_pos rfl

/-! ## Tokens -/

theorem label_eq_some {l : Label} : label cs = some (l, r) ↔ LabelForm cs l r := by
  unfold label
  rw [Option.map_eq_some_iff]
  constructor
  · rintro ⟨⟨name, r⟩, h, rfl, rfl⟩
    exact .intro (scanRun_eq_some.mp h)
  · rintro ⟨h⟩
    exact ⟨_, scanRun_eq_some.mpr h, rfl⟩

theorem var_eq_some {v : Var} : var cs = some (v, r) ↔ VarForm cs v r := by
  unfold var
  constructor
  · intro h
    split at h
    · obtain ⟨⟨name, r⟩, h, rfl, rfl⟩ := Option.map_eq_some_iff.mp h
      exact .intro (scanRun_eq_some.mp h)
    · cases h
  · rintro ⟨h⟩
    exact Option.map_eq_some_iff.mpr ⟨_, scanRun_eq_some.mpr h, rfl⟩

theorem untilQuote_eq_some {quote : Char} {s : String} :
    untilQuote quote cs = some (s, r) ↔
      ∃ inside, cs = inside ++ quote :: r ∧ quote ∉ inside ∧ s = String.ofList inside := by
  unfold untilQuote
  constructor
  · intro h
    split at h
    · next q t hdrop =>
      obtain ⟨rfl, rfl⟩ := Prod.mk.inj (Option.some.inj h)
      have hq : q = quote := by
        have hend := List.head?_dropWhile_not (fun c => decide (c ≠ quote)) cs
        rw [hdrop] at hend
        simpa using hend
      refine ⟨cs.takeWhile (fun c => decide (c ≠ quote)), ?_, fun hin => ?_, rfl⟩
      · rw [hq] at hdrop
        rw [← hdrop, List.takeWhile_append_dropWhile]
      · simpa using List.mem_takeWhile_imp hin
    · cases h
  · rintro ⟨inside, rfl, hnot, rfl⟩
    have hin : ∀ c ∈ inside, decide (c ≠ quote) = true :=
      fun c hc => decide_eq_true fun e => hnot (e ▸ hc)
    have hdrop : (inside ++ quote :: r).dropWhile (fun c => decide (c ≠ quote)) = quote :: r := by
      rw [List.dropWhile_append_of_pos hin, List.dropWhile_cons_of_neg (by simp)]
    have htake : (inside ++ quote :: r).takeWhile (fun c => decide (c ≠ quote)) = inside := by
      rw [List.takeWhile_append_of_pos hin, List.takeWhile_cons_of_neg (by simp), List.append_nil]
    rw [hdrop, htake]

theorem string_eq_some {s : String} : string cs = some (s, r) ↔ StringForm cs s r := by
  unfold string
  constructor
  · intro h
    split at h
    · obtain ⟨inside, rfl, hnot, rfl⟩ := untilQuote_eq_some.mp h
      exact .intro (by simp) hnot
    · obtain ⟨inside, rfl, hnot, rfl⟩ := untilQuote_eq_some.mp h
      exact .intro (by simp) hnot
    · cases h
  · rintro ⟨hquote, hs⟩
    next quote s =>
    simp only [List.mem_cons, List.not_mem_nil, or_false] at hquote
    rcases hquote with rfl | rfl
    · exact untilQuote_eq_some.mpr ⟨s, rfl, hs, rfl⟩
    · exact untilQuote_eq_some.mpr ⟨s, rfl, hs, rfl⟩

theorem long?_eq_some {negative : Bool} {digits : List Char} {v : Value} :
    long? negative digits = some v ↔ ∃ n : Int64, v = .long n ∧ n.toInt =
      if negative then -(Double.digitsValue digits : Int) else Double.digitsValue digits := by
  unfold long?
  dsimp only
  generalize (if negative then -(Double.digitsValue digits : Int) else Double.digitsValue digits) = i
  constructor
  · intro h
    split at h
    · next hi =>
      exact ⟨_, (Option.some.inj h).symm, Int64.toInt_ofInt_of_le hi.1 (Int.lt_of_le_of_lt hi.2 (by decide))⟩
    · cases h
  · rintro ⟨n, rfl, rfl⟩
    rw [if_pos ⟨n.le_toInt, n.toInt_le⟩, Int64.ofInt_toInt]

/-- The digits after a point, if there are some. -/
def fraction? (cs : List Char) : Option (List Char × List Char) :=
  match cs with
  | '.' :: r => scanRun Char.isDigit r
  | _ => none

/-- What is left of reading a number once its sign is read. -/
def magnitude (negative : Bool) : Scanner Value := fun cs =>
  (scanRun Char.isDigit cs).bind fun (whole, r) =>
    match fraction? r with
    | some (fraction, r) =>
      some (.double (.ofMagnitude negative (Double.Decimal.mk whole fraction 0).magnitude), r)
    | none => (long? negative whole).map fun v => (v, r)

theorem number_minus : number ('-' :: cs) = magnitude true cs := rfl

theorem number_of_no_minus (h : cs.head? ≠ some '-') : number cs = magnitude false cs := by
  unfold number
  dsimp only
  split
  · exact absurd rfl h
  · rfl

theorem fraction?_eq_some {fraction : List Char} :
    fraction? cs = some (fraction, r) ↔ ∃ r₂, cs = '.' :: r₂ ∧ Run Char.isDigit r₂ fraction r := by
  unfold fraction?
  constructor
  · intro h
    split at h
    · exact ⟨_, rfl, scanRun_eq_some.mp h⟩
    · cases h
  · rintro ⟨r₂, rfl, h⟩
    exact scanRun_eq_some.mpr h

theorem fraction?_eq_none :
    fraction? cs = none ↔ ∀ d r₂, cs = '.' :: d :: r₂ → d.isDigit = false := by
  constructor
  · rintro h d r₂ rfl
    by_contra hd
    simp [fraction?, scanRun, Bool.eq_true_of_not_eq_false hd] at h
  · intro h
    unfold fraction?
    split
    · next r =>
      cases r with
      | nil => rfl
      | cons d r => simp [scanRun, h d r rfl]
    · rfl

theorem magnitude_eq_some {negative : Bool} {v : Value} : magnitude negative cs = some (v, r) ↔
    ∃ whole r₁, Run Char.isDigit cs whole r₁ ∧
      ((∃ r₂ fraction, r₁ = '.' :: r₂ ∧ Run Char.isDigit r₂ fraction r ∧
        v = .double (.ofMagnitude negative (Double.Decimal.mk whole fraction 0).magnitude)) ∨
      (∀ d r₂, r₁ = '.' :: d :: r₂ → d.isDigit = false) ∧ r₁ = r ∧ long? negative whole = some v) := by
  unfold magnitude
  rw [Option.bind_eq_some_iff]
  constructor
  · rintro ⟨⟨whole, r₁⟩, hwhole, h⟩
    refine ⟨whole, r₁, scanRun_eq_some.mp hwhole, ?_⟩
    dsimp only at h
    split at h
    · next fraction r₃ hfraction =>
      obtain ⟨r₂, hr₂, hrun⟩ := fraction?_eq_some.mp hfraction
      obtain ⟨rfl, rfl⟩ := Prod.mk.inj (Option.some.inj h)
      exact .inl ⟨r₂, fraction, hr₂, hrun, rfl⟩
    · next hnone =>
      obtain ⟨v, hv, h⟩ := Option.map_eq_some_iff.mp h
      obtain ⟨rfl, rfl⟩ := Prod.mk.inj h
      exact .inr ⟨fraction?_eq_none.mp hnone, rfl, hv⟩
  · rintro ⟨whole, r₁, hwhole, h⟩
    refine ⟨(whole, r₁), scanRun_eq_some.mpr hwhole, ?_⟩
    dsimp only
    rcases h with ⟨r₂, fraction, hr₂, hrun, rfl⟩ | ⟨hnone, rfl, hv⟩
    · rw [fraction?_eq_some.mpr ⟨r₂, hr₂, hrun⟩]
    · rw [fraction?_eq_none.mpr hnone, hv]
      rfl

theorem number_eq_some {v : Value} : number cs = some (v, r) ↔ NumberForm cs v r := by
  constructor
  · intro h
    obtain ⟨negative, r₁, hsign, h⟩ :
        ∃ negative r₁, SignForm cs negative r₁ ∧ magnitude negative r₁ = some (v, r) := by
      by_cases hminus : cs.head? = some '-'
      · obtain ⟨r₁, rfl⟩ := List.head?_eq_some_iff.mp hminus
        exact ⟨true, r₁, .minus, h⟩
      · exact ⟨false, cs, .none, number_of_no_minus hminus ▸ h⟩
    obtain ⟨whole, r₂, hwhole, ⟨r₃, fraction, rfl, hfraction, rfl⟩ | ⟨hpoint, rfl, hv⟩⟩ :=
      magnitude_eq_some.mp h
    · exact .double hsign hwhole hfraction
    · obtain ⟨n, rfl, hn⟩ := long?_eq_some.mp hv
      exact .long hsign hwhole hpoint hn
  · intro h
    have hsigned {negative : Bool} {r₁ r₂ whole : List Char} (hsign : SignForm cs negative r₁)
        (hwhole : Run Char.isDigit r₁ whole r₂) : number cs = magnitude negative r₁ := by
      cases hsign with
      | minus => exact number_minus
      | none =>
        obtain ⟨d, s, rfl, hd⟩ := hwhole.exists_head
        refine number_of_no_minus fun e => ?_
        obtain rfl := Option.some.inj e
        exact absurd hd (by decide)
    cases h with
    | double hsign hwhole hfraction =>
      rw [hsigned hsign hwhole]
      exact magnitude_eq_some.mpr ⟨_, _, hwhole, .inl ⟨_, _, rfl, hfraction, rfl⟩⟩
    | long hsign hwhole hpoint hn =>
      rw [hsigned hsign hwhole]
      exact magnitude_eq_some.mpr ⟨_, _, hwhole, .inr ⟨hpoint, rfl, long?_eq_some.mpr ⟨_, rfl, hn⟩⟩⟩

theorem NumberForm.exists_head {v : Value} (h : NumberForm cs v r) :
    ∃ d s, cs = d :: s ∧ (d = '-' ∨ d.isDigit = true) := by
  have hsigned {negative : Bool} {r₁ r₂ whole : List Char} (hsign : SignForm cs negative r₁)
      (hwhole : Run Char.isDigit r₁ whole r₂) : ∃ d s, cs = d :: s ∧ (d = '-' ∨ d.isDigit = true) := by
    cases hsign with
    | minus => exact ⟨'-', r₁, rfl, .inl rfl⟩
    | none =>
      obtain ⟨d, s, rfl, hd⟩ := hwhole.exists_head
      exact ⟨d, s, rfl, .inr hd⟩
  cases h with
  | double hsign hwhole _ => exact hsigned hsign hwhole
  | long hsign hwhole _ _ => exact hsigned hsign hwhole

theorem either_eq_some {s t : Scanner α} {x : α × List Char} :
    either s t cs = some x ↔ s cs = some x ∨ s cs = none ∧ t cs = some x :=
  Option.or_eq_some_iff

/-- A reader gives nothing where there is no phrase that it reads. -/
theorem eq_none_of_forall_not {s : Scanner α} {F : Form α} (h : ∀ {a r}, s cs = some (a, r) ↔ F cs a r)
    (hnot : ∀ a r, ¬ F cs a r) : s cs = none :=
  Option.eq_none_iff_forall_ne_some.mpr fun x hx => hnot x.1 x.2 (h.mp hx)

theorem keyword_eq_some {word : String} {a b : α} :
    keyword word a cs = some (b, r) ↔ a = b ∧ cs = word.toList ++ r := by
  unfold keyword
  rw [Option.map_eq_some_iff]
  constructor
  · rintro ⟨r, h, hb⟩
    obtain ⟨rfl, rfl⟩ := Prod.mk.inj hb
    exact ⟨rfl, afterWord?_eq_some.mp h⟩
  · rintro ⟨rfl, h⟩
    exact ⟨r, afterWord?_eq_some.mpr h, rfl⟩

theorem literal_eq_some {v : Value} : literal cs = some (v, r) ↔ LiteralForm cs v r := by
  unfold literal
  simp only [either_eq_some, keyword_eq_some]
  constructor
  · rintro (h | ⟨-, h | ⟨-, ⟨rfl, rfl⟩ | ⟨-, rfl, rfl⟩⟩⟩)
    · obtain ⟨⟨s, r⟩, hs, hv⟩ := Option.map_eq_some_iff.mp h
      obtain ⟨rfl, rfl⟩ := Prod.mk.inj hv
      exact .string (string_eq_some.mp hs)
    · exact .number (number_eq_some.mp h)
    · exact .boolean true
    · exact .boolean false
  · have hstring {d : Char} {s : List Char} (hd : d ∉ ['"', '\'']) :
        (string (d :: s)).map (fun p => (Value.string p.1, p.2)) = none := by
      rw [Option.map_eq_none_iff]
      refine eq_none_of_forall_not string_eq_some fun _ _ h => ?_
      cases h with
      | intro hquote _ => exact hd hquote
    have hnumber {d : Char} {s : List Char} (hd : d ≠ '-') (hd' : d.isDigit = false) :
        number (d :: s) = none := by
      refine eq_none_of_forall_not number_eq_some fun _ _ h => ?_
      obtain ⟨_, _, heq, h⟩ := h.exists_head
      obtain ⟨rfl, -⟩ := List.cons.inj heq
      exact h.elim hd fun h => Bool.false_ne_true (hd'.symm.trans h)
    intro h
    cases h with
    | string h => exact .inl (Option.map_eq_some_iff.mpr ⟨_, string_eq_some.mpr h, rfl⟩)
    | number h =>
      obtain ⟨d, s, rfl, hd⟩ := h.exists_head
      refine .inr ⟨hstring fun hquote => ?_, .inl (number_eq_some.mpr h)⟩
      simp only [List.mem_cons, List.not_mem_nil, or_false] at hquote
      rcases hquote with rfl | rfl <;> exact absurd hd (by decide)
    | boolean b =>
      cases b with
      | true =>
        exact .inr ⟨hstring (by decide), .inr ⟨hnumber (by decide) (by decide), .inl ⟨rfl, rfl⟩⟩⟩
      | false =>
        exact .inr ⟨hstring (by decide), .inr ⟨hnumber (by decide) (by decide),
          .inr ⟨rfl, rfl, rfl⟩⟩⟩

/-- A literal starts with a quote, a minus, a digit or a letter of a truth value. -/
theorem LiteralForm.exists_head {v : Value} (h : LiteralForm cs v r) :
    ∃ d s, cs = d :: s ∧ (d ∈ ['"', '\'', '-', 't', 'f'] ∨ d.isDigit = true) := by
  cases h with
  | string h =>
    cases h with
    | intro hquote _ =>
      refine ⟨_, _, rfl, .inl ?_⟩
      simp only [List.mem_cons, List.not_mem_nil, or_false] at hquote
      rcases hquote with rfl | rfl <;> decide
  | number h =>
    obtain ⟨d, s, rfl, hd⟩ := h.exists_head
    exact ⟨d, s, rfl, hd.imp_left fun h => by simp [h]⟩
  | boolean b => cases b <;> exact ⟨_, _, rfl, .inl (by decide)⟩

theorem comparison_eq_some {op : Comparison} :
    comparison cs = some (op, r) ↔ ComparisonForm cs op r := by
  have hlonger (long : Comparison) {c : Char} {r : List Char} (hlong : long.symbol.toList = [c, '='])
      (h : keyword long.symbol long (c :: r) = none) : r.head? ≠ some '=' := by
    intro hr
    obtain ⟨r, rfl⟩ := List.head?_eq_some_iff.mp hr
    rw [keyword_eq_some.mpr ⟨rfl, by rw [hlong]; rfl⟩] at h
    cases h
  unfold comparison
  constructor
  · intro h
    simp only [either_eq_some] at h
    rcases h with h | ⟨-, h | ⟨hgte, h | ⟨hlte, h | ⟨-, h | ⟨-, h | ⟨-, h⟩⟩⟩⟩⟩⟩ <;>
      obtain ⟨rfl, rfl⟩ := keyword_eq_some.mp h
    · exact .intro .neq (by simp)
    · exact .intro .gte (by simp)
    · exact .intro .lte (by simp)
    · exact .intro .eq (by simp)
    · exact .intro .gt fun _ => hlonger .gte rfl hgte
    · exact .intro .lt fun _ => hlonger .lte rfl hlte
    · exact .intro .contains (by simp)
  · intro h
    cases h with
    | intro op hlong =>
    have hhead {c : Char} (hc : op = .gt ∨ op = .lt) (hr : ∃ t, r = c :: t) : ¬ '=' = c := by
      obtain ⟨t, rfl⟩ := hr
      exact fun e => hlong hc (e ▸ rfl)
    cases op with
    | gt =>
      cases r with
      | nil => rfl
      | cons d r => simp [either, keyword, afterWord?, Comparison.symbol, hhead (.inl rfl) ⟨r, rfl⟩]
    | lt =>
      cases r with
      | nil => rfl
      | cons d r => simp [either, keyword, afterWord?, Comparison.symbol, hhead (.inr rfl) ⟨r, rfl⟩]
    | _ => simp [either, keyword, afterWord?, Comparison.symbol]

/-- A choice between readers of which the second reads nothing that the first one reads. -/
theorem map_either_eq_some {γ : Type} {s : Scanner α} {t : Scanner β} {F : Form α} {G : Form β}
    {f : α → γ} {g : β → γ} (hs : ∀ {a r}, s cs = some (a, r) ↔ F cs a r)
    (ht : ∀ {b r}, t cs = some (b, r) ↔ G cs b r) (hnot : ∀ {a b r r'}, F cs a r → ¬ G cs b r') {x : γ} :
    either (fun cs => (s cs).map fun (a, r) => (f a, r)) (fun cs => (t cs).map fun (b, r) => (g b, r)) cs =
      some (x, r) ↔ (∃ a, F cs a r ∧ f a = x) ∨ ∃ b, G cs b r ∧ g b = x := by
  simp only [either_eq_some, Option.map_eq_some_iff, Option.map_eq_none_iff, Prod.mk.injEq,
    Prod.exists]
  constructor
  · rintro (⟨a, r, h, rfl, rfl⟩ | ⟨-, b, r, h, rfl, rfl⟩)
    · exact .inl ⟨a, hs.mp h, rfl⟩
    · exact .inr ⟨b, ht.mp h, rfl⟩
  · rintro (⟨a, h, rfl⟩ | ⟨b, h, rfl⟩)
    · exact .inl ⟨a, r, hs.mpr h, rfl, rfl⟩
    · exact .inr ⟨eq_none_of_forall_not hs fun a r' ha => hnot ha h, b, r, ht.mpr h, rfl, rfl⟩

theorem LabelForm.exists_head {l : Label} (h : LabelForm cs l r) :
    ∃ d s, cs = d :: s ∧ isLabelChar d = true := by
  obtain ⟨h⟩ := h
  exact h.exists_head

theorem typeRef_eq_some {t : TypeRef} : typeRef cs = some (t, r) ↔ TypeRefForm cs t r := by
  unfold typeRef
  rw [map_either_eq_some var_eq_some label_eq_some]
  · constructor
    · rintro (⟨v, h, rfl⟩ | ⟨l, h, rfl⟩)
      · exact .var h
      · exact .label h
    · rintro (h | h)
      · exact .inl ⟨_, h, rfl⟩
      · exact .inr ⟨_, h, rfl⟩
  · rintro _ _ _ _ ⟨_⟩ h
    obtain ⟨d, s, heq, hd⟩ := h.exists_head
    obtain ⟨rfl, -⟩ := List.cons.inj heq
    exact absurd hd (by decide)

/-! ## What a token takes of the text -/

theorem VarForm.suffix {v : Var} (h : VarForm cs v r) : r <:+ cs := by
  obtain ⟨h⟩ := h
  exact h.suffix.trans (List.suffix_cons _ _)

theorem LabelForm.suffix {l : Label} (h : LabelForm cs l r) : r <:+ cs := by
  obtain ⟨h⟩ := h
  exact h.suffix

theorem StringForm.suffix {s : String} (h : StringForm cs s r) : r <:+ cs := by
  cases h with
  | intro _ _ => exact (List.suffix_cons _ _).trans ((List.suffix_append _ _).trans (List.suffix_cons _ _))

theorem SignForm.suffix {negative : Bool} (h : SignForm cs negative r) : r <:+ cs := by
  cases h with
  | minus => exact List.suffix_cons _ _
  | none => exact List.suffix_rfl

theorem NumberForm.suffix {v : Value} (h : NumberForm cs v r) : r <:+ cs := by
  cases h with
  | double hsign hwhole hfraction =>
    exact hfraction.suffix.trans ((List.suffix_cons _ _).trans (hwhole.suffix.trans hsign.suffix))
  | long hsign hwhole _ _ => exact hwhole.suffix.trans hsign.suffix

theorem LiteralForm.suffix {v : Value} (h : LiteralForm cs v r) : r <:+ cs := by
  cases h with
  | string h => exact h.suffix
  | number h => exact h.suffix
  | boolean b => exact List.suffix_append _ _

theorem ComparisonForm.suffix {op : Comparison} (h : ComparisonForm cs op r) : r <:+ cs := by
  obtain ⟨_⟩ := h
  exact List.suffix_append _ _

theorem TypeRefForm.suffix {t : TypeRef} (h : TypeRefForm cs t r) : r <:+ cs := by
  cases h with
  | var h => exact h.suffix
  | label h => exact h.suffix

end Grammar

end GraphInference
