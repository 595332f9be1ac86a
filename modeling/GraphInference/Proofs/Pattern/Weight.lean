import GraphInference.Proofs.Pattern.Rereading

/-!
# Quotes and points

A text weighs the quotes in it less the points. What a phrase is printed as weighs no less than what it was
read from: a string is printed with two quotes more than it has, and is read from no more; a double is
printed with at most the one point that it is read with. The two weigh the same only if all literals are
restorable (`Grammar.PatternForm.weighs`).
-/

namespace GraphInference

open Text

open GraphInference.WrittenStatement (allFilled)

namespace Text

/-- The number of quotes less the number of points. -/
def weight (cs : List Char) : Int :=
  cs.count '"' - cs.count '.'

variable {cs c r x y : List Char} {P Q : Prop}

@[simp] theorem weight_nil : weight [] = 0 := rfl

theorem weight_append (cs r : List Char) : weight (cs ++ r) = weight cs + weight r := by
  unfold weight
  rw [List.count_append, List.count_append]
  omega

theorem weight_cons (d : Char) (cs : List Char) : weight (d :: cs) = weight [d] + weight cs :=
  weight_append [d] cs

/-- Characters besides quotes and points have no weight. -/
theorem weight_eq_zero (h : ∀ d ∈ cs, d ≠ '"' ∧ d ≠ '.') : weight cs = 0 := by
  unfold weight
  rw [List.count_eq_zero_of_not_mem fun hd => (h _ hd).1 rfl,
    List.count_eq_zero_of_not_mem fun hd => (h _ hd).2 rfl]
  rfl

theorem weight_eq_zero_of_all {p : Char → Bool} (h : ∀ d ∈ cs, p d = true) (hquote : p '"' = false)
    (hpoint : p '.' = false) : weight cs = 0 := by
  refine weight_eq_zero fun d hd => ⟨?_, ?_⟩
  · rintro rfl
    rw [h _ hd] at hquote
    cases hquote
  · rintro rfl
    rw [h _ hd] at hpoint
    cases hpoint

theorem weight_intercalate {sep : List Char} (hsep : weight sep = 0) (l : List (List Char)) :
    weight (sep.intercalate l) = (l.map weight).sum := by
  induction l with
  | nil => rfl
  | cons a l ih =>
    cases l with
    | nil => simp
    | cons b l =>
      rw [List.intercalate_cons_cons, weight_append, weight_append, ih, hsep, Int.add_zero]
      rfl

/-- What stands between `cs` and `r` weighs no more than `x`, and if it weighs the same then `P` holds. -/
def Weighs (cs r x : List Char) (P : Prop) : Prop :=
  weight cs ≤ weight x + weight r ∧ (weight cs = weight x + weight r → P)

theorem Weighs.trans (h : Weighs cs c x P) (h' : Weighs c r y Q) : Weighs cs r (x ++ y) (P ∧ Q) := by
  obtain ⟨hle, heq⟩ := h
  obtain ⟨hle', heq'⟩ := h'
  unfold Weighs
  rw [weight_append]
  exact ⟨by omega, fun h => ⟨heq (by omega), heq' (by omega)⟩⟩

theorem Weighs.imp (h : Weighs cs r x P) (himp : P → Q) : Weighs cs r x Q :=
  ⟨h.1, fun heq => himp (h.2 heq)⟩

/-- Other texts of the same weights. -/
theorem Weighs.congr (h : Weighs cs r x P) (hc : weight c = weight cs) (hy : weight y = weight x) :
    Weighs c r y P := by
  unfold Weighs
  rw [hc, hy]
  exact h

/-- Up to another text of the same weight. -/
theorem Weighs.upTo (h : Weighs cs r x P) (hr : weight r = weight c) : Weighs cs c x P := by
  unfold Weighs
  rw [← hr]
  exact h

theorem weighs_of_eq (h : weight cs = weight x + weight r) (hP : P) : Weighs cs r x P :=
  ⟨h.le, fun _ => hP⟩

theorem weighs_self (x r : List Char) : Weighs (x ++ r) r x True :=
  weighs_of_eq (weight_append x r) trivial

end Text

namespace Grammar

variable {α β : Type} {cs r : List Char}

theorem Blanks.weight_eq (h : Blanks isBlank cs r) : weight cs = weight r := by
  induction h with
  | none _ => rfl
  | @more d _ _ hd _ ih =>
    have hblank : weight [d] = 0 := by
      refine weight_eq_zero_of_all (p := isBlank) ?_ rfl rfl
      simpa using hd
    rw [weight_cons, hblank, ih, Int.zero_add]

theorem SomeBlanks.weight_eq (h : SomeBlanks isBlank cs r) : weight cs = weight r := by
  obtain ⟨hd, h⟩ := h
  exact (Blanks.more hd h).weight_eq

/-! ## Tokens -/

theorem Run.weight_eq {p : Char → Bool} {run : List Char} (h : Run p cs run r) :
    weight cs = weight run + weight r := by
  rw [h.split, weight_append]

theorem VarForm.weighs {v : Var} (h : VarForm cs v r) : Weighs cs r v.text.toList True := by
  obtain ⟨h⟩ := h
  rw [VarForm.toList_text h rfl, h.split]
  exact weighs_self _ _

theorem LabelForm.weighs {l : Label} (h : LabelForm cs l r) : Weighs cs r l.text.toList True := by
  obtain ⟨h⟩ := h
  dsimp only
  rw [String.toList_ofList, h.split]
  exact weighs_self _ _

theorem SignForm.weight_eq {negative : Bool} (h : SignForm cs negative r) : weight cs = weight r := by
  cases h with
  | minus => rw [weight_cons]; exact Int.zero_add _
  | none => rfl

theorem weight_digits {digits : List Char} (h : ∀ d ∈ digits, d.isDigit = true) : weight digits = 0 :=
  weight_eq_zero_of_all h rfl rfl

/-- A double is printed with at most one point, and no quote. -/
theorem weight_text_double (d : Double) :
    -1 ≤ weight d.text.toList ∧ (weight d.text.toList = -1 → '.' ∈ d.text.toList) := by
  have hquote : d.text.toList.count '"' = 0 :=
    List.count_eq_zero_of_not_mem fun h => absurd (Double.isLiteralChar_of_mem_text _ h) (by decide)
  by_cases hpoint : '.' ∈ d.text.toList
  · obtain ⟨negative, whole, fraction, htext, -, -, hwhole, hfraction, -⟩ :=
      Double.exists_decimal_of_mem_text hpoint
    have hsign : weight (if negative then ['-'] else []) = 0 := by cases negative <;> rfl
    have hweight : weight d.text.toList = -1 := by
      rw [htext, weight_append, weight_append, weight_cons, weight_digits hwhole,
        weight_digits hfraction, hsign]
      rfl
    exact ⟨hweight.ge, fun _ => hpoint⟩
  · have hzero : weight d.text.toList = 0 := by
      unfold weight
      rw [hquote, List.count_eq_zero_of_not_mem hpoint]
      rfl
    rw [hzero]
    exact ⟨by omega, fun h => by omega⟩

theorem NumberForm.weighs {v : Value} (h : NumberForm cs v r) :
    Weighs cs r v.literal.toList v.Restorable := by
  cases h with
  | @double _ r₁ r₂ _ whole fraction negative hsign hwhole hfraction =>
    have hcs : weight cs = -1 + weight r := by
      rw [hsign.weight_eq, hwhole.weight_eq, weight_cons, hfraction.weight_eq, weight_digits hwhole.inside,
        weight_digits hfraction.inside, show weight ['.'] = -1 from rfl]
      omega
    obtain ⟨hle, heq⟩ := weight_text_double
      (.ofMagnitude negative (Double.Decimal.mk whole fraction 0).magnitude)
    unfold Weighs
    rw [hcs]
    exact ⟨Int.add_le_add_right hle _, fun h => heq (by simpa [Value.literal, Value.text] using h.symm)⟩
  | @long _ r₁ _ whole negative n hsign hwhole _ _ =>
    have hcs : weight cs = weight r := by
      rw [hsign.weight_eq, hwhole.weight_eq, weight_digits hwhole.inside, Int.zero_add]
    have hliteral : weight (Value.long n).literal.toList = 0 := by
      show weight (toString n.toInt).toList = 0
      have hdigits : weight (Nat.toDigits 10 n.toInt.natAbs) = 0 :=
        weight_digits Double.isDigit_of_mem_toDigits
      rw [Double.toList_toString]
      split
      · rw [weight_cons, hdigits]
        rfl
      · exact hdigits
    exact weighs_of_eq (hcs.trans (by rw [hliteral, Int.zero_add])) trivial

theorem StringForm.weighs {s : String} (h : StringForm cs s r) :
    Weighs cs r ('"' :: (s.toList ++ ['"'])) ('"' ∉ s.toList) := by
  cases h with
  | @intro quote s _ hquote hs =>
    have hprinted : weight ('"' :: ((String.ofList s).toList ++ ['"'])) = weight s + 2 := by
      rw [weight_cons, weight_append, String.toList_ofList, show weight ['"'] = 1 from rfl]
      omega
    have hread : weight (quote :: (s ++ quote :: r)) = weight s + 2 * weight [quote] + weight r := by
      rw [weight_cons, weight_append, weight_cons quote r]
      omega
    unfold Weighs
    rw [hprinted, hread]
    simp only [List.mem_cons, List.not_mem_nil, or_false] at hquote
    rcases hquote with rfl | rfl
    · have hone : weight ['"'] = 1 := rfl
      exact ⟨by omega, fun _ => by rwa [String.toList_ofList]⟩
    · have hzero : weight ['\''] = 0 := rfl
      exact ⟨by omega, fun heq => absurd heq (by omega)⟩

theorem LiteralForm.weighs {v : Value} (h : LiteralForm cs v r) :
    Weighs cs r v.literal.toList v.Restorable := by
  cases h with
  | @string _ _ s h =>
    rw [Value.toList_literal_string]
    exact h.weighs
  | number h => exact h.weighs
  | boolean b => exact (weighs_self _ _).imp fun _ => trivial

/-! ## Properties -/

theorem weight_symbol (op : Comparison) : weight op.symbol.toList = 0 := by
  cases op <;> rfl

theorem weight_text_constraint (p : Constraint) : weight p.text.toList = weight p.value.literal.toList := by
  rw [Constraint.toList_text]
  split
  · rfl
  · rw [weight_append, weight_symbol, weight_cons, Int.zero_add]
    exact Int.zero_add _

theorem ConstraintForm.weighs {p : Constraint} (h : ConstraintForm isBlank cs p r) :
    Weighs cs r p.text.toList p.value.Restorable := by
  cases h with
  | bare hv => exact hv.weighs
  | @compared _ r₁ _ _ op v hop hb hv =>
    obtain ⟨_⟩ := hop
    refine hv.weighs.congr ?_ (weight_text_constraint _)
    rw [weight_append, weight_symbol, hb.weight_eq, Int.zero_add]

theorem TypeRefForm.weighs {t : TypeRef} (h : TypeRefForm cs t r) : Weighs cs r t.text.toList True := by
  cases h with
  | var h => exact h.weighs
  | label h => exact h.weighs

theorem PropertyForm.weighs {w : WrittenProperty} (h : PropertyForm isBlank cs w r) (x : Var) :
    Weighs cs r (w.property x).text.toList (w.property x).Restorable := by
  have hkeyword {word argument : List Char} (hword : weight word = 0) :
      weight (word ++ ' ' :: argument) = weight argument := by
    rw [weight_append, hword, weight_cons, Int.zero_add]
    exact Int.zero_add _
  have hread (word : List Char) {cs r : List Char} (hword : weight word = 0) (hb : SomeBlanks isBlank cs r) :
      weight (word ++ cs) = weight r := by
    rw [weight_append, hword, hb.weight_eq, Int.zero_add]
  rw [Property.toList_text (w.isRelation_property x)]
  cases h with
  | isa hb ht =>
    exact (ht.weighs.imp fun _ => trivial).congr (hread ['i', 's', 'a'] rfl hb) (hkeyword rfl)
  | has hb hl hb' ho =>
    have hargument {l : Label} {argument : List Char} :
        weight (l.text.toList ++ ' ' :: argument) = weight (l.text.toList ++ argument) := by
      rw [weight_append, weight_cons, weight_append]
      exact congrArg _ (Int.zero_add _)
    have hhas := hread ['h', 'a', 's'] rfl hb
    cases ho with
    | var hv =>
      exact ((hl.weighs.trans (hv.weighs.congr hb'.weight_eq rfl)).imp fun _ => trivial).congr hhas
        ((hkeyword rfl).trans hargument)
    | value hp =>
      exact ((hl.weighs.trans (hp.weighs.congr hb'.weight_eq rfl)).imp And.right).congr hhas
        ((hkeyword rfl).trans hargument)
  | identity hb hs => exact hs.weighs.congr (hread ['i', 'd'] rfl hb) (hkeyword rfl)
  | value hb hp => exact hp.weighs.congr (hread ['v', 'a', 'l'] rfl hb) (hkeyword rfl)

/-! ## Relations -/

theorem Separated.weighs {F : Form α} {f : β → List Char} {R : α → β → Prop} {P : β → Prop} {as : List α}
    {bs : List β} (h : Separated isBlank F cs as r) (hR : List.Forall₂ R as bs)
    (hF : ∀ {cs r a b}, F cs a r → R a b → Weighs cs r (f b) (P b)) :
    Weighs cs r ([',', ' '].intercalate (bs.map f)) (∀ b ∈ bs, P b) := by
  induction h generalizing bs with
  | one h =>
    obtain - | ⟨hab, hnil⟩ := hR
    cases hnil
    rw [List.map_singleton, List.intercalate_singleton]
    exact (hF h hab).imp fun hb => List.forall_mem_singleton.mpr hb
  | @more _ r₁ r₂ r₃ r a as h hb hb' hs ih =>
    obtain - | @⟨_, b, _, bs, hab, htail⟩ := hR
    have hcomma : weight r₁ = weight r₃ := by
      rw [hb.weight_eq, weight_cons, hb'.weight_eq]
      exact Int.zero_add _
    refine (((hF h hab).trans ((ih htail).congr hcomma rfl)).imp ?_).congr rfl ?_
    · exact fun hall => List.forall_mem_cons.mpr hall
    · rw [weight_intercalate rfl, weight_append, weight_intercalate rfl, List.map_cons, List.map_cons,
        List.sum_cons]

theorem PlayerForm.weighs {p : RolePlayer} (h : PlayerForm isBlank cs p r) :
    Weighs cs r p.text.toList True := by
  rw [RolePlayer.toList_text]
  cases h with
  | @role _ r₁ r₂ r₃ _ l v hl hb hb' hv =>
    have hcolon : weight r₁ = weight r₃ := by
      rw [hb.weight_eq, weight_cons, hb'.weight_eq]
      exact Int.zero_add _
    refine ((hl.weighs.trans (hv.weighs.congr hcolon rfl)).imp fun _ => trivial).congr rfl ?_
    dsimp only
    rw [weight_append, weight_cons, weight_append, weight_append]
    simp [show weight [':'] = 0 from rfl, show weight [' '] = 0 from rfl]
  | bare hv => exact hv.weighs

theorem RelationForm.weighs {ps : List RolePlayer} (h : RelationForm isBlank cs ps r) :
    Weighs cs r (playersText ps).toList True := by
  obtain ⟨hb, hps, hb'⟩ := h
  next r₁ r₂ r₃ =>
  have hR : List.Forall₂ (· = ·) ps ps := List.forall₂_eq_eq_eq ▸ rfl
  have hplayers := hps.weighs (f := fun p => p.text.toList) (P := fun _ => True) hR fun {_ _ _ b} h hab =>
    hab ▸ h.weighs
  have hread : weight ('(' :: r₁) = weight r₂ := by
    rw [weight_cons, hb.weight_eq]
    exact Int.zero_add _
  have hrest : weight r₃ = weight r := by
    rw [hb'.weight_eq, weight_cons]
    exact Int.zero_add _
  have hprinted : weight (playersText ps).toList =
      weight ([',', ' '].intercalate (ps.map (·.text.toList))) := by
    rw [toList_playersText, weight_cons, weight_append, show weight [')'] = 0 from rfl, Int.add_zero]
    exact Int.zero_add _
  exact ((hplayers.imp fun _ => trivial).congr hread hprinted).upTo hrest

/-! ## Statements -/

theorem VarForm.weight_text {v : Var} (h : VarForm cs v r) : weight v.text.toList = 0 := by
  obtain ⟨h⟩ := h
  rw [VarForm.toList_text h rfl, weight_cons, weight_eq_zero_of_all h.inside rfl rfl]
  rfl

theorem weight_text_generated (k : Nat) : weight (Var.generated k).text.toList = 0 :=
  (varForm_generated (r := []) k fun _ h => nomatch h).weight_text

theorem weighs_subject {subject : Option Var} (h : Optionally VarForm cs subject r) (k : Nat) :
    Weighs cs r (subject.getD (.generated k)).text.toList True := by
  cases h with
  | none _ =>
    refine weighs_of_eq ?_ trivial
    rw [Option.getD_none, weight_text_generated, Int.zero_add]
  | some h => exact h.weighs

theorem weighs_players {players : Option (List RolePlayer)}
    (h : Optionally (RelationForm isBlank) cs players r) :
    Weighs cs r (players.elim [] fun ps => ' ' :: (playersText ps).toList) True := by
  cases h with
  | none _ => exact weighs_self [] _
  | some h =>
    refine h.weighs.congr rfl ?_
    rw [Option.elim_some, weight_cons]
    exact Int.zero_add _

theorem weighs_listed {properties : Option (List WrittenProperty)} {ps : List Property}
    (h : Optionally (Separated isBlank (PropertyForm isBlank)) cs properties r)
    (hps : Stand (properties.getD []) ps) :
    Weighs cs r (Statement.listed ps) (∀ p ∈ ps, p.Restorable) := by
  cases h with
  | none _ =>
    cases hps
    exact weighs_of_eq (Int.zero_add _).symm fun _ hp => nomatch hp
  | some h =>
    have hne : ps ≠ [] := by
      rintro rfl
      cases hps
      exact h.ne_nil rfl
    refine (h.weighs (f := fun p => p.text.toList) hps ?_).congr rfl ?_
    · rintro cs r w p h ⟨x, rfl⟩
      exact h.weighs x
    · unfold Statement.listed
      rw [if_neg (by simpa using hne), weight_cons]
      exact Int.zero_add _

theorem StatementForm.weighs {w : WrittenStatement} (h : StatementForm isBlank cs w r) (n : Nat) :
    Weighs cs r (w.filled n).text.toList (∀ p ∈ (w.filled n).properties, p.Restorable) := by
  have hstand := WrittenProperty.stand_filled n w.properties
  unfold WrittenStatement.filled
  rw [Statement.toList_text, WrittenStatement.players?_statement hstand.isRelation,
    WrittenStatement.others_statement hstand.isRelation]
  obtain ⟨hsubject, hb₁, hplayers, hb₂, hproperties, hb₃, -, -⟩ := h
  next r₁ r₂ r₃ r₄ r₅ subject players properties =>
  have hlisted := (weighs_listed hproperties hstand).congr hb₂.weight_eq rfl
  have hparts := (weighs_subject hsubject (n + WrittenProperty.allDraws (properties.getD []))).trans
    (((weighs_players hplayers).congr hb₁.weight_eq rfl).trans hlisted)
  have hend : weight r₅ = weight r := by
    rw [hb₃.weight_eq, weight_cons]
    exact Int.zero_add _
  refine (hparts.imp fun hall => ?_).upTo hend
  unfold WrittenStatement.statement
  rw [List.forall_mem_append]
  refine ⟨fun p hp => ?_, hall.2.2⟩
  obtain ⟨ps, -, rfl⟩ := Option.map_eq_some_iff.mp (Option.mem_toList.mp hp)
  trivial

theorem StatementsForm.weighs {ws : List WrittenStatement} (h : StatementsForm isBlank cs ws r) (n : Nat) :
    Weighs cs r ([' '].intercalate ((allFilled n ws).map fun st => st.text.toList ++ [';']))
      (∀ st ∈ allFilled n ws, ∀ p ∈ st.properties, p.Restorable) := by
  have hsemicolon (st : Statement) : weight (st.text.toList ++ [';']) = weight st.text.toList :=
    (weight_append _ _).trans (Int.add_zero _)
  induction h generalizing n with
  | one hb h =>
    rw [allFilled, allFilled, List.map_singleton, List.intercalate_singleton]
    exact ((h.weighs n).imp fun hall => List.forall_mem_singleton.mpr hall).congr hb.weight_eq
      (hsemicolon _)
  | @more _ _ _ _ w ws hb h hs ih =>
    rw [allFilled]
    refine (((h.weighs n).trans (ih (n + w.draws))).imp fun hall => List.forall_mem_cons.mpr hall).congr
      hb.weight_eq ?_
    rw [weight_intercalate rfl, weight_append, weight_intercalate rfl, List.map_cons, List.map_cons,
      List.sum_cons, hsemicolon]

/-- A pattern is printed no lighter than it was read, and as heavy only if all literals can be restored. -/
theorem PatternForm.weighs {ws : List WrittenStatement} (h : PatternForm isBlank cs ws []) (n : Nat) :
    Weighs cs [] (Conjunction.mk (allFilled n ws)).text.toList
      (∀ st ∈ allFilled n ws, ∀ p ∈ st.properties, p.Restorable) := by
  obtain ⟨h, hb⟩ := h
  rw [Conjunction.toList_text]
  exact (h.weighs n).upTo hb.weight_eq

end Grammar

end GraphInference
