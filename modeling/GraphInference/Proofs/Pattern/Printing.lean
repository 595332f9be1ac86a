import GraphInference.Proofs.Pattern.Parsing
import GraphInference.Proofs.Pattern.Text

/-!
# What is printed is derived

The text of a phrase is a phrase of the same form and stands for the same, whatever the layout was that it
was read from: one lemma for each form. Literals are the exception: a quote in a string ends it too early,
and a double that is printed without a point is read as an integer or not at all. Otherwise a literal is
`Restorable`.
-/

namespace GraphInference

open Text

/-! ## Literals that are read back -/

/-- The literal of the value stands for the value. -/
def Value.Restorable : Value → Prop
  | .string s => '"' ∉ s.toList
  | .double d => '.' ∈ d.text.toList
  | _ => True

instance : (v : Value) → Decidable v.Restorable
  | .string s => inferInstanceAs (Decidable ('"' ∉ s.toList))
  | .double d => inferInstanceAs (Decidable ('.' ∈ d.text.toList))
  | .long _ => .isTrue trivial
  | .boolean _ => .isTrue trivial

/-- What the property prints of a literal or an identifier stands for it. -/
def Property.Restorable : Property → Prop
  | .has _ _ (some p) => p.value.Restorable
  | .value p => p.value.Restorable
  | .identity id => '"' ∉ id.text.toList
  | _ => True

instance : (p : Property) → Decidable p.Restorable
  | .has _ _ (some p) => inferInstanceAs (Decidable p.value.Restorable)
  | .value p => inferInstanceAs (Decidable p.value.Restorable)
  | .identity id => inferInstanceAs (Decidable ('"' ∉ id.text.toList))
  | .isa _ => .isTrue trivial
  | .relation _ => .isTrue trivial
  | .has _ _ none => .isTrue trivial

/-! ## Written statements and what they stand for -/

/-- What the written property stands for, with `x` for the attribute if it has no variable. -/
def WrittenProperty.property (x : Var) : WrittenProperty → Property
  | .isa t => .isa t
  | .has l (.var v) => .has l v none
  | .has l (.value p) => .has l x (some p)
  | .identity id => .identity id
  | .value p => .value p

/-- What the written statement stands for, with `x` for its variable and `ps` for its properties. -/
def WrittenStatement.statement (w : WrittenStatement) (x : Var) (ps : List Property) : Statement :=
  ⟨x, (w.players.map Property.relation).toList ++ ps⟩

theorem WrittenProperty.isRelation_property (x : Var) (w : WrittenProperty) :
    (w.property x).isRelation = false := by
  cases w with
  | has l o => cases o <;> rfl
  | _ => rfl

/-- The properties stand for the written ones. -/
abbrev Stand (ws : List WrittenProperty) (ps : List Property) : Prop :=
  List.Forall₂ (fun w p => ∃ x, p = WrittenProperty.property x w) ws ps

theorem Stand.isRelation {ws : List WrittenProperty} {ps : List Property} (h : Stand ws ps) :
    ∀ p ∈ ps, p.isRelation = false := by
  induction h with
  | nil => exact fun _ hp => nomatch hp
  | cons hp _ ih =>
    obtain ⟨x, rfl⟩ := hp
    exact List.forall_mem_cons.mpr ⟨WrittenProperty.isRelation_property x _, ih⟩

namespace WrittenStatement

variable {w : WrittenStatement} {x : Var} {ps : List Property}

theorem players?_statement (h : ∀ p ∈ ps, p.isRelation = false) :
    (w.statement x ps).players? = w.players := by
  have hps : ps.findSome? Property.players? = none := by
    refine List.findSome?_eq_none_iff.mpr fun p hp => ?_
    have hp := h p hp
    cases p with
    | relation qs => cases hp
    | _ => rfl
  unfold statement Statement.players?
  cases w.players with
  | none => exact hps
  | some qs => rfl

theorem others_statement (h : ∀ p ∈ ps, p.isRelation = false) : (w.statement x ps).others = ps := by
  have hps : ps.filter (fun p => !p.isRelation) = ps :=
    List.filter_eq_self.mpr fun p hp => by rw [h p hp]; rfl
  unfold statement Statement.others
  cases w.players with
  | none => exact hps
  | some qs => exact hps

end WrittenStatement

namespace Grammar

variable {α β : Type} {cs r r' : List Char}

/-! ## Tokens -/

/-- The marks that stand after tokens in a printed text. -/
def marks : List Char := [' ', ',', ';', ':', ')']

theorem Run.printed {p : Char → Bool} {name : List Char} (h : Run p cs name r)
    (hp : marks.all (!p ·) = true) (hr : Stops marks r') : Run p (name ++ r') name r' where
  split := rfl
  nonempty := h.nonempty
  inside := h.inside
  ends c hc := by simpa using List.all_eq_true.mp hp c (hr c hc)

theorem VarForm.toList_text {v : Var} {name : List Char} (h : Run isVarChar cs name r)
    (hv : v = Var.ofName (String.ofList name)) : v.text.toList = '$' :: name := by
  have hbare : Var.bareName (String.ofList name) = String.ofList name := by
    unfold Var.bareName
    rw [String.toList_ofList]
    split
    · exact absurd (h.inside '$' (.head _)) (by decide)
    · rfl
  have hne : String.ofList name ≠ "" := fun he =>
    h.nonempty (by simpa using congrArg String.toList he)
  subst hv
  unfold Var.text Var.isEmpty Var.ofName
  dsimp only
  rw [hbare, if_neg (by simpa using hne), String.toList_append]
  exact congrArg ('$' :: ·) String.toList_ofList

theorem VarForm.printed {v : Var} (h : VarForm cs v r) (hr : Stops marks r') :
    VarForm (v.text.toList ++ r') v r' := by
  obtain ⟨h⟩ := h
  rw [VarForm.toList_text h rfl]
  exact .intro (h.printed rfl hr)

theorem isVarChar_of_mem_toDigits (k : Nat) : ∀ c ∈ Nat.toDigits 16 k, isVarChar c = true := by
  have hdigit : ∀ d < 16, isVarChar (Nat.digitChar d) = true := by decide
  induction k using Nat.strong_induction_on with
  | _ k ih =>
    by_cases hk : k < 16
    · rw [Nat.toDigits_of_lt_base hk]
      simpa using hdigit k hk
    · rw [Nat.toDigits_of_base_le (by decide) (Nat.not_lt.mp hk), List.forall_mem_append]
      exact ⟨ih (k / 16) (by omega), by simpa using hdigit (k % 16) (by omega)⟩

theorem varForm_generated (k : Nat) (hr : Stops marks r) :
    VarForm ((Var.generated k).text.toList ++ r) (Var.generated k) r := by
  have hname : (Var.generatedName k).toList =
      '_' :: (List.replicate (32 - (Nat.toDigits 16 k).length) '0' ++ Nat.toDigits 16 k) :=
    String.toList_ofList
  have hrun : Run isVarChar ((Var.generatedName k).toList ++ r) (Var.generatedName k).toList r := by
    refine ⟨rfl, by simp [hname], ?_, fun c hc => ?_⟩
    · rw [hname, List.forall_mem_cons, List.forall_mem_append]
      exact ⟨rfl, fun c hc => List.eq_of_mem_replicate hc ▸ rfl, isVarChar_of_mem_toDigits k⟩
    · simpa using List.all_eq_true.mp (show marks.all (!isVarChar ·) = true from rfl) c (hr c hc)
  have hv : Var.generated k = Var.ofName (String.ofList (Var.generatedName k).toList) := by
    rw [String.ofList_toList]
    unfold Var.ofName Var.bareName
    rw [hname]
    simp [hname, Var.generated]
  have h := VarForm.intro hrun
  rwa [← hv, ← List.cons_append, ← VarForm.toList_text hrun hv] at h

theorem LabelForm.printed {l : Label} (h : LabelForm cs l r) (hr : Stops marks r') :
    LabelForm (l.text.toList ++ r') l r' := by
  obtain ⟨h⟩ := h
  dsimp only
  rw [String.toList_ofList]
  exact .intro (h.printed rfl hr)

theorem stringForm_printed {s : String} (hs : '"' ∉ s.toList) :
    StringForm ('"' :: (s.toList ++ '"' :: r)) s r := by
  have h := StringForm.intro (r := r) (List.mem_cons_self (a := '"')) hs
  rwa [String.ofList_toList] at h

/-- Digits up to a mark are a run. -/
theorem run_digits {digits : List Char} (hne : digits ≠ []) (hdigits : ∀ c ∈ digits, c.isDigit = true)
    (hr : Stops marks r) : Run Char.isDigit (digits ++ r) digits r where
  split := rfl
  nonempty := hne
  inside := hdigits
  ends c hc := by
    have hall : marks.all (!Char.isDigit ·) = true := rfl
    simpa using List.all_eq_true.mp hall c (hr c hc)

theorem signForm_printed (negative : Bool) :
    SignForm ((if negative then ['-'] else []) ++ r) negative r := by
  cases negative with
  | true => exact .minus
  | false => exact .none

theorem numberForm_long (n : Int64) (hr : Stops marks r) :
    NumberForm ((toString n.toInt).toList ++ r) (.long n) r := by
  have hsplit : (toString n.toInt).toList ++ r =
      (if decide (n.toInt < 0) then ['-'] else []) ++ (Nat.toDigits 10 n.toInt.natAbs ++ r) := by
    rw [Double.toList_toString]
    split <;> rfl
  rw [hsplit]
  refine .long (signForm_printed _) (run_digits Nat.toDigits_ne_nil Double.isDigit_of_mem_toDigits hr)
    (fun c r₂ heq => ?_) ?_
  · subst heq
    exact absurd (stops_cons.mp hr) (by decide)
  · rw [Double.digitsValue_toDigits]
    simp only [decide_eq_true_eq]
    omega

theorem numberForm_double {d : Double} (hd : '.' ∈ d.text.toList) (hr : Stops marks r) :
    NumberForm (d.text.toList ++ r) (.double d) r := by
  obtain ⟨negative, whole, fraction, htext, hwhole, hfraction, hw, hf, hvalue⟩ :=
    Double.exists_decimal_of_mem_text hd
  have hrun : Run Char.isDigit (whole ++ '.' :: (fraction ++ r)) whole ('.' :: (fraction ++ r)) :=
    ⟨rfl, hwhole, hw, by simp⟩
  rw [htext, List.append_assoc, List.append_assoc, List.cons_append]
  conv in Value.double d => rw [hvalue]
  exact .double (signForm_printed negative) hrun (run_digits hfraction hf hr)

theorem literalForm_printed {v : Value} (hv : v.Restorable) (hr : Stops marks r) :
    LiteralForm (v.literal.toList ++ r) v r := by
  cases v with
  | string s =>
    rw [Value.toList_literal_string, List.cons_append, List.append_assoc]
    exact .string (stringForm_printed hv)
  | long n => exact .number (numberForm_long n hr)
  | double d => exact .number (numberForm_double hv hr)
  | boolean b => exact .boolean b

/-! ## Properties -/

theorem constraintForm_printed {p : Constraint} (hp : p.value.Restorable) (hr : Stops marks r) :
    ConstraintForm isBlank (p.text.toList ++ r) p r := by
  obtain ⟨op, v⟩ := p
  have hvalue := literalForm_printed hp hr
  rw [Constraint.toList_text]
  split
  · next h =>
    obtain rfl : op = .eq := h
    exact .bare hvalue
  · rw [List.append_assoc, List.cons_append]
    exact .compared (.intro op fun _ => by simp) (.more rfl (.none _)) hvalue

theorem TypeRefForm.printed {t : TypeRef} (h : TypeRefForm cs t r) (hr : Stops marks r') :
    TypeRefForm (t.text.toList ++ r') t r' := by
  cases h with
  | var h => exact .var (h.printed hr)
  | label h => exact .label (h.printed hr)

theorem stops_blank : Stops marks (' ' :: r) :=
  stops_cons.mpr (by decide)

theorem PropertyForm.printed {w : WrittenProperty} (h : PropertyForm isBlank cs w r) {x : Var}
    (hw : (w.property x).Restorable) (hr : Stops marks r') :
    PropertyForm isBlank ((w.property x).text.toList ++ r') w r' := by
  have hblank {r : List Char} : SomeBlanks isBlank (' ' :: r) r := .intro rfl (.none r)
  rw [Property.toList_text (w.isRelation_property x), List.append_assoc, List.cons_append]
  cases h with
  | isa _ ht => exact .isa hblank (ht.printed hr)
  | has _ hl _ ho =>
    have hlabel (argument : List Char) := hl.printed (stops_blank (r := argument ++ r'))
    simp only [← List.cons_append, ← List.append_assoc] at hlabel
    cases ho with
    | var hv => exact .has hblank (hlabel _) hblank (.var (hv.printed hr))
    | value _ => exact .has hblank (hlabel _) hblank (.value (constraintForm_printed hw hr))
  | @identity _ _ _ s _ _ =>
    have hstring : StringForm ('"' :: (s.toList ++ ['"']) ++ r') s r' := by
      rw [List.cons_append, List.append_assoc]
      exact stringForm_printed hw
    exact .identity hblank hstring
  | value _ _ => exact .value hblank (constraintForm_printed hw hr)

/-! ## Relations -/

/-- Separated phrases printed one after the other, each as something that corresponds to it. -/
theorem Separated.printed {F : Form α} {f : β → List Char} {R : α → β → Prop} {as : List α} {bs : List β}
    (h : Separated isBlank F cs as r) (hR : List.Forall₂ R as bs)
    (hF : ∀ {cs r r' a b}, F cs a r → b ∈ bs → R a b → Stops marks r' → F (f b ++ r') a r')
    (hr : Stops marks r') : Separated isBlank F ([',', ' '].intercalate (bs.map f) ++ r') as r' := by
  induction h generalizing bs with
  | one h =>
    obtain - | ⟨hab, hnil⟩ := hR
    cases hnil
    rw [List.map_singleton, List.intercalate_singleton]
    exact .one (hF h (.head _) hab hr)
  | more h _ _ hs ih =>
    obtain - | ⟨hab, htail⟩ := hR
    next b bs =>
    obtain ⟨b', bs', rfl⟩ : ∃ b' bs', bs = b' :: bs' := by
      cases hs <;> cases htail <;> exact ⟨_, _, rfl⟩
    have hrest := ih htail fun h hb => hF h (.tail _ hb)
    rw [List.map_cons, List.map_cons, List.intercalate_cons_cons, ← List.map_cons, List.append_assoc,
      List.append_assoc]
    exact .more (hF h (.head _) hab (stops_cons.mpr (by decide))) (.none _)
      (.more rfl (.none _)) hrest

theorem PlayerForm.printed {p : RolePlayer} (h : PlayerForm isBlank cs p r) (hr : Stops marks r') :
    PlayerForm isBlank (p.text.toList ++ r') p r' := by
  rw [RolePlayer.toList_text]
  cases h with
  | role hl _ _ hv =>
    dsimp only
    rw [List.append_assoc, List.cons_append, List.append_assoc]
    exact .role (hl.printed (stops_cons.mpr (by decide))) (.none _) (.more rfl (.none _))
      (hv.printed hr)
  | bare hv => exact .bare (hv.printed hr)

theorem RelationForm.printed {ps : List RolePlayer} (h : RelationForm isBlank cs ps r) (r' : List Char) :
    RelationForm isBlank ((playersText ps).toList ++ r') ps r' := by
  obtain ⟨_, hps, _⟩ := h
  rw [toList_playersText, List.cons_append, List.append_assoc]
  have hR : List.Forall₂ (· = ·) ps ps := List.forall₂_eq_eq_eq ▸ rfl
  refine .intro (.none _) (hps.printed (f := fun p => p.text.toList) hR ?_ (stops_cons.mpr (by decide)))
    (.none _)
  rintro cs r r' a _ h - rfl hr
  exact h.printed hr

/-! ## Statements -/

theorem StatementForm.printed {w : WrittenStatement} (h : StatementForm isBlank cs w r) {x : Var}
    (hx : ∀ {r'}, Stops marks r' → VarForm (x.text.toList ++ r') x r') {ps : List Property}
    (hps : Stand w.properties ps) (hrestorable : ∀ p ∈ ps, p.Restorable) (r' : List Char) :
    StatementForm isBlank ((w.statement x ps).text.toList ++ ';' :: r') { w with subject := some x } r' := by
  rw [Statement.toList_text, WrittenStatement.players?_statement hps.isRelation,
    WrittenStatement.others_statement hps.isRelation, List.append_assoc, List.append_assoc]
  cases h with
  | @intro _ r₁ r₂ r₃ r₄ r₅ _ subject players properties _ _ hplayers _ hproperties _ _ hbare =>
  -- each part has its blank before it
  have hlisted : ∃ q, Blanks isBlank (Statement.listed ps ++ ';' :: r') q ∧
      Optionally (Separated isBlank (PropertyForm isBlank)) q properties (';' :: r') := by
    cases hproperties with
    | none _ =>
      cases hps
      exact ⟨_, .none _, .none _⟩
    | some hsep =>
      have hne : ps ≠ [] := by
        rintro rfl
        cases hps
        exact hsep.ne_nil rfl
      unfold Statement.listed
      rw [if_neg (by simpa using hne), List.cons_append]
      refine ⟨_, .more rfl (.none _), .some (hsep.printed (f := fun p => p.text.toList) hps ?_
        (stops_cons.mpr (by decide)))⟩
      rintro cs r r' w p h hp ⟨y, rfl⟩ hr
      exact h.printed (hrestorable _ hp) hr
  obtain ⟨q, hq, hproperties⟩ := hlisted
  have hsubject {r : List Char} (hr : Stops marks r) :
      Optionally VarForm (x.text.toList ++ r) (some x) r := .some (hx hr)
  cases hplayers with
  | none _ =>
    have hstops : Stops marks (Statement.listed ps ++ ';' :: r') := by
      unfold Statement.listed
      split <;> exact stops_cons.mpr (by decide)
    exact .intro (hsubject hstops) hq (.none q) (.none q) hproperties (.none _) (.inl rfl) hbare
  | some hrelation =>
    exact .intro (hsubject stops_blank) (.more rfl (.none _)) (.some (hrelation.printed _)) hq hproperties
      (.none _) (.inl rfl) (.inl rfl)

end Grammar

end GraphInference
