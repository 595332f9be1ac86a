import Mathlib.Data.List.Basic
import GraphInference.Pattern.Reader

/-!
# The grammar of patterns

The derivations of the grammar that patterns and rules are written in. A `Form` relates the text that
begins with a phrase, what the phrase stands for and the text after it; there is one form for each kind of
phrase. Names, digits and comparison signs extend as far as they can. The characters that may stand between
tokens are a parameter.
-/

namespace GraphInference

namespace Grammar

/-- A kind of phrase: the text that begins with one, what it stands for and the text after it. -/
abbrev Form (α : Type) := List Char → α → List Char → Prop

/-! ## Tokens -/

/-- One or more characters of a class, and as many as there are. -/
structure Run (p : Char → Bool) (cs run r : List Char) : Prop where
  split : cs = run ++ r
  nonempty : run ≠ []
  inside : ∀ c ∈ run, p c = true
  ends : ∀ c ∈ r.head?, p c = false

inductive LabelForm : Form Label where
  | intro {cs name r : List Char} (h : Run isLabelChar cs name r) :
    LabelForm cs ⟨String.ofList name⟩ r

inductive VarForm : Form Var where
  | intro {cs name r : List Char} (h : Run isVarChar cs name r) :
    VarForm ('$' :: cs) (Var.ofName (String.ofList name)) r

/-- Characters between two quotes of one kind, that quote not among them. -/
inductive StringForm : Form String where
  | intro {quote : Char} {s r : List Char} (hquote : quote ∈ ['"', '\'']) (hs : quote ∉ s) :
    StringForm (quote :: (s ++ quote :: r)) (String.ofList s) r

/-- A minus, or no sign. -/
inductive SignForm : Form Bool where
  | minus {r : List Char} : SignForm ('-' :: r) true r
  | none {r : List Char} : SignForm r false r

/-- A number is a double if its digits go on after a point, and otherwise an integer of 64 bits. -/
inductive NumberForm : Form Value where
  | double {cs r₁ r₂ r whole fraction : List Char} {negative : Bool} (hsign : SignForm cs negative r₁)
    (hwhole : Run Char.isDigit r₁ whole ('.' :: r₂)) (hfraction : Run Char.isDigit r₂ fraction r) :
    NumberForm cs (.double (.ofMagnitude negative (Double.Decimal.mk whole fraction 0).magnitude)) r
  | long {cs r₁ r whole : List Char} {negative : Bool} {n : Int64} (hsign : SignForm cs negative r₁)
    (hwhole : Run Char.isDigit r₁ whole r) (hpoint : ∀ c r₂, r = '.' :: c :: r₂ → c.isDigit = false)
    (hn : n.toInt = if negative then -(Double.digitsValue whole : Int) else Double.digitsValue whole) :
    NumberForm cs (.long n) r

inductive LiteralForm : Form Value where
  | string {cs r : List Char} {s : String} (h : StringForm cs s r) : LiteralForm cs (.string s) r
  | number {cs r : List Char} {v : Value} (h : NumberForm cs v r) : LiteralForm cs v r
  | boolean (b : Bool) {r : List Char} :
    LiteralForm ((Value.boolean b).text.toList ++ r) (.boolean b) r

/-- The sign of a comparison; what could be the start of a longer sign is not the shorter one. -/
inductive ComparisonForm : Form Comparison where
  | intro (op : Comparison) {r : List Char} (hlong : op = .gt ∨ op = .lt → r.head? ≠ some '=') :
    ComparisonForm (op.symbol.toList ++ r) op r

/-! ## Layout -/

section Phrases

variable (blank : Char → Bool)

/-- Any number of blanks. -/
inductive Blanks : List Char → List Char → Prop where
  | none (r : List Char) : Blanks r r
  | more {c : Char} {cs r : List Char} (hc : blank c = true) (h : Blanks cs r) : Blanks (c :: cs) r

/-- One or more blanks. -/
inductive SomeBlanks : List Char → List Char → Prop where
  | intro {c : Char} {cs r : List Char} (hc : blank c = true) (h : Blanks blank cs r) :
    SomeBlanks (c :: cs) r

/-- One or more phrases with commas between them. -/
inductive Separated {α : Type} (F : Form α) : Form (List α) where
  | one {cs r : List Char} {a : α} (h : F cs a r) : Separated F cs [a] r
  | more {cs r₁ r₂ r₃ r : List Char} {a : α} {as : List α} (h : F cs a r₁)
    (hb : Blanks blank r₁ (',' :: r₂)) (hb' : Blanks blank r₂ r₃) (hs : Separated F r₃ as r) :
    Separated F cs (a :: as) r

/-- A phrase that may be left out. -/
inductive Optionally {α : Type} (F : Form α) : Form (Option α) where
  | none (r : List Char) : Optionally F r none r
  | some {cs r : List Char} {a : α} (h : F cs a r) : Optionally F cs (some a) r

/-! ## Properties -/

inductive ConstraintForm : Form Constraint where
  | bare {cs r : List Char} {v : Value} (hv : LiteralForm cs v r) : ConstraintForm cs (.eq v) r
  | compared {cs r₁ r₂ r : List Char} {op : Comparison} {v : Value} (hop : ComparisonForm cs op r₁)
    (hb : Blanks blank r₁ r₂) (hv : LiteralForm r₂ v r) : ConstraintForm cs ⟨op, v⟩ r

inductive TypeRefForm : Form TypeRef where
  | var {cs r : List Char} {v : Var} (h : VarForm cs v r) : TypeRefForm cs (.var v) r
  | label {cs r : List Char} {l : Label} (h : LabelForm cs l r) : TypeRefForm cs (.label l) r

inductive OwnedForm : Form WrittenOwned where
  | var {cs r : List Char} {v : Var} (h : VarForm cs v r) : OwnedForm cs (.var v) r
  | value {cs r : List Char} {p : Constraint} (h : ConstraintForm blank cs p r) :
    OwnedForm cs (.value p) r

inductive PropertyForm : Form WrittenProperty where
  | isa {r₁ r₂ r : List Char} {t : TypeRef} (hb : SomeBlanks blank r₁ r₂) (ht : TypeRefForm r₂ t r) :
    PropertyForm ('i' :: 's' :: 'a' :: r₁) (.isa t) r
  | has {r₁ r₂ r₃ r₄ r : List Char} {l : Label} {o : WrittenOwned} (hb : SomeBlanks blank r₁ r₂)
    (hl : LabelForm r₂ l r₃) (hb' : SomeBlanks blank r₃ r₄) (ho : OwnedForm blank r₄ o r) :
    PropertyForm ('h' :: 'a' :: 's' :: r₁) (.has l o) r
  | identity {r₁ r₂ r : List Char} {s : String} (hb : SomeBlanks blank r₁ r₂)
    (hs : StringForm r₂ s r) : PropertyForm ('i' :: 'd' :: r₁) (.identity ⟨s⟩) r
  | value {r₁ r₂ r : List Char} {p : Constraint} (hb : SomeBlanks blank r₁ r₂)
    (hp : ConstraintForm blank r₂ p r) : PropertyForm ('v' :: 'a' :: 'l' :: r₁) (.value p) r

/-! ## Relations -/

inductive PlayerForm : Form RolePlayer where
  | role {cs r₁ r₂ r₃ r : List Char} {l : Label} {v : Var} (hl : LabelForm cs l r₁)
    (hb : Blanks blank r₁ (':' :: r₂)) (hb' : Blanks blank r₂ r₃) (hv : VarForm r₃ v r) :
    PlayerForm cs ⟨some l, v⟩ r
  | bare {cs r : List Char} {v : Var} (hv : VarForm cs v r) : PlayerForm cs ⟨none, v⟩ r

inductive RelationForm : Form (List RolePlayer) where
  | intro {r₁ r₂ r₃ r : List Char} {ps : List RolePlayer} (hb : Blanks blank r₁ r₂)
    (hps : Separated blank (PlayerForm blank) r₂ ps r₃) (hb' : Blanks blank r₃ (')' :: r)) :
    RelationForm ('(' :: r₁) ps r

/-! ## Statements -/

/-- A statement starts with a variable or a relation and is no bare variable. -/
inductive StatementForm : Form WrittenStatement where
  | intro {cs r₁ r₂ r₃ r₄ r₅ r : List Char} {subject : Option Var} {players : Option (List RolePlayer)}
    {properties : Option (List WrittenProperty)} (hsubject : Optionally VarForm cs subject r₁)
    (hb₁ : Blanks blank r₁ r₂) (hplayers : Optionally (RelationForm blank) r₂ players r₃)
    (hb₂ : Blanks blank r₃ r₄)
    (hproperties : Optionally (Separated blank (PropertyForm blank)) r₄ properties r₅)
    (hb₃ : Blanks blank r₅ (';' :: r)) (hstart : subject.isSome ∨ players.isSome)
    (hbare : players.isSome ∨ properties.isSome) :
    StatementForm cs ⟨subject, players, properties.getD []⟩ r

inductive StatementsForm : Form (List WrittenStatement) where
  | one {cs r₁ r : List Char} {s : WrittenStatement} (hb : Blanks blank cs r₁)
    (h : StatementForm blank r₁ s r) : StatementsForm cs [s] r
  | more {cs r₁ r₂ r : List Char} {s : WrittenStatement} {ss : List WrittenStatement}
    (hb : Blanks blank cs r₁) (h : StatementForm blank r₁ s r₂) (hs : StatementsForm r₂ ss r) :
    StatementsForm cs (s :: ss) r

inductive PatternForm : Form (List WrittenStatement) where
  | intro {cs r₁ r : List Char} {written : List WrittenStatement}
    (h : StatementsForm blank cs written r₁) (hb : Blanks blank r₁ r) : PatternForm cs written r

/-- A pattern, an arrow and a pattern. -/
inductive RuleForm : Form (List WrittenStatement × List WrittenStatement) where
  | intro {cs r₁ r : List Char} {body head : List WrittenStatement}
    (hbody : PatternForm blank cs body ('=' :: '>' :: r₁)) (hhead : PatternForm blank r₁ head r) :
    RuleForm cs (body, head) r

end Phrases

end Grammar

end GraphInference
