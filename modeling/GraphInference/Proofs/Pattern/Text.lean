import GraphInference.Pattern
import GraphInference.Proofs.Text.Beginnings
import GraphInference.Proofs.Value.Literal

/-!
# What the text of a pattern tells

Two patterns of one text are alike (`Conjunction.alike_of_text_eq`): they differ at most in where the
relation stands among the properties of a statement, in the variable of an ownership that prints its
predicate instead, and in literals that pass the same values. This holds of patterns that are `Legible`:
names have none of the marks that end a name, quoted texts no quote, the first letter of a variable tells
its status, and a statement has one relation.
-/

namespace GraphInference

open Text

/-! ## Legible patterns -/

namespace Text

/-- A character of names, none of those that stand around them. -/
def isNameChar (c : Char) : Bool :=
  c ∉ [' ', ',', ';', ':', '(', ')', '"', '$']

theorem isNameChar_of_isLiteralChar {c : Char} (h : isLiteralChar c = true) : isNameChar c = true := by
  unfold isNameChar
  rw [decide_eq_true_eq]
  intro hc
  simp only [List.mem_cons, List.not_mem_nil, or_false] at hc
  rcases hc with rfl | rfl | rfl | rfl | rfl | rfl | rfl | rfl <;> exact absurd h (by decide)

/-- A name without the marks that end one. -/
def IsName (s : String) : Prop :=
  s ≠ "" ∧ s.toList.all isNameChar = true

instance (s : String) : Decidable (IsName s) :=
  inferInstanceAs (Decidable (s ≠ "" ∧ _))

end Text

/-- A variable has a name of which the first letter tells the status. -/
def Var.Legible (v : Var) : Prop :=
  IsName v.name ∧ v.userDefined = decide (v.name.toList.head? ≠ some '_')

instance (v : Var) : Decidable v.Legible :=
  inferInstanceAs (Decidable (IsName v.name ∧ _))

def TypeRef.Legible : TypeRef → Prop
  | .label l => IsName l.text
  | .var v => v.Legible

def RolePlayer.Legible (p : RolePlayer) : Prop :=
  (∀ role ∈ p.role, IsName role.text) ∧ p.player.Legible

def Property.Legible : Property → Prop
  | .isa type => type.Legible
  | .relation players => ∀ p ∈ players, p.Legible
  | .has owned _ (some predicate) => IsName owned.text ∧ predicate.value.Legible
  | .has owned v none => IsName owned.text ∧ v.Legible
  | .value predicate => predicate.value.Legible
  | .identity id => '"' ∉ id.text.toList

/-- The properties besides the relation. -/
def Statement.others (s : Statement) : List Property :=
  s.properties.filter fun p => !p.isRelation

structure Statement.Legible (s : Statement) : Prop where
  subject : s.subject.Legible
  properties : ∀ p ∈ s.properties, p.Legible
  /-- A relation is not given in two ways. -/
  players : ∀ p ∈ s.properties, ∀ ps ∈ p.players?, s.players? = some ps

/-! ## Patterns that print alike -/

/-- The predicates pass the same values. -/
def Constraint.Alike (p q : Constraint) : Prop :=
  ∀ actual, p.test actual = q.test actual

/-- The properties differ at most in what is not printed. -/
inductive Property.Alike : Property → Property → Prop where
  | refl (p : Property) : Alike p p
  | has (owned : Label) (v w : Var) {p q : Constraint} (h : p.Alike q) :
    Alike (.has owned v (some p)) (.has owned w (some q))
  | value {p q : Constraint} (h : p.Alike q) : Alike (.value p) (.value q)

structure Statement.Alike (s s' : Statement) : Prop where
  subject : s.subject = s'.subject
  players : s.players? = s'.players?
  others : List.Forall₂ Property.Alike s.others s'.others

/-! ## Names and literals -/

section Tokens

variable {ends : List Char}

theorem Text.IsName.tells {s t : String} (hs : IsName s) (ht : IsName t)
    (hends : ends.all (!isNameChar ·) = true) : Tells ends s.toList t.toList (s = t) :=
  (Tells.run hends (List.all_eq_true.mp hs.2) (List.all_eq_true.mp ht.2)).imp String.toList_inj.mp

theorem Text.IsName.exists_head {s : String} (hs : IsName s) :
    ∃ c r, s.toList = c :: r ∧ isNameChar c = true := by
  cases hlist : s.toList with
  | nil => exact absurd (String.toList_eq_nil_iff.mp hlist) hs.1
  | cons c r => exact ⟨c, r, rfl, List.all_eq_true.mp hs.2 c (by rw [hlist]; exact .head _)⟩

theorem Var.Legible.toList_text {v : Var} (hv : v.Legible) : v.text.toList = '$' :: v.name.toList := by
  unfold Var.text Var.isEmpty
  rw [if_neg (by simpa using hv.1.1), String.toList_append]
  rfl

theorem Var.Legible.ext {v w : Var} (hv : v.Legible) (hw : w.Legible) (h : v.name = w.name) : v = w := by
  have hstatus : v.userDefined = w.userDefined := by rw [hv.2, hw.2, h]
  cases v
  cases w
  exact Var.mk.injEq .. ▸ ⟨h, hstatus⟩

theorem Var.Legible.tells {v w : Var} (hv : v.Legible) (hw : w.Legible)
    (hends : ends.all (!isNameChar ·) = true) : Tells ends v.text.toList w.text.toList (v = w) := by
  rw [hv.toList_text, hw.toList_text]
  exact ((hv.1.tells hw.1 hends).prepend ['$']).imp (hv.ext hw ·)

theorem TypeRef.Legible.tells {t u : TypeRef} (ht : t.Legible) (hu : u.Legible)
    (hends : ends.all (!isNameChar ·) = true) (hmark : '$' ∉ ends) :
    Tells ends t.text.toList u.text.toList (t = u) := by
  have hmixed {v : Var} {l : Label} (hv : v.Legible) (hl : IsName l.text) :
      Tells ends v.text.toList l.text.toList (t = u) := by
    obtain ⟨c, r, hc, hname⟩ := hl.exists_head
    rw [hv.toList_text, hc]
    refine Tells.of_head hmark fun d hd => ?_
    rintro rfl
    obtain rfl := Option.some.inj hd
    exact absurd hname (by decide)
  cases t with
  | label l =>
    cases u with
    | label m => exact (Text.IsName.tells ht hu hends).imp fun h => congrArg (TypeRef.label ⟨·⟩) h
    | var v => exact (hmixed hu ht).symm
  | var v =>
    cases u with
    | label m => exact hmixed ht hu
    | var w => exact (Var.Legible.tells ht hu hends).imp (congrArg TypeRef.var)

theorem Value.Legible.tells {v w : Value} (hv : v.Legible) (hw : w.Legible)
    (hends : ends.all (!isNameChar ·) = true) (hquote : '"' ∉ ends) :
    Tells ends v.literal.toList w.literal.toList (v.literal = w.literal) := by
  have hmixed {s : String} {w : Value} {P : Prop} (hw : ∀ s, w ≠ .string s) :
      Tells ends (Value.string s).literal.toList w.literal.toList P := by
    rw [Value.toList_literal_string]
    refine Tells.of_head hquote fun c hc => ?_
    rintro rfl
    exact absurd (Value.isLiteralChar_of_mem_literal hw _ (List.mem_of_mem_head? hc)) (by decide)
  by_cases hvs : ∃ s, v = .string s <;> by_cases hws : ∃ s, w = .string s
  · obtain ⟨s, rfl⟩ := hvs
    obtain ⟨t, rfl⟩ := hws
    have hread (s : String) (hs : (Value.string s).Legible) : ∀ c ∈ s.toList, decide (c ≠ '"') = true :=
      fun c hc => decide_eq_true fun h => hs (h ▸ hc)
    have hinner : Tells ['"'] s.toList t.toList (s.toList = t.toList) :=
      Tells.run (by decide) (hread s hv) (hread t hw)
    rw [Value.toList_literal_string, Value.toList_literal_string]
    exact (hinner.last.prepend ['"']).imp fun h => by rw [String.toList_inj.mp h]
  · obtain ⟨s, rfl⟩ := hvs
    exact hmixed (not_exists.mp hws)
  · obtain ⟨t, rfl⟩ := hws
    exact (hmixed (not_exists.mp hvs)).symm
  · refine (Tells.run hends (fun c hc => ?_) fun c hc => ?_).imp String.toList_inj.mp
    · exact isNameChar_of_isLiteralChar (Value.isLiteralChar_of_mem_literal (not_exists.mp hvs) c hc)
    · exact isNameChar_of_isLiteralChar (Value.isLiteralChar_of_mem_literal (not_exists.mp hws) c hc)

theorem Constraint.toList_text (p : Constraint) : p.text.toList =
    if p.comparison = .eq then p.value.literal.toList
    else p.comparison.symbol.toList ++ ' ' :: p.value.literal.toList := by
  unfold Constraint.text
  split
  · next h => rw [if_pos h]
  · next h =>
    rw [if_neg h, String.toList_append, String.toList_append, List.append_assoc]
    rfl

theorem Comparison.isNameChar_of_mem_symbol (op : Comparison) :
    ∀ c ∈ op.symbol.toList, isNameChar c = true := by
  cases op <;> exact List.all_eq_true.mp (by decide)

theorem Comparison.symbol_injective : Function.Injective Comparison.symbol := fun op op' h =>
  Option.some.inj ((ofSymbol?_symbol op).symm.trans ((congrArg ofSymbol? h).trans (ofSymbol?_symbol op')))

theorem Constraint.tells {p q : Constraint} (hp : p.value.Legible) (hq : q.value.Legible)
    (hends : ends.all (!isNameChar ·) = true) (hquote : '"' ∉ ends) (hblank : ' ' ∉ ends) :
    Tells ends p.text.toList q.text.toList (p.Alike q) := by
  have hvalue := hp.tells hq hends hquote
  have hblanks : (' ' :: ends).all (!isNameChar ·) = true := hends
  have hmixed {v : Value} {op : Comparison} {r : List Char} {P : Prop} (hv : v.Legible) :
      Tells ends v.literal.toList (op.symbol.toList ++ ' ' :: r) P := by
    by_cases hs : ∃ s, v = .string s
    · obtain ⟨s, rfl⟩ := hs
      rw [Value.toList_literal_string]
      refine Tells.of_head hquote ?_
      cases op <;> simp [Comparison.symbol]
    · exact Tells.of_longer hblank (Tells.run hblanks (fun c hc => isNameChar_of_isLiteralChar
        (Value.isLiteralChar_of_mem_literal (not_exists.mp hs) c hc)) op.isNameChar_of_mem_symbol)
  have hsame (hop : p.comparison = q.comparison) (h : p.value.literal = q.value.literal) : p.Alike q := by
    intro actual
    unfold Constraint.test
    rw [hop]
    exact Comparison.test_eq_of_literal_eq hp hq h _ actual
  rw [p.toList_text, q.toList_text]
  split <;> split
  · next hop hop' => exact hvalue.imp (hsame (hop.trans hop'.symm))
  · exact hmixed hp
  · exact (hmixed hq).symm
  · have hsymbol : Tells [' '] p.comparison.symbol.toList q.comparison.symbol.toList
        (p.comparison = q.comparison) :=
      (Tells.run (by decide) p.comparison.isNameChar_of_mem_symbol
        q.comparison.isNameChar_of_mem_symbol).imp fun h =>
          Comparison.symbol_injective (String.toList_inj.mp h)
    exact (hsymbol.bind fun _ => hvalue).imp fun h => hsame h.1 h.2

/-- A predicate does not begin as a variable does. -/
theorem Constraint.head?_text_ne (p : Constraint) : ∀ c ∈ p.text.toList.head?, c ≠ '$' := by
  have hliteral {v : Value} : ∀ c ∈ v.literal.toList.head?, c ≠ '$' := by
    intro c hc
    by_cases hs : ∃ s, v = .string s
    · obtain ⟨s, rfl⟩ := hs
      rw [Value.toList_literal_string] at hc
      obtain rfl := Option.some.inj hc
      decide
    · have hchar := Value.isLiteralChar_of_mem_literal (not_exists.mp hs) c (List.mem_of_mem_head? hc)
      rintro rfl
      exact absurd hchar (by decide)
  rw [p.toList_text]
  split
  · exact hliteral
  · cases p.comparison <;> simp [Comparison.symbol]

end Tokens

/-! ## Properties -/

namespace Property

/-- The word that a property besides the relation begins with. -/
def keyword : Property → List Char
  | isa _ => ['i', 's', 'a']
  | relation _ => []
  | has .. => ['h', 'a', 's']
  | value _ => ['v', 'a', 'l']
  | identity _ => ['i', 'd']

/-- What stands after the keyword. -/
def argument : Property → List Char
  | isa t => t.text.toList
  | relation ps => (playersText ps).toList
  | has owned v predicate => owned.text.toList ++ ' ' :: (predicate.elim v.text Constraint.text).toList
  | value p => p.text.toList
  | identity id => '"' :: (id.text.toList ++ ['"'])

theorem toList_text {p : Property} (hp : p.isRelation = false) :
    p.text.toList = p.keyword ++ ' ' :: p.argument := by
  cases p with
  | relation ps => cases hp
  | isa t => exact String.toList_append
  | value p => exact String.toList_append
  | has owned v predicate =>
    cases predicate <;> simp only [text, String.toList_append, List.append_assoc] <;> rfl
  | identity id =>
    simp only [text, String.toList_append, List.append_assoc]
    rfl

/-- A property besides the relation begins with the first letter of its keyword. -/
theorem exists_head {p : Property} (hp : p.isRelation = false) :
    ∃ c r, p.text.toList = c :: r ∧ c ∈ ['i', 'h', 'v'] := by
  rw [toList_text hp]
  cases p with
  | relation ps => cases hp
  | _ => exact ⟨_, _, rfl, by decide⟩

theorem isNameChar_of_mem_keyword (p : Property) : ∀ c ∈ p.keyword, isNameChar c = true := by
  cases p <;> exact List.all_eq_true.mp rfl

theorem tells {p q : Property} (hp : p.Legible) (hq : q.Legible) (hpr : p.isRelation = false)
    (hqr : q.isRelation = false) : Tells [',', ';'] p.text.toList q.text.toList (p.Alike q) := by
  have hends : [',', ';'].all (!isNameChar ·) = true := rfl
  rw [toList_text hpr, toList_text hqr]
  refine (Tells.bind (Tells.run (by decide) p.isNameChar_of_mem_keyword q.isNameChar_of_mem_keyword)
    fun hkey => ?_).imp And.right
  have hmixed {v : Var} {q : Constraint} {P : Prop} (hv : v.Legible) :
      Tells [',', ';'] v.text.toList q.text.toList P := by
    rw [hv.toList_text]
    exact Tells.of_head (by decide) q.head?_text_ne
  cases p with
  | relation ps => cases hpr
  | isa t =>
    cases q with
    | isa u =>
      refine (TypeRef.Legible.tells hp hq hends (by decide)).imp ?_
      rintro rfl
      exact .refl _
    | _ => simp [keyword] at hkey
  | value p =>
    cases q with
    | value q => exact (Constraint.tells hp hq hends (by decide) (by decide)).imp .value
    | _ => simp [keyword] at hkey
  | identity i =>
    cases q with
    | identity j =>
      have hread (i : ConceptId) (hi : '"' ∉ i.text.toList) :
          ∀ c ∈ i.text.toList, decide (c ≠ '"') = true := fun c hc => decide_eq_true fun h => hi (h ▸ hc)
      refine ((Tells.run (by decide) (hread i hp) (hread j hq)).last.prepend ['"']).imp fun h => ?_
      obtain rfl : i = j := congrArg ConceptId.mk (String.toList_inj.mp h)
      exact .refl _
    | _ => simp [keyword] at hkey
  | has owned v pr =>
    cases q with
    | has owned' w qr =>
      have howned (h : IsName owned.text) (h' : IsName owned'.text) :
          Tells [' '] owned.text.toList owned'.text.toList (owned = owned') :=
        (h.tells h' (by decide)).imp (congrArg Label.mk)
      cases pr with
      | none =>
        cases qr with
        | none =>
          refine ((howned hp.1 hq.1).bind fun _ => hp.2.tells hq.2 hends).imp ?_
          rintro ⟨rfl, rfl⟩
          exact .refl _
        | some q =>
          exact ((howned hp.1 hq.1).bind fun _ => hmixed hp.2 (P := False)).imp fun h => h.2.elim
      | some p =>
        cases qr with
        | none =>
          exact ((howned hp.1 hq.1).bind fun _ => (hmixed hq.2 (P := False)).symm).imp fun h => h.2.elim
        | some q =>
          refine ((howned hp.1 hq.1).bind fun _ =>
            Constraint.tells hp.2 hq.2 hends (by decide) (by decide)).imp ?_
          rintro ⟨rfl, h⟩
          exact .has owned v w h
    | _ => simp [keyword] at hkey

end Property

/-! ## Statements -/

theorem RolePlayer.toList_text (p : RolePlayer) : p.text.toList = match p.role with
    | some role => role.text.toList ++ ':' :: ([' '] ++ p.player.text.toList)
    | none => p.player.text.toList := by
  unfold RolePlayer.text
  cases p.role with
  | none => rfl
  | some role =>
    simp only [String.toList_append, List.append_assoc]
    rfl

theorem RolePlayer.Legible.tells {p q : RolePlayer} (hp : p.Legible) (hq : q.Legible) :
    Tells [',', ')'] p.text.toList q.text.toList (p = q) := by
  have hplayer : Tells [',', ')'] p.player.text.toList q.player.text.toList (p.player = q.player) :=
    hp.2.tells hq.2 (by decide)
  have hmixed {v : Var} {role : Label} {r : List Char} {P : Prop} (hv : v.Legible)
      (hrole : IsName role.text) : Tells [',', ')'] v.text.toList (role.text.toList ++ r) P := by
    obtain ⟨c, s, hc, hname⟩ := hrole.exists_head
    rw [hv.toList_text, hc]
    refine Tells.of_head (by decide) fun d hd => ?_
    obtain rfl := Option.some.inj hd
    rintro rfl
    exact absurd hname (by decide)
  rw [p.toList_text, q.toList_text]
  obtain ⟨role | role, v⟩ := p <;> obtain ⟨role' | role', w⟩ := q
  · exact hplayer.imp (congrArg _)
  · exact hmixed hp.2 (hq.1 _ rfl)
  · exact (hmixed hq.2 (hp.1 _ rfl)).symm
  · have hroles : Tells [':'] role.text.toList role'.text.toList (role.text = role'.text) :=
      (hp.1 _ rfl).tells (hq.1 _ rfl) (by decide)
    refine (hroles.bind fun _ => hplayer.prepend [' ']).imp ?_
    rintro ⟨hrole, rfl⟩
    obtain rfl : role = role' := congrArg Label.mk hrole
    rfl

theorem RolePlayer.Legible.exists_head {p : RolePlayer} (hp : p.Legible) :
    ∃ c r, p.text.toList = c :: r ∧ c ∉ [')'] := by
  obtain ⟨role | role, v⟩ := p
  · exact ⟨'$', _, hp.2.toList_text, by decide⟩
  · obtain ⟨c, r, hc, hname⟩ := (hp.1 role rfl).exists_head
    refine ⟨c, r ++ ':' :: ([' '] ++ v.text.toList), ?_, ?_⟩
    · rw [RolePlayer.toList_text]
      dsimp only
      rw [hc, List.cons_append]
    intro hmem
    obtain rfl := List.mem_singleton.mp hmem
    exact absurd hname (by decide)

theorem toList_playersText (ps : List RolePlayer) : (playersText ps).toList =
    '(' :: ([',', ' '].intercalate (ps.map (·.text.toList)) ++ [')']) := by
  unfold playersText
  rw [String.toList_append, String.toList_append, String.toList_intercalate, List.map_map]
  rfl

theorem tells_players {ps qs : List RolePlayer} {ends : List Char} (hps : ∀ p ∈ ps, p.Legible)
    (hqs : ∀ q ∈ qs, q.Legible) : Tells ends (playersText ps).toList (playersText qs).toList (ps = qs) := by
  rw [toList_playersText, toList_playersText]
  refine ((Tells.intercalate (by decide) ?_ fun p hp q hq => (hps p hp).tells (hqs q hq)).last.prepend
    ['(']).imp fun h => by rwa [List.forall₂_eq_eq_eq] at h
  rintro p (hp | hp)
  · exact (hps p hp).exists_head
  · exact (hqs p hp).exists_head

namespace Statement

/-- The properties besides the relation as they are printed, after a blank. -/
def listed (ps : List Property) : List Char :=
  if ps.isEmpty then [] else ' ' :: [',', ' '].intercalate (ps.map (·.text.toList))

theorem toList_text (s : Statement) : s.text.toList = s.subject.text.toList ++
    ((s.players?.elim [] fun ps => ' ' :: (playersText ps).toList) ++ listed s.others) := by
  unfold text listed others
  dsimp only
  rw [String.toList_append, String.toList_append, List.append_assoc]
  congr 2
  · cases s.players? with
    | none => rfl
    | some ps => exact String.toList_append
  · rw [List.isEmpty_map]
    split
    · rfl
    · rw [String.toList_append, String.toList_intercalate, List.map_map]
      rfl

theorem head?_listed (ps : List Property) : ∀ c ∈ (listed ps).head?, c = ' ' := by
  unfold listed
  split <;> simp

theorem tells_listed {ps qs : List Property} (hps : ∀ p ∈ ps, p.Legible ∧ p.isRelation = false)
    (hqs : ∀ q ∈ qs, q.Legible ∧ q.isRelation = false) :
    Tells [';'] (listed ps) (listed qs) (List.Forall₂ Property.Alike ps qs) := by
  have hitems : Tells [';'] ([',', ' '].intercalate (ps.map (·.text.toList)))
      ([',', ' '].intercalate (qs.map (·.text.toList))) (List.Forall₂ Property.Alike ps qs) := by
    refine Tells.intercalate (by decide) (fun p hp => ?_) fun p hp q hq =>
      Property.tells (hps p hp).1 (hqs q hq).1 (hps p hp).2 (hqs q hq).2
    obtain ⟨c, r, hc, hmem⟩ := Property.exists_head
      (hp.elim (fun h => (hps p h).2) fun h => (hqs p h).2)
    refine ⟨c, r, hc, ?_⟩
    rintro h
    obtain rfl := List.mem_singleton.mp h
    exact absurd hmem (by decide)
  unfold listed
  cases ps with
  | nil =>
    cases qs with
    | nil => exact hitems
    | cons q qs => exact (Tells.of_head (by decide) (by simp)).symm
  | cons p ps =>
    cases qs with
    | nil => exact Tells.of_head (by decide) (by simp)
    | cons q qs => exact hitems.prepend [' ']

/-- A relation is not taken for the other properties. -/
theorem tells_of_players {ps : List RolePlayer} {qs : List Property} {r : List Char} {P : Prop}
    (hqs : ∀ q ∈ qs, q.isRelation = false) :
    Tells [';'] (' ' :: (playersText ps).toList ++ r) (listed qs) P := by
  cases qs with
  | nil => exact Tells.of_head (by decide) (by simp [listed])
  | cons q qs =>
    obtain ⟨c, s, hc, hmem⟩ := Property.exists_head (hqs q (.head _))
    refine Tells.prepend [' '] (x := (playersText ps).toList ++ r) ?_
    rw [toList_playersText]
    refine Tells.of_head (by decide) fun d hd => ?_
    have hhead : ([',', ' '].intercalate ((q :: qs).map (·.text.toList))).head? = some c := by
      cases qs <;> simp [hc]
    obtain rfl := Option.some.inj (hhead.symm.trans hd)
    rintro rfl
    exact absurd hmem (by decide)

/-- Statements of one text are alike. -/
theorem Legible.tells {s s' : Statement} (hs : s.Legible) (hs' : s'.Legible) :
    Tells [';'] s.text.toList s'.text.toList (s.Alike s') := by
  have hothers {s : Statement} (hs : s.Legible) : ∀ p ∈ s.others, p.Legible ∧ p.isRelation = false := by
    intro p hp
    obtain ⟨hmem, hp⟩ := List.mem_filter.mp hp
    exact ⟨hs.properties p hmem, Bool.not_eq_true' _ ▸ hp⟩
  have hplayers {s : Statement} (hs : s.Legible) {ps : List RolePlayer} (h : s.players? = some ps) :
      ∀ p ∈ ps, p.Legible := by
    obtain ⟨p, hp, hps⟩ := List.exists_of_findSome?_eq_some h
    cases p with
    | relation qs => exact Option.some.inj hps ▸ hs.properties _ hp
    | _ => cases hps
  have hlisted := tells_listed (hothers hs) (hothers hs')
  rw [toList_text, toList_text]
  have htail : Tells [';']
      ((s.players?.elim [] fun ps => ' ' :: (playersText ps).toList) ++ listed s.others)
      ((s'.players?.elim [] fun ps => ' ' :: (playersText ps).toList) ++ listed s'.others)
      (s.players? = s'.players? ∧ List.Forall₂ Property.Alike s.others s'.others) := by
    cases hps : s.players? with
    | none =>
      cases hqs : s'.players? with
      | none => exact hlisted.imp fun h => ⟨rfl, h⟩
      | some qs => exact (tells_of_players fun p hp => (hothers hs p hp).2).symm
    | some ps =>
      cases hqs : s'.players? with
      | none => exact tells_of_players fun p hp => (hothers hs' p hp).2
      | some qs =>
        have hsome : Tells [' ', ';'] (playersText ps).toList (playersText qs).toList (ps = qs) :=
          tells_players (hplayers hs hps) (hplayers hs' hqs)
        exact ((hsome.prepend [' ']).append (head?_listed _) (head?_listed _) hlisted).imp
          (And.imp_left (congrArg some))
  have hblank (s : Statement) : ∀ c ∈ ((s.players?.elim [] fun ps => ' ' :: (playersText ps).toList) ++
      listed s.others).head?, c = ' ' := by
    cases s.players? with
    | none => exact head?_listed s.others
    | some ps => exact fun c hc => (Option.some.inj hc).symm
  have hsubject : Tells [' ', ';'] s.subject.text.toList s'.subject.text.toList (s.subject = s'.subject) :=
    hs.subject.tells hs'.subject (by decide)
  exact (hsubject.append (hblank s) (hblank s') htail).imp fun h => ⟨h.1, h.2.1, h.2.2⟩

end Statement

/-! ## Conjunctions -/

theorem Conjunction.toList_text (c : Conjunction) :
    c.text.toList = [' '].intercalate (c.statements.map fun s => s.text.toList ++ [';']) := by
  unfold Conjunction.text
  rw [String.toList_intercalate, List.map_map]
  congr 1
  exact List.map_congr_left fun s _ => String.toList_append

/-- Patterns of one text are alike, statement by statement. -/
theorem Conjunction.alike_of_text_eq {c c' : Conjunction} (hc : ∀ s ∈ c.statements, s.Legible)
    (hc' : ∀ s ∈ c'.statements, s.Legible) (h : c.text = c'.text) :
    List.Forall₂ Statement.Alike c.statements c'.statements := by
  have hall : Tells [] ([' '].intercalate (c.statements.map fun s => s.text.toList ++ [';']))
      ([' '].intercalate (c'.statements.map fun s => s.text.toList ++ [';']))
      (List.Forall₂ Statement.Alike c.statements c'.statements) := by
    refine Tells.intercalate (by decide) (fun s hs => ?_) fun s hs s' hs' =>
      ((hc s hs).tells (hc' s' hs')).last
    have hlegible := hs.elim (hc s) (hc' s)
    rw [Statement.toList_text, hlegible.subject.toList_text]
    exact ⟨'$', _, rfl, List.not_mem_nil⟩
  have htext := congrArg String.toList h
  rw [c.toList_text, c'.toList_text] at htext
  have hend : Stops [] [] := fun _ h => nomatch h
  exact (hall hend hend (by rw [htext])).1

end GraphInference
