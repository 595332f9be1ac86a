import GraphInference.Proofs.Traversal.Totality

/-!
# What fragment sets say

Fragment sets have the variables of a pattern, and variables that were generated for them. What they
convey of the pattern's variables alone is a property of the concepts that these stand for: it follows
from the sets (`Conveys.sound`), and an assignment that has it can be extended to the generated
variables such that the sets hold, provided that the pattern has none of these (`Conveys.complete`).
Sets say what they convey if the generated variables stand for no choice of their own. The supply keeps
the generated variables of different sets apart, so that sets convey together what each conveys.
-/

namespace GraphInference

/-! ## Generated variables -/

namespace Var

/-- The number that hexadecimal digits stand for. -/
def ofHex (digits : List Char) : Nat :=
  digits.foldl (fun n c => 16 * n + (if c.isDigit then c.toNat - 48 else c.toNat - 87)) 0

theorem ofHex_append_digitChar {digits : List Char} {d : Nat} (hd : d < 16) :
    ofHex (digits ++ [Nat.digitChar d]) = 16 * ofHex digits + d := by
  have hdigit : (if (Nat.digitChar d).isDigit then (Nat.digitChar d).toNat - 48
      else (Nat.digitChar d).toNat - 87) = d := by
    revert d
    decide
  rw [ofHex, List.foldl_append, List.foldl_cons, List.foldl_nil, hdigit]
  rfl

theorem ofHex_toDigits (k : Nat) : ofHex (Nat.toDigits 16 k) = k := by
  induction k using Nat.strong_induction_on with
  | _ k ih =>
    by_cases hk : k < 16
    · rw [Nat.toDigits_of_lt_base hk]
      have hdigit := @ofHex_append_digitChar [] k hk
      simpa [ofHex] using hdigit
    · rw [Nat.toDigits_of_base_le (by decide) (Nat.not_lt.mp hk),
        ofHex_append_digitChar (Nat.mod_lt k (by decide)), ih (k / 16) (by omega)]
      omega

theorem ofHex_replicate_zero (n : Nat) (digits : List Char) :
    ofHex (List.replicate n '0' ++ digits) = ofHex digits := by
  induction n with
  | zero => rfl
  | succ n ih =>
    rw [List.replicate_succ, List.cons_append, ← ih]
    rfl

/-- No variable is generated twice. -/
theorem generated_injective : Function.Injective generated := by
  intro j k h
  have h := String.ofList_inj.mp (congrArg name h)
  have h := congrArg ofHex (List.cons.inj h).2
  rwa [List.append_eq, List.append_eq, ofHex_replicate_zero, ofHex_replicate_zero,
    ofHex_toDigits, ofHex_toDigits] at h

theorem generated_ne_named (k : Nat) (name : String) : generated k ≠ named name :=
  fun h => Bool.false_ne_true (congrArg userDefined h)

end Var

/-- The concept at the element of a variable. -/
def Assignment.concept? (a : Assignment) (v : Var) : Option ConceptId :=
  (a.find? v).bind Element.conceptId?

namespace FragmentSet

/-! ## Meanings -/

/-- The variable was generated after the first `m`, among the first `n`. -/
def Hidden (m n : Nat) (v : Var) : Prop :=
  ∃ k, m ≤ k ∧ k < n ∧ v = .generated k

/-- The sets, made while the supply went from `m` to `n` variables, convey `P` of the concepts of the
named variables. -/
structure Conveys (g : Graph) (m n : Nat) (sets : List FragmentSet) (names : Var → Prop)
    (P : (Var → Option ConceptId) → Prop) : Prop where
  le : m ≤ n
  mentions : ∀ v, (∃ s ∈ sets, s.Mentions v) ↔ names v ∨ Hidden m n v
  total : ∀ look, P look → ∀ v, names v → ∃ id, look v = some id
  congr : ∀ look look', (∀ v, names v → look v = look' v) → P look → P look'
  sound : ∀ a : Assignment, (∀ s ∈ sets, s.Holds g a) → P a.concept?
  complete : (∀ k, m ≤ k → ¬ names (.generated k)) → ∀ (look : Var → Option ConceptId)
    (a : Assignment), P look → (∀ v, names v → a.find? v = (look v).map g.element) →
      ∃ b : Assignment, (∀ v, ¬ Hidden m n v → b.find? v = a.find? v) ∧ ∀ s ∈ sets, s.Holds g b

/-- The sets say what they convey: the concepts of the generated variables are determined too. -/
structure Says (g : Graph) (m n : Nat) (sets : List FragmentSet) (names : Var → Prop)
    (P : (Var → Option ConceptId) → Prop) : Prop extends Conveys g m n sets names P where
  determined : ∀ a b : Assignment, (∀ s ∈ sets, s.Holds g a) → (∀ s ∈ sets, s.Holds g b) →
    ∀ v, Hidden m n v → a.concept? v = b.concept? v

theorem not_hidden_self (m : Nat) (v : Var) : ¬ Hidden m m v := by
  rintro ⟨k, hm, hk, -⟩
  omega

theorem hidden_succ {m : Nat} {v : Var} : Hidden m (m + 1) v ↔ v = .generated m := by
  constructor
  · rintro ⟨k, hk, hk', rfl⟩
    obtain rfl : k = m := by omega
    rfl
  · rintro rfl
    exact ⟨m, le_rfl, Nat.lt_succ_self m, rfl⟩

theorem hidden_trans {l m n : Nat} (hlm : l ≤ m) (hmn : m ≤ n) (v : Var) :
    Hidden l n v ↔ Hidden l m v ∨ Hidden m n v := by
  constructor
  · rintro ⟨k, hl, hn, rfl⟩
    by_cases hk : k < m
    · exact .inl ⟨k, hl, hk, rfl⟩
    · exact .inr ⟨k, Nat.not_lt.mp hk, hn, rfl⟩
  · rintro (⟨k, hl, hm, rfl⟩ | ⟨k, hm, hn, rfl⟩)
    · exact ⟨k, hl, by omega, rfl⟩
    · exact ⟨k, by omega, hn, rfl⟩

theorem not_hidden_of_hidden {l m n : Nat} {v : Var} (h : Hidden l m v) : ¬ Hidden m n v := by
  rintro ⟨k, hm, -, hk⟩
  obtain ⟨j, -, hj, rfl⟩ := h
  have := Var.generated_injective hk
  omega

/-- A set reads the variables that it mentions only. -/
theorem Holds.congr_mentions {g : Graph} {s : FragmentSet} {a b : Assignment}
    (h : ∀ v, s.Mentions v → a.find? v = b.find? v) (ha : s.Holds g a) : s.Holds g b := by
  obtain ⟨f, hf, ha⟩ := ha
  exact ⟨f, hf, (Fragment.Holds.congr fun v hv => h v ⟨f, hf, hv⟩).mp ha⟩

section Combinations

variable {g : Graph} {l m n : Nat} {sets sets' : List FragmentSet} {names names' : Var → Prop}
  {P P' : (Var → Option ConceptId) → Prop}

theorem Conveys.nil (g : Graph) (m : Nat) : Conveys g m m [] (fun _ => False) fun _ => True where
  le := le_rfl
  mentions v := by simpa using not_hidden_self m v
  total := fun _ _ _ h => h.elim
  congr := fun _ _ _ h => h
  sound := fun _ _ => trivial
  complete := fun _ _ a _ _ => ⟨a, fun _ _ => rfl, fun _ hs => nomatch hs⟩

theorem Says.nil (g : Graph) (m : Nat) : Says g m m [] (fun _ => False) fun _ => True where
  toConveys := .nil g m
  determined := fun _ _ _ _ v hv => absurd hv (not_hidden_self m v)

/-- The same in other words. -/
theorem Conveys.of_iff (h : Conveys g m n sets names P) (hnames : ∀ v, names v ↔ names' v)
    (hP : ∀ look, P look ↔ P' look) : Conveys g m n sets names' P' := by
  obtain rfl : names = names' := funext fun v => propext (hnames v)
  obtain rfl : P = P' := funext fun look => propext (hP look)
  exact h

theorem Says.of_iff (h : Says g m n sets names P) (hnames : ∀ v, names v ↔ names' v)
    (hP : ∀ look, P look ↔ P' look) : Says g m n sets names' P' where
  toConveys := h.toConveys.of_iff hnames hP
  determined := h.determined

/-- Sets made one after the other convey together what each conveys. -/
theorem Conveys.append (h : Conveys g l m sets names P) (h' : Conveys g m n sets' names' P') :
    Conveys g l n (sets ++ sets') (fun v => names v ∨ names' v) fun look => P look ∧ P' look where
  le := h.le.trans h'.le
  mentions v := by
    rw [hidden_trans h.le h'.le]
    have hm := h.mentions v
    have hm' := h'.mentions v
    simp only [List.mem_append, or_and_right, exists_or]
    rw [hm, hm']
    tauto
  total := by
    rintro look ⟨hP, hP'⟩ v (hv | hv)
    · exact h.total look hP v hv
    · exact h'.total look hP' v hv
  congr look look' heq := And.imp (h.congr look look' fun v hv => heq v (.inl hv))
    (h'.congr look look' fun v hv => heq v (.inr hv))
  sound a ha := ⟨h.sound a fun s hs => ha s (List.mem_append_left _ hs),
    h'.sound a fun s hs => ha s (List.mem_append_right _ hs)⟩
  complete := by
    rintro hfresh look a ⟨hP, hP'⟩ ha
    -- the first sets are extended first, and keep holding because they mention nothing of the rest
    obtain ⟨b, hb, hholds⟩ := h.complete (fun k hk hn => hfresh k hk (.inl hn)) look a hP
      fun v hv => ha v (.inl hv)
    have hout (v : Var) (hv : names' v) : ¬ Hidden l m v := by
      rintro ⟨k, hk, -, rfl⟩
      exact hfresh k hk (.inr hv)
    obtain ⟨c, hc, hholds'⟩ := h'.complete (fun k hk hn => hfresh k (h.le.trans hk) (.inr hn)) look b
      hP' fun v hv => (hb v (hout v hv)).trans (ha v (.inr hv))
    refine ⟨c, fun v hv => ?_, fun s hs => ?_⟩
    · rw [hidden_trans h.le h'.le, not_or] at hv
      rw [hc v hv.2, hb v hv.1]
    · rcases List.mem_append.mp hs with hs | hs
      · refine (hholds s hs).congr_mentions fun v hv => (hc v ?_).symm
        rcases (h.mentions v).mp ⟨s, hs, hv⟩ with hv | hv
        · rintro ⟨k, hk, -, rfl⟩
          exact hfresh k (h.le.trans hk) (.inl hv)
        · exact not_hidden_of_hidden hv
      · exact hholds' s hs

/-- Sets made one after the other say together what each says. -/
theorem Says.append (h : Says g l m sets names P) (h' : Says g m n sets' names' P') :
    Says g l n (sets ++ sets') (fun v => names v ∨ names' v) fun look => P look ∧ P' look where
  toConveys := h.toConveys.append h'.toConveys
  determined a b ha hb v hv := by
    rcases (hidden_trans h.le h'.le v).mp hv with hv | hv
    · exact h.determined a b (fun s hs => ha s (List.mem_append_left _ hs))
        (fun s hs => hb s (List.mem_append_left _ hs)) v hv
    · exact h'.determined a b (fun s hs => ha s (List.mem_append_right _ hs))
        (fun s hs => hb s (List.mem_append_right _ hs)) v hv

end Combinations

end FragmentSet

/-! ## The properties of a statement -/

/-- What it says of the concept of a variable to be of a type. -/
def TypeRef.Reads (g : Graph) (look : Var → Option ConceptId) (x : Var) : TypeRef → Prop
  | .label l => ∃ i, ∃ t ∈ g.concepts, t.label = some l ∧ g.IsA i t.id ∧ look x = some i
  | .var v => ∃ i t, g.IsA i t ∧ look x = some i ∧ look v = some t

/-- The variables that a statement of the type names. -/
def TypeRef.Names (x : Var) : TypeRef → Var → Prop
  | .label _, v => v = x
  | .var t, v => v = x ∨ v = t

/-- A player of a relation stands in a casting. -/
structure Graph.Stands (g : Graph) (look : Var → Option ConceptId) (relation : Var)
    (role : Option Label) (player : Var) (c : Casting) : Prop where
  plays : ∃ e, g.Plays e c
  relation : look relation = some c.relation
  role : ∀ l, role = some l → c.role = l
  player : look player = some c.player

/-- A concept with a value that passes the predicate. -/
def Constraint.Reads (g : Graph) (look : Var → Option ConceptId) (x : Var) (p : Constraint) : Prop :=
  ∃ c ∈ g.concepts, look x = some c.id ∧ ∃ value, c.value = some value ∧ p.test value = true

namespace FragmentSet

/-- Whatever the supply, the sets that are made say `P`. -/
def Spells (g : Graph) (x : Fresh (List FragmentSet)) (names : Var → Prop)
    (P : (Var → Option ConceptId) → Prop) : Prop :=
  ∀ s : Supply, Says g s.vars (x.run s).2.vars (x.run s).1 names P

section Properties

variable {g : Graph}

theorem concept?_of_element {a : Assignment} {v : Var} {id : ConceptId}
    (h : a.find? v = some (g.element id)) : a.concept? v = some id := by
  rw [Assignment.concept?, h]
  exact g.conceptId?_element id

/-- One set of fragments that have named variables only. -/
theorem spells_one {s : FragmentSet} {names : Var → Prop} {P : (Var → Option ConceptId) → Prop}
    (hmentions : ∀ v, s.Mentions v ↔ names v)
    (htotal : ∀ look, P look → ∀ v, names v → ∃ id, look v = some id)
    (hcongr : ∀ look look', (∀ v, names v → look v = look' v) → P look → P look')
    (hsound : ∀ a, s.Holds g a → P a.concept?)
    (hcomplete : ∀ look (a : Assignment), P look →
      (∀ v, names v → a.find? v = (look v).map g.element) → s.Holds g a) :
    Spells g (pure [s]) names P := fun u =>
  { le := le_rfl
    mentions := fun v => by
      show (∃ t ∈ [s], t.Mentions v) ↔ names v ∨ Hidden u.vars u.vars v
      rw [or_iff_left (not_hidden_self u.vars v), ← hmentions]
      exact ⟨fun ⟨_, ht, hv⟩ => List.mem_singleton.mp ht ▸ hv, fun hv => ⟨s, .head _, hv⟩⟩
    total := htotal
    congr := hcongr
    sound := fun a ha => hsound a (ha s (.head _))
    complete := fun _ look a hP ha => ⟨a, fun _ _ => rfl, fun _ ht =>
      List.mem_singleton.mp ht ▸ hcomplete look a hP ha⟩
    determined := fun _ _ _ _ v hv => absurd hv (not_hidden_self u.vars v) }

theorem spells_identity (description : String) (x : Var) (id : ConceptId) :
    Spells g (pure [⟨description, [.identity x id]⟩]) (· = x)
      fun look => g.Holds id ∧ look x = some id := by
  refine spells_one (fun v => ?_) ?_ ?_ (fun a => ?_) fun look a h ha => ?_
  · simp [Mentions]
  · rintro look ⟨-, h⟩ v rfl
    exact ⟨id, h⟩
  · rintro look look' heq ⟨hid, h⟩
    exact ⟨hid, (heq x rfl).symm.trans h⟩
  · rintro ⟨f, hf, h⟩
    obtain rfl := List.mem_singleton.mp hf
    exact ⟨h.1, concept?_of_element h.2⟩
  · refine ⟨_, .head _, h.1, ?_⟩
    rw [ha x rfl, h.2, Option.map_some]

theorem spells_value (description : String) (x : Var) (p : Constraint) :
    Spells g (pure [⟨description, [.valued x p]⟩]) (· = x) fun look => p.Reads g look x := by
  refine spells_one (fun v => ?_) ?_ ?_ (fun a => ?_) fun look a h ha => ?_
  · simp [Mentions]
  · rintro look ⟨c, -, h, -⟩ v rfl
    exact ⟨c.id, h⟩
  · rintro look look' heq ⟨c, hc, h, hvalue⟩
    exact ⟨c, hc, (heq x rfl).symm.trans h, hvalue⟩
  · rintro ⟨f, hf, h⟩
    obtain rfl := List.mem_singleton.mp hf
    obtain ⟨c, hc, ha, hvalue⟩ := h
    exact ⟨c, hc, concept?_of_element ha, hvalue⟩
  · obtain ⟨c, hc, hx, hvalue⟩ := h
    refine ⟨_, .head _, c, hc, ?_, hvalue⟩
    rw [ha x rfl, hx, Option.map_some]

theorem spells_isaStep (description : String) (x type : Var) :
    Spells g (pure [isaStep description x type]) (TypeRef.Names x (.var type))
      fun look => TypeRef.Reads g look x (.var type) := by
  refine spells_one (fun v => ?_) ?_ ?_ (fun a => ?_) fun look a h ha => ?_
  · simp [Mentions, isaStep, TypeRef.Names]
  · rintro look ⟨i, t, -, hi, ht⟩ v (rfl | rfl)
    · exact ⟨i, hi⟩
    · exact ⟨t, ht⟩
  · rintro look look' heq ⟨i, t, h, hi, ht⟩
    exact ⟨i, t, h, (heq x (.inl rfl)).symm.trans hi, (heq type (.inr rfl)).symm.trans ht⟩
  · rintro ⟨f, hf, h⟩
    rcases List.mem_pair.mp hf with rfl | rfl <;> obtain ⟨i, t, h, hi, ht⟩ := h
    all_goals exact ⟨i, t, h, concept?_of_element hi, concept?_of_element ht⟩
  · obtain ⟨i, t, h, hi, ht⟩ := h
    refine ⟨_, .head _, i, t, h, ?_, ?_⟩
    · rw [ha x (.inl rfl), hi, Option.map_some]
    · rw [ha type (.inr rfl), ht, Option.map_some]

/-- A label is read through a variable of its own, which stands for the one type of the label. -/
theorem spells_ofIsa (hg : g.WellFormed) (x : Var) (type : TypeRef) :
    Spells g (ofIsa x type) (type.Names x) fun look => type.Reads g look x := by
  cases type with
  | var type => exact spells_isaStep _ x type
  | label l =>
    intro s
    let v := Var.generated s.vars
    let description := x.text ++ " isa " ++ l.text
    show Says g s.vars (s.vars + 1) [⟨description, [.labelled v l]⟩, isaStep description x v] _ _
    have hhidden (w : Var) : Hidden s.vars (s.vars + 1) w ↔ w = v := hidden_succ
    have hlabel {a : Assignment} (ha : ∀ s' ∈ [⟨description, [.labelled v l]⟩,
        isaStep description x v], s'.Holds g a) :
        ∃ t ∈ g.concepts, t.label = some l ∧ a.find? v = some (g.element t.id) := by
      obtain ⟨f, hf, h⟩ := ha _ (.head _)
      obtain rfl := List.mem_singleton.mp hf
      exact h
    exact
      { le := Nat.le_succ _
        mentions := fun w => by
          rw [hhidden]
          simp only [Mentions, isaStep, TypeRef.Names, List.mem_cons, List.not_mem_nil, or_false,
            exists_eq_or_imp, exists_eq_left, Fragment.mem_vars_labelled, Fragment.mem_vars_outIsa,
            Fragment.mem_vars_inIsa]
          tauto
        total := by
          rintro look ⟨i, t, -, -, -, hi⟩ w rfl
          exact ⟨i, hi⟩
        congr := by
          rintro look look' heq ⟨i, t, ht, hl, h, hi⟩
          exact ⟨i, t, ht, hl, h, (heq x rfl).symm.trans hi⟩
        sound := by
          intro a ha
          obtain ⟨t, ht, hl, hv⟩ := hlabel ha
          obtain ⟨f, hf, h⟩ := ha _ (.tail _ (.head _))
          rcases List.mem_pair.mp hf with rfl | rfl <;> obtain ⟨i, t', h, hi, ht'⟩ := h
          all_goals
            obtain rfl := Graph.element_inj (Option.some.inj (ht'.symm.trans hv))
            exact ⟨i, t, ht, hl, h, concept?_of_element hi⟩
        complete := by
          rintro hfresh look a ⟨i, t, ht, hl, h, hi⟩ ha
          refine ⟨a.insert v (g.element t.id), fun w hw => ?_, fun s' hs' => ?_⟩
          · exact a.find?_insert_of_ne _ fun e => hw ((hhidden w).mpr e)
          · have hx : x ≠ v := fun e => hfresh s.vars le_rfl e.symm
            rcases List.mem_pair.mp hs' with rfl | rfl
            · exact ⟨_, .head _, t, ht, hl, a.find?_insert_self _ _⟩
            · refine ⟨_, .head _, i, t.id, h, ?_, a.find?_insert_self _ _⟩
              rw [a.find?_insert_of_ne _ hx, ha x rfl, hi, Option.map_some]
        determined := by
          intro a b ha hb w hw
          obtain rfl := (hhidden w).mp hw
          obtain ⟨t, ht, hl, hta⟩ := hlabel ha
          obtain ⟨t', ht', hl', htb⟩ := hlabel hb
          have := (hg.labelled?_label ht hl).symm.trans (hg.labelled?_label ht' hl')
          rw [concept?_of_element hta, concept?_of_element htb, Option.some.inj this] }

/-! ## Players -/

/-- The links to a list of players, their castings generated from the `m`-th variable on. -/
def linksFrom (relation : Var) (types : Option (SortedSet Label)) :
    Nat → List RolePlayer → List RoleLink
  | _, [] => []
  | m, p :: ps =>
    ⟨relation, .generated m, p.player, p.role.map only, types⟩ :: linksFrom relation types (m + 1) ps

/-- A type of the casting's relation is among the types, if they are stated. -/
def TypeAmong (g : Graph) (types : Option (SortedSet Label)) (c : Casting) : Prop :=
  ∀ labels, types = some labels →
    ∃ t ∈ g.concepts, g.IsA c.relation t.id ∧ ∃ l ∈ labels, t.label = some l

/-- A casting fits a player of the relation. -/
def Fits (g : Graph) (look : Var → Option ConceptId) (relation : Var)
    (types : Option (SortedSet Label)) (p : RolePlayer) (c : Casting) : Prop :=
  g.Stands look relation p.role p.player c ∧ TypeAmong g types c

variable {relation : Var} {types : Option (SortedSet Label)} {ps : List RolePlayer}

theorem run_links (s : Supply) :
    ((ps.mapM fun p => do
      return RoleLink.mk relation (← Fresh.var) p.player (p.role.map only) types :
        Fresh (List RoleLink)).run s) =
      (linksFrom relation types s.vars ps, { s with vars := s.vars + ps.length }) := by
  induction ps generalizing s with
  | nil => rfl
  | cons p ps ih =>
    have ih := ih { s with vars := s.vars + 1 }
    rw [List.length_cons, show s.vars + (ps.length + 1) = s.vars + 1 + ps.length by omega,
      List.mapM_cons]
    exact congrArg (fun r : List RoleLink × Supply =>
      (RoleLink.mk relation (.generated s.vars) p.player (p.role.map only) types :: r.1, r.2)) ih

theorem hidden_cons {m n : Nat} {v : Var} :
    Hidden m (m + (n + 1)) v ↔ v = .generated m ∨ Hidden (m + 1) (m + 1 + n) v := by
  rw [hidden_trans (Nat.le_succ m) (by omega : m + 1 ≤ m + (n + 1)), hidden_succ,
    show m + (n + 1) = m + 1 + n by omega]

/-- The links have the relation, the players and the generated castings. -/
theorem mem_vars_linksFrom {m : Nat} {v : Var} :
    (∃ link ∈ linksFrom relation types m ps, v = link.relation ∨ v = link.casting ∨
      v = link.player) ↔ (∃ p ∈ ps, v = relation ∨ v = p.player) ∨ Hidden m (m + ps.length) v := by
  induction ps generalizing m with
  | nil => simpa [linksFrom] using not_hidden_self m v
  | cons p ps ih =>
    rw [linksFrom, List.length_cons, hidden_cons]
    simp only [List.exists_mem_cons_iff]
    rw [ih]
    generalize (∃ p ∈ ps, v = relation ∨ v = p.player) = named
    tauto

theorem exists_link_of_hidden {m : Nat} {v : Var} (h : Hidden m (m + ps.length) v) :
    ∃ link ∈ linksFrom relation types m ps, link.casting = v := by
  induction ps generalizing m with
  | nil => exact absurd h (not_hidden_self m v)
  | cons p ps ih =>
    rcases hidden_cons.mp h with rfl | h
    · exact ⟨_, .head _, rfl⟩
    · obtain ⟨link, hlink, rfl⟩ := ih h
      exact ⟨link, .tail _ hlink, rfl⟩

/-- What holds of the members of every pair holds pairwise. -/
theorem forall_mem_pairs {α : Type} {r : α → α → Prop} {l : List α} :
    (∀ p ∈ pairs l, r p.1 p.2) ↔ l.Pairwise r := by
  induction l with
  | nil => simp [pairs]
  | cons a l ih =>
    rw [pairs, List.forall_mem_append, ih, List.pairwise_cons, List.forall_mem_map]

/-- Variables that stand for castings stand for different ones if the castings have no repetition. -/
theorem pairwise_neq_iff {a : Assignment} {vs : List Var} {cs : List Casting}
    (h : List.Forall₂ (fun v c => a.find? v = some (.casting c)) vs cs) :
    vs.Pairwise (fun v w => (Fragment.neq v w).Holds g a) ↔ cs.Nodup := by
  induction h with
  | nil => simp
  | @cons v c vs cs hv hvs ih =>
    rw [List.pairwise_cons, List.nodup_cons, ih]
    refine and_congr_left fun _ => ⟨fun hneq hc => ?_, fun hc w hw => ?_⟩
    · obtain ⟨w, hw, hwc⟩ := exists_of_forall₂_of_mem hvs.flip hc
      obtain ⟨x, y, hx, hy, hxy⟩ := hneq w hw
      exact hxy ((Option.some.inj (hx.symm.trans hv)).trans
        (Option.some.inj (hwc.symm.trans hy)))
    · obtain ⟨d, hd, hwd⟩ := exists_of_forall₂_of_mem hvs hw
      refine ⟨_, _, hv, hwd, fun e => hc ?_⟩
      obtain rfl := Element.casting.inj e
      exact hd

/-- The assignment with castings for the variables generated from the `m`-th on. -/
def withCastings (a : Assignment) : Nat → List Casting → Assignment
  | _, [] => a
  | m, c :: cs => withCastings (a.insert (.generated m) (.casting c)) (m + 1) cs

theorem find?_withCastings {a : Assignment} {m : Nat} {cs : List Casting} {v : Var}
    (hv : ¬ Hidden m (m + cs.length) v) : (withCastings a m cs).find? v = a.find? v := by
  induction cs generalizing a m with
  | nil => rfl
  | cons c cs ih =>
    rw [List.length_cons, hidden_cons, not_or] at hv
    rw [withCastings, ih hv.2, SortedMap.find?_insert_of_ne _ _ hv.1]

theorem forall₂_withCastings {a : Assignment} {m : Nat} {cs : List Casting}
    (h : ps.length = cs.length) : List.Forall₂
      (fun link c => (withCastings a m cs).find? link.casting = some (.casting c))
        (linksFrom relation types m ps) cs := by
  induction ps generalizing a m cs with
  | nil =>
    obtain rfl := List.length_eq_zero_iff.mp h.symm
    exact .nil
  | cons p ps ih =>
    obtain ⟨c, cs, rfl⟩ := List.exists_cons_of_length_eq_add_one h.symm
    refine .cons ?_ (ih (by simpa using h))
    have hv : ¬ Hidden (m + 1) (m + 1 + cs.length) (.generated m) := by
      rintro ⟨k, hk, -, he⟩
      have := Var.generated_injective he
      omega
    rw [withCastings, find?_withCastings hv]
    exact a.find?_insert_self _ _

/-- Links that hold have castings that fit their players. -/
theorem exists_fits_of_links {a : Assignment} {description : String} {m : Nat}
    (ha : ∀ link ∈ linksFrom relation types m ps, (ofLink description link).Holds g a) :
    ∃ cs : List Casting, List.Forall₂ (Fits g a.concept? relation types) ps cs ∧
      List.Forall₂ (fun link c => a.find? link.casting = some (.casting c))
        (linksFrom relation types m ps) cs := by
  induction ps generalizing m with
  | nil => exact ⟨[], .nil, .nil⟩
  | cons p ps ih =>
    obtain ⟨hp, hps⟩ := List.forall_mem_cons.mp ha
    obtain ⟨cs, hcs, hcastings⟩ := ih hps
    obtain ⟨f, hf, h⟩ := hp
    rcases List.mem_pair.mp hf with rfl | rfl <;>
      obtain ⟨r, c, hplays, ⟨hroles, htypes⟩, hr, hc, hplayer⟩ := h
    all_goals
      refine ⟨c :: cs, .cons ⟨⟨⟨r, hplays⟩, ?_, fun l hl => ?_, concept?_of_element hplayer⟩, htypes⟩
        hcs, .cons hc hcastings⟩
      · have hr : a.find? relation = some r := hr
        rw [Assignment.concept?, hr]
        exact hplays.relation_eq
      · have := hroles (only l) (by rw [hl]; rfl)
        simpa [only] using this

/-- Castings that fit the players make the links hold. -/
theorem links_hold_of_fits (hg : g.WellFormed) {look : Var → Option ConceptId} {a : Assignment}
    {description : String} {m : Nat} {cs : List Casting}
    (ha : ∀ v, (∃ p ∈ ps, v = relation ∨ v = p.player) → a.find? v = (look v).map g.element)
    (hfits : List.Forall₂ (Fits g look relation types) ps cs)
    (hcastings : List.Forall₂ (fun link c => a.find? link.casting = some (.casting c))
      (linksFrom relation types m ps) cs) :
    ∀ link ∈ linksFrom relation types m ps, (ofLink description link).Holds g a := by
  induction hfits generalizing m with
  | nil => exact fun _ hlink => nomatch hlink
  | @cons p c ps cs hfit hfits ih =>
    obtain ⟨hc, hcastings⟩ := List.forall₂_cons.mp hcastings
    refine List.forall_mem_cons.mpr ⟨?_, ih (fun v ⟨q, hq, hv⟩ => ha v ⟨q, .tail _ hq, hv⟩) hcastings⟩
    obtain ⟨⟨⟨e, hplays⟩, hrelation, hrole, hplayer⟩, htypes⟩ := hfit
    obtain ⟨-, rfl, -⟩ := hg.plays_holds hplays
    refine ⟨_, .head _, _, c, hplays, ⟨fun roles hroles => ?_, htypes⟩, ?_, hc, ?_⟩
    · obtain ⟨l, hl, rfl⟩ := Option.map_eq_some_iff.mp hroles
      simp [only, hrole l hl]
    · show a.find? relation = _
      rw [ha relation ⟨p, .head _, .inl rfl⟩, hrelation, Option.map_some]
    · show a.find? p.player = _
      rw [ha p.player ⟨p, .head _, .inr rfl⟩, hplayer, Option.map_some]

/-- The sets of linked players: one for each link, and one for each two castings. -/
def ofLinks (description : String) (relation : Var) (links : List RoleLink) : List FragmentSet :=
  links.map (ofLink description) ++ (pairs (links.map RoleLink.casting)).map fun p =>
    ⟨relation.text ++ " distinct castings", [.neq p.1 p.2]⟩

theorem run_ofPlayers (description : String) (s : Supply) : (ofPlayers description relation types ps).run s =
    (ofLinks description relation (linksFrom relation types s.vars ps), { s with vars := s.vars + ps.length }) :=
  congrArg (fun r : List RoleLink × Supply => (ofLinks description relation r.1, r.2)) (run_links s)

theorem forall_holds_ofLinks {description : String} {links : List RoleLink} {a : Assignment} :
    (∀ s ∈ ofLinks description relation links, s.Holds g a) ↔
      (∀ link ∈ links, (ofLink description link).Holds g a) ∧
        (links.map RoleLink.casting).Pairwise fun v w => (Fragment.neq v w).Holds g a := by
  rw [ofLinks, List.forall_mem_append, List.forall_mem_map, List.forall_mem_map, ← forall_mem_pairs]
  simp [Holds]

theorem mentions_ofLinks {description : String} {links : List RoleLink} {v : Var} :
    (∃ s ∈ ofLinks description relation links, s.Mentions v) ↔
      ∃ link ∈ links, v = link.relation ∨ v = link.casting ∨ v = link.player := by
  constructor
  · rintro ⟨set, hset, f, hf, hv⟩
    rcases List.mem_append.mp hset with hset | hset
    · obtain ⟨link, hlink, rfl⟩ := List.mem_map.mp hset
      refine ⟨link, hlink, ?_⟩
      rcases List.mem_pair.mp hf with rfl | rfl
      · exact Fragment.mem_vars_outPlayer.mp hv
      · exact Fragment.mem_vars_inPlayer.mp hv
    · obtain ⟨p, hp, rfl⟩ := List.mem_map.mp hset
      obtain rfl := List.mem_singleton.mp hf
      have hmem : v ∈ links.map RoleLink.casting := by
        rcases Fragment.mem_vars_neq.mp hv with rfl | rfl
        · exact (mem_of_mem_pairs hp).1
        · exact (mem_of_mem_pairs hp).2
      obtain ⟨link, hlink, rfl⟩ := List.mem_map.mp hmem
      exact ⟨link, hlink, .inr (.inl rfl)⟩
  · rintro ⟨link, hlink, hv⟩
    exact ⟨_, List.mem_append_left _ (List.mem_map.mpr ⟨link, hlink, rfl⟩), _, .head _,
      Fragment.mem_vars_outPlayer.mpr hv⟩

/-- A generated variable stands for a casting, not for a concept. -/
theorem concept?_eq_none_of_hidden {description : String} {m : Nat} {a : Assignment}
    (ha : ∀ link ∈ linksFrom relation types m ps, (ofLink description link).Holds g a) {v : Var}
    (hv : Hidden m (m + ps.length) v) : a.concept? v = none := by
  obtain ⟨link, hlink, rfl⟩ : ∃ link ∈ linksFrom relation types m ps, link.casting = v :=
    exists_link_of_hidden hv
  obtain ⟨cs, -, hcs⟩ := exists_fits_of_links ha
  obtain ⟨c, -, hc⟩ := exists_of_forall₂_of_mem hcs hlink
  rw [Assignment.concept?, hc]
  rfl

/-- Castings that fit the players can be assigned to the generated variables. -/
theorem exists_holds_ofLinks (hg : g.WellFormed) {description : String} {m : Nat}
    (hfresh : ∀ k, m ≤ k → ¬ ∃ p ∈ ps, Var.generated k = relation ∨ Var.generated k = p.player)
    {look : Var → Option ConceptId} {a : Assignment} {cs : List Casting} (hnodup : cs.Nodup)
    (hfits : List.Forall₂ (Fits g look relation types) ps cs)
    (ha : ∀ v, (∃ p ∈ ps, v = relation ∨ v = p.player) → a.find? v = (look v).map g.element) :
    ∃ b : Assignment, (∀ v, ¬ Hidden m (m + ps.length) v → b.find? v = a.find? v) ∧
      ∀ s ∈ ofLinks description relation (linksFrom relation types m ps), s.Holds g b := by
  have hlen : m + ps.length = m + cs.length := by rw [hfits.length_eq]
  have hcs : List.Forall₂ (fun link c => (withCastings a m cs).find? link.casting = some (.casting c))
      (linksFrom relation types m ps) cs := forall₂_withCastings hfits.length_eq
  refine ⟨withCastings a m cs, fun v hv => find?_withCastings (hlen ▸ hv),
    forall_holds_ofLinks.mpr ⟨links_hold_of_fits hg (fun v hv => ?_) hfits hcs, ?_⟩⟩
  · rw [find?_withCastings, ha v hv]
    rintro ⟨k, hk, -, rfl⟩
    exact hfresh k hk hv
  · exact (pairwise_neq_iff (List.forall₂_map_left_iff.mpr hcs)).mpr hnodup

/-- The players of a relation stand in different castings that fit them. -/
theorem spells_ofPlayers (hg : g.WellFormed) (description : String) :
    Spells g (ofPlayers description relation types ps)
      (fun v => ∃ p ∈ ps, v = relation ∨ v = p.player) fun look => ∃ cs : List Casting,
        cs.Nodup ∧ List.Forall₂ (Fits g look relation types) ps cs := by
  intro s
  rw [run_ofPlayers]
  exact
    { le := Nat.le_add_right _ _
      mentions := fun v => mentions_ofLinks.trans mem_vars_linksFrom
      total := by
        rintro look ⟨cs, -, hfits⟩ v ⟨p, hp, hv⟩
        obtain ⟨c, -, hfit, -⟩ := exists_of_forall₂_of_mem hfits hp
        rcases hv with rfl | rfl
        · exact ⟨_, hfit.relation⟩
        · exact ⟨_, hfit.player⟩
      congr := by
        rintro look look' heq ⟨cs, hnodup, hfits⟩
        refine ⟨cs, hnodup, forall₂_imp_of_mem hfits fun p hp c hfit => ⟨⟨hfit.1.plays, ?_,
          hfit.1.role, ?_⟩, hfit.2⟩⟩
        · exact (heq relation ⟨p, hp, .inl rfl⟩).symm.trans hfit.1.relation
        · exact (heq p.player ⟨p, hp, .inr rfl⟩).symm.trans hfit.1.player
      sound := by
        intro a ha
        obtain ⟨ha, hneq⟩ := forall_holds_ofLinks.mp ha
        obtain ⟨cs, hfits, hcs⟩ := exists_fits_of_links ha
        exact ⟨cs, (pairwise_neq_iff (List.forall₂_map_left_iff.mpr hcs)).mp hneq, hfits⟩
      complete := by
        rintro hfresh look a ⟨cs, hnodup, hfits⟩ ha
        exact exists_holds_ofLinks hg hfresh hnodup hfits ha
      determined := fun a b ha hb v hv => by
        rw [concept?_eq_none_of_hidden (forall_holds_ofLinks.mp ha).1 hv,
          concept?_eq_none_of_hidden (forall_holds_ofLinks.mp hb).1 hv] }

end Properties

end FragmentSet

end GraphInference
