import GraphInference.Proofs.Pattern.Tokens
import GraphInference.Rule

/-!
# What is read as a pattern

Reading a text gives a pattern if and only if the pattern is derived from the text by the grammar
(`Grammar.pattern_eq_ok_iff`), and likewise for rules (`Grammar.rule_eq_ok_iff`). Properties and players are
read exactly as their forms say. Where a reader also takes blanks that its form leaves alone, the two are
compared up to blanks: what follows starts with a mark, before which blanks do not count.
-/

namespace GraphInference

open Text Attempt

namespace Grammar

variable {α β : Type} {cs c r r' : List Char}

/-! ## Properties -/

theorem ComparisonForm.exists_head {op : Comparison} (h : ComparisonForm cs op r) :
    ∃ d s, cs = d :: s ∧ d ∈ ['=', '!', '>', '<', 'c'] := by
  obtain ⟨_⟩ := h
  cases op <;> exact ⟨_, _, rfl, by decide⟩

theorem not_comparisonForm_of_literalForm {v : Value} {op : Comparison} (hv : LiteralForm cs v r) :
    ¬ ComparisonForm cs op r' := by
  intro hop
  obtain ⟨d, s, rfl, hd⟩ := hop.exists_head
  obtain ⟨d', s', heq, hd'⟩ := hv.exists_head
  obtain ⟨rfl, -⟩ := List.cons.inj heq
  simp only [List.mem_cons, List.not_mem_nil, or_false] at hd
  rcases hd with rfl | rfl | rfl | rfl | rfl <;> exact absurd hd' (by decide)

/-- A predicate starts neither with a blank nor with the mark of a variable. -/
theorem ConstraintForm.exists_head {blank : Char → Bool} {p : Constraint}
    (h : ConstraintForm blank cs p r) : ∃ d s, cs = d :: s ∧ isBlank d = false ∧ d ≠ '$' := by
  have hliteral {cs : List Char} {v : Value} (hv : LiteralForm cs v r) :
      ∃ d s, cs = d :: s ∧ isBlank d = false ∧ d ≠ '$' := by
    obtain ⟨d, s, rfl, hd⟩ := hv.exists_head
    refine ⟨d, s, rfl, Bool.eq_false_iff.mpr fun hb => ?_, ?_⟩
    · simp only [isBlank, Bool.or_eq_true, decide_eq_true_eq] at hb
      rcases hb with ((rfl | rfl) | rfl) | rfl <;> exact absurd hd (by decide)
    · rintro rfl
      exact absurd hd (by decide)
  cases h with
  | bare hv => exact hliteral hv
  | compared hop _ _ =>
    obtain ⟨d, s, rfl, hd⟩ := hop.exists_head
    simp only [List.mem_cons, List.not_mem_nil, or_false] at hd
    rcases hd with rfl | rfl | rfl | rfl | rfl <;> exact ⟨_, s, rfl, by decide, by decide⟩

theorem LiteralForm.bare {v : Value} (h : LiteralForm cs v r) : Bare cs := by
  obtain ⟨d, s, rfl, hd, -⟩ := (ConstraintForm.bare h : ConstraintForm isBlank cs _ r).exists_head
  exact bare_cons.mpr hd

theorem padded_eq_some {s : Scanner α} {F : Form α} (hs : ∀ {cs a r}, s cs = some (a, r) ↔ F cs a r)
    {a : α} : padded s cs = some (a, r) ↔ ∃ r', F (skipBlanks cs) a r' ∧ skipBlanks r' = r := by
  unfold padded
  rw [Option.map_eq_some_iff]
  constructor
  · rintro ⟨⟨a, r'⟩, h, heq⟩
    obtain ⟨rfl, rfl⟩ := Prod.mk.inj heq
    exact ⟨r', hs.mp h, rfl⟩
  · rintro ⟨r', h, rfl⟩
    exact ⟨(a, r'), hs.mpr h, rfl⟩

theorem constraint_eq_some (hcs : Bare cs) {p : Constraint} :
    constraint cs = some (p, r) ↔ ConstraintForm isBlank cs p r := by
  unfold constraint
  rw [either_eq_some]
  constructor
  · rintro (h | ⟨-, h⟩)
    · obtain ⟨⟨op, r₂⟩, hop, h⟩ := Option.bind_eq_some_iff.mp h
      obtain ⟨r₁, hop, hr₂⟩ := (padded_eq_some comparison_eq_some).mp hop
      obtain ⟨⟨v, r⟩, hv, hp⟩ := Option.map_eq_some_iff.mp h
      obtain ⟨rfl, rfl⟩ := Prod.mk.inj hp
      rw [hcs.skipBlanks_eq] at hop
      exact .compared hop (blanks_of_skipBlanks_eq hr₂) (literal_eq_some.mp hv)
    · obtain ⟨⟨v, r⟩, hv, hp⟩ := Option.map_eq_some_iff.mp h
      obtain ⟨rfl, rfl⟩ := Prod.mk.inj hp
      exact .bare (literal_eq_some.mp hv)
  · intro h
    cases h with
    | bare hv =>
      refine .inr ⟨?_, Option.map_eq_some_iff.mpr ⟨_, literal_eq_some.mpr hv, rfl⟩⟩
      have hnone : padded comparison cs = none := by
        refine Option.eq_none_iff_forall_ne_some.mpr fun x hx => ?_
        obtain ⟨r', hop, -⟩ := (padded_eq_some comparison_eq_some).mp hx
        rw [hcs.skipBlanks_eq] at hop
        exact not_comparisonForm_of_literalForm hv hop
      rw [hnone]
      rfl
    | compared hop hb hv =>
      refine .inl (Option.bind_eq_some_iff.mpr ⟨_, (padded_eq_some comparison_eq_some).mpr
        ⟨_, hcs.skipBlanks_eq.symm ▸ hop, hb.skipBlanks_eq_of_bare hv.bare⟩, ?_⟩)
      exact Option.map_eq_some_iff.mpr ⟨_, literal_eq_some.mpr hv, rfl⟩

theorem owned_eq_some (hcs : Bare cs) {o : WrittenOwned} :
    owned cs = some (o, r) ↔ OwnedForm isBlank cs o r := by
  unfold owned
  rw [map_either_eq_some var_eq_some (constraint_eq_some hcs)]
  · constructor
    · rintro (⟨v, h, rfl⟩ | ⟨p, h, rfl⟩)
      · exact .var h
      · exact .value h
    · rintro (h | h)
      · exact .inl ⟨_, h, rfl⟩
      · exact .inr ⟨_, h, rfl⟩
  · rintro _ _ _ _ ⟨_⟩ h
    obtain ⟨d, s, heq, -, hd⟩ := h.exists_head
    exact hd (List.cons.inj heq).1.symm

/-- Reading after a keyword: the phrase starts where the blanks stop. -/
theorem after_eq_some (word : String) (cs r : List Char) (a : α) {s : Scanner α} {F : Form α}
    (hs : ∀ {cs a r}, Bare cs → (s cs = some (a, r) ↔ F cs a r))
    (hF : ∀ {cs a r}, F cs a r → Bare cs) : after word s cs = some (a, r) ↔
      ∃ r₁ r₂, cs = word.toList ++ r₁ ∧ SomeBlanks isBlank r₁ r₂ ∧ F r₂ a r := by
  unfold after
  constructor
  · intro h
    obtain ⟨r₂, h, ha⟩ := Option.bind_eq_some_iff.mp h
    obtain ⟨r₁, hword, hb⟩ := Option.bind_eq_some_iff.mp h
    obtain ⟨hb, hbare⟩ := someBlanks?_eq_some.mp hb
    exact ⟨r₁, r₂, afterWord?_eq_some.mp hword, hb, (hs hbare).mp ha⟩
  · rintro ⟨r₁, r₂, hword, hb, ha⟩
    have hbare := hF ha
    refine Option.bind_eq_some_iff.mpr ⟨r₂, Option.bind_eq_some_iff.mpr ⟨r₁, ?_, ?_⟩, (hs hbare).mpr ha⟩
    · exact afterWord?_eq_some.mpr hword
    · exact someBlanks?_eq_some.mpr ⟨hb, hbare⟩

theorem after_eq_none {word : String} {s : Scanner α} (h : ∀ r₁, cs ≠ word.toList ++ r₁) :
    after word s cs = none := by
  have hnone : afterWord? word.toList cs = none :=
    Option.eq_none_iff_forall_ne_some.mpr fun r hr => h r (afterWord?_eq_some.mp hr)
  unfold after
  rw [hnone]
  rfl

theorem map_eq_some (f : α → β) {s : Scanner α} {F : Form α}
    (hs : ∀ {a r}, s cs = some (a, r) ↔ F cs a r) {b : β} :
    (s cs).map (fun (a, r) => (f a, r)) = some (b, r) ↔ ∃ a, F cs a r ∧ f a = b := by
  simp only [Option.map_eq_some_iff, Prod.exists, Prod.mk.injEq, hs]
  exact ⟨fun ⟨a, r, h, hb, hr⟩ => ⟨a, hr ▸ h, hb⟩, fun ⟨a, h, hb⟩ => ⟨a, r, h, hb, rfl⟩⟩

theorem VarForm.bare {v : Var} (h : VarForm cs v r) : Bare cs := by
  obtain ⟨_⟩ := h
  exact bare_cons.mpr (by decide)

theorem LabelForm.bare {l : Label} (h : LabelForm cs l r) : Bare cs := by
  obtain ⟨d, s, rfl, hd⟩ := h.exists_head
  refine bare_cons.mpr (Bool.eq_false_iff.mpr fun hb => ?_)
  simp only [isBlank, Bool.or_eq_true, decide_eq_true_eq] at hb
  rcases hb with ((rfl | rfl) | rfl) | rfl <;> exact absurd hd (by decide)

theorem TypeRefForm.bare {t : TypeRef} (h : TypeRefForm cs t r) : Bare cs := by
  cases h with
  | var h => exact h.bare
  | label h => exact h.bare

theorem StringForm.bare {s : String} (h : StringForm cs s r) : Bare cs :=
  (LiteralForm.string h).bare

theorem ConstraintForm.bare_start {blank : Char → Bool} {p : Constraint}
    (h : ConstraintForm blank cs p r) : Bare cs := by
  obtain ⟨d, s, rfl, hd, -⟩ := h.exists_head
  exact bare_cons.mpr hd

theorem OwnedForm.bare {blank : Char → Bool} {o : WrittenOwned} (h : OwnedForm blank cs o r) :
    Bare cs := by
  cases h with
  | var h => exact h.bare
  | value h => exact h.bare_start

/-- What stands after the keyword `has`. -/
theorem ownership_eq_some {p : WrittenProperty} :
    ((label cs).bind fun (l, r) => ((someBlanks? r).bind owned).map fun (target, r) =>
      (WrittenProperty.has l target, r)) = some (p, r) ↔
    ∃ l r₃ r₄ o, LabelForm cs l r₃ ∧ SomeBlanks isBlank r₃ r₄ ∧ OwnedForm isBlank r₄ o r ∧
      .has l o = p := by
  constructor
  · intro h
    obtain ⟨⟨l, r₃⟩, hl, h⟩ := Option.bind_eq_some_iff.mp h
    obtain ⟨⟨o, r'⟩, htarget, hp⟩ := Option.map_eq_some_iff.mp h
    obtain ⟨rfl, rfl⟩ := Prod.mk.inj hp
    obtain ⟨r₄, hb, ho⟩ := Option.bind_eq_some_iff.mp htarget
    obtain ⟨hb, hbare⟩ := someBlanks?_eq_some.mp hb
    exact ⟨l, r₃, r₄, o, label_eq_some.mp hl, hb, (owned_eq_some hbare).mp ho, rfl⟩
  · rintro ⟨l, r₃, r₄, o, hl, hb, ho, rfl⟩
    refine Option.bind_eq_some_iff.mpr ⟨(l, r₃), label_eq_some.mpr hl,
      Option.map_eq_some_iff.mpr ⟨(o, r), ?_, rfl⟩⟩
    refine Option.bind_eq_some_iff.mpr ⟨r₄, someBlanks?_eq_some.mpr ⟨hb, ho.bare⟩, ?_⟩
    exact (owned_eq_some ho.bare).mpr ho

theorem property_eq_some {p : WrittenProperty} :
    property cs = some (p, r) ↔ PropertyForm isBlank cs p r := by
  have hisa := after_eq_some "isa" cs r p
    (fun _ => map_eq_some WrittenProperty.isa typeRef_eq_some) fun ⟨_, h, _⟩ => h.bare
  have hhas := after_eq_some "has" cs r p (fun _ => ownership_eq_some)
    fun ⟨_, _, _, _, h, _⟩ => h.bare
  have hid := after_eq_some "id" cs r p
    (fun _ => map_eq_some (fun s => WrittenProperty.identity ⟨s⟩) string_eq_some)
    fun ⟨_, h, _⟩ => h.bare
  have hval := after_eq_some "val" cs r p
    (fun h => map_eq_some WrittenProperty.value (constraint_eq_some h))
    fun ⟨_, h, _⟩ => h.bare_start
  unfold property
  simp only [either_eq_some]
  constructor
  · rintro (h | ⟨-, h | ⟨-, h | ⟨-, h⟩⟩⟩)
    · obtain ⟨r₁, r₂, rfl, hb, t, ht, rfl⟩ := hisa.mp h
      exact .isa hb ht
    · obtain ⟨r₁, r₂, rfl, hb, l, r₃, r₄, o, hl, hb', ho, rfl⟩ := hhas.mp h
      exact .has hb hl hb' ho
    · obtain ⟨r₁, r₂, rfl, hb, s, hs, rfl⟩ := hid.mp h
      exact .identity hb hs
    · obtain ⟨r₁, r₂, rfl, hb, p, hp, rfl⟩ := hval.mp h
      exact .value hb hp
  · rintro (⟨hb, ht⟩ | ⟨hb, hl, hb', ho⟩ | ⟨hb, hs⟩ | ⟨hb, hp⟩)
    · exact .inl (hisa.mpr ⟨_, _, rfl, hb, _, ht, rfl⟩)
    · refine .inr ⟨after_eq_none (by simp), .inl (hhas.mpr ⟨_, _, rfl, hb, ?_⟩)⟩
      exact ⟨_, _, _, _, hl, hb', ho, rfl⟩
    · refine .inr ⟨after_eq_none (by simp), .inr ⟨after_eq_none (by simp), .inl ?_⟩⟩
      exact hid.mpr ⟨_, _, rfl, hb, _, hs, rfl⟩
    · refine .inr ⟨after_eq_none (by simp), .inr ⟨after_eq_none (by simp), .inr
        ⟨after_eq_none (by simp), ?_⟩⟩⟩
      exact hval.mpr ⟨_, _, rfl, hb, _, hp, rfl⟩

/-! ## What a phrase takes of the text -/

section Suffix

variable {blank : Char → Bool}

theorem ConstraintForm.suffix {p : Constraint} (h : ConstraintForm blank cs p r) : r <:+ cs := by
  cases h with
  | bare hv => exact hv.suffix
  | compared hop hb hv => exact hv.suffix.trans (hb.suffix.trans hop.suffix)

theorem OwnedForm.suffix {o : WrittenOwned} (h : OwnedForm blank cs o r) : r <:+ cs := by
  cases h with
  | var h => exact h.suffix
  | value h => exact h.suffix

theorem PropertyForm.suffix {p : WrittenProperty} (h : PropertyForm blank cs p r) : r <:+ cs := by
  have hcons {a b : Char} {r : List Char} : r <:+ a :: b :: r :=
    (List.suffix_cons _ _).trans (List.suffix_cons _ _)
  have hcons' {a b c : Char} {r : List Char} : r <:+ a :: b :: c :: r :=
    hcons.trans (List.suffix_cons _ _)
  cases h with
  | isa hb ht => exact ht.suffix.trans (hb.suffix.trans hcons')
  | has hb hl hb' ho => exact ho.suffix.trans (hb'.suffix.trans (hl.suffix.trans (hb.suffix.trans hcons')))
  | identity hb hs => exact hs.suffix.trans (hb.suffix.trans hcons)
  | value hb hp => exact hp.suffix.trans (hb.suffix.trans hcons')

theorem PlayerForm.suffix {p : RolePlayer} (h : PlayerForm blank cs p r) : r <:+ cs := by
  cases h with
  | role hl hb hb' hv =>
    exact hv.suffix.trans (hb'.suffix.trans ((List.suffix_cons _ _).trans (hb.suffix.trans hl.suffix)))
  | bare hv => exact hv.suffix

theorem Separated.suffix {F : Form α} (hF : ∀ {cs a r}, F cs a r → r <:+ cs) {as : List α}
    (h : Separated blank F cs as r) : r <:+ cs := by
  induction h with
  | one h => exact hF h
  | more h hb hb' _ ih =>
    exact ih.trans (hb'.suffix.trans ((List.suffix_cons _ _).trans (hb.suffix.trans (hF h))))

theorem RelationForm.suffix {ps : List RolePlayer} (h : RelationForm blank cs ps r) : r <:+ cs := by
  obtain ⟨hb, hps, hb'⟩ := h
  exact (List.suffix_cons _ _).trans (hb'.suffix.trans ((hps.suffix PlayerForm.suffix).trans
    (hb.suffix.trans (List.suffix_cons _ _))))

theorem Optionally.suffix {F : Form α} (hF : ∀ {cs a r}, F cs a r → r <:+ cs) {o : Option α}
    (h : Optionally F cs o r) : r <:+ cs := by
  cases h with
  | none _ => exact List.suffix_rfl
  | some h => exact hF h

/-- A statement takes at least its semicolon. -/
theorem StatementForm.suffix {s : WrittenStatement} (h : StatementForm blank cs s r) :
    ';' :: r <:+ cs := by
  obtain ⟨hsubject, hb₁, hplayers, hb₂, hproperties, hb₃, -, -⟩ := h
  exact hb₃.suffix.trans ((hproperties.suffix (Separated.suffix PropertyForm.suffix)).trans
    (hb₂.suffix.trans ((hplayers.suffix RelationForm.suffix).trans
      (hb₁.suffix.trans (hsubject.suffix VarForm.suffix)))))

end Suffix

/-! ## Separated phrases -/

/-- Separated phrases start as their first one does. -/
theorem Separated.of_first {blank : Char → Bool} {F : Form α} {p : List Char → Prop}
    (hF : ∀ {a r}, F cs a r → p cs) {as : List α} (h : Separated blank F cs as r) : p cs := by
  cases h with
  | one h => exact hF h
  | more h _ _ _ => exact hF h

/-- The reader takes the phrases of a form from a text that starts with no blank, and maybe the blanks after
them. -/
structure Reads (s : Scanner α) (F : Form α) : Prop where
  sound {cs r : List Char} {a : α} (hcs : Bare cs) (h : s cs = some (a, r)) :
    ∃ r', F cs a r' ∧ Blanks isBlank r' r
  complete {cs r' : List Char} {a : α} (h : F cs a r') : ∃ r, s cs = some (a, r) ∧ Blanks isBlank r' r
  bare {cs r : List Char} {a : α} (h : F cs a r) : Bare cs
  suffix {cs r : List Char} {a : α} (h : F cs a r) : r <:+ cs

section Readers

variable {s : Scanner α} {F : Form α} {a : α} {as : List α}

theorem reads_of_iff (hs : ∀ {cs a r}, s cs = some (a, r) ↔ F cs a r)
    (hbare : ∀ {cs a r}, F cs a r → Bare cs) (hsuffix : ∀ {cs a r}, F cs a r → r <:+ cs) : Reads s F where
  sound _ h := ⟨_, hs.mp h, .none _⟩
  complete h := ⟨_, hs.mpr h, .none _⟩
  bare h := hbare h
  suffix h := hsuffix h

theorem padded_skipBlanks (s : Scanner α) (cs : List Char) : padded s (skipBlanks cs) = padded s cs := by
  unfold padded
  rw [(bare_skipBlanks cs).skipBlanks_eq]

namespace Reads

theorem padded (hs : Reads s F) : Reads (padded s) F where
  sound hcs h := by
    obtain ⟨⟨a, r⟩, ha, heq⟩ := Option.map_eq_some_iff.mp h
    obtain ⟨rfl, rfl⟩ := Prod.mk.inj heq
    rw [hcs.skipBlanks_eq] at ha
    obtain ⟨r', hF, hb⟩ := hs.sound hcs ha
    exact ⟨r', hF, hb.trans (blanks_skipBlanks r)⟩
  complete h := by
    obtain ⟨r, hr, hb⟩ := hs.complete h
    refine ⟨skipBlanks r, Option.map_eq_some_iff.mpr ⟨(_, r), ?_, rfl⟩, hb.trans (blanks_skipBlanks r)⟩
    rw [(hs.bare h).skipBlanks_eq]
    exact hr
  bare := hs.bare
  suffix := hs.suffix

/-- After a phrase, what the followers add makes separated phrases. -/
theorem separated_of_scanFollowers (hs : Reads s F) {n : Nat} {r₀ r₁ : List Char} (h : F cs a r₀)
    (hb : Blanks isBlank r₀ r₁) (hscan : scanFollowers s n r₁ = (as, r)) :
    ∃ r', Separated isBlank F cs (a :: as) r' ∧ Blanks isBlank r' r := by
  induction n generalizing cs a as r₀ r₁ with
  | zero =>
    obtain ⟨rfl, rfl⟩ := Prod.mk.inj hscan
    exact ⟨r₀, .one h, hb⟩
  | succ n ih =>
    unfold scanFollowers at hscan
    split at hscan
    · obtain ⟨rfl, rfl⟩ := Prod.mk.inj hscan
      exact ⟨r₀, .one h, hb⟩
    · next b r₂ hnext =>
      obtain ⟨r₃, hmark, hnext⟩ := Option.bind_eq_some_iff.mp hnext
      obtain ⟨r₄, hcomma, rfl⟩ := (afterMark?_eq_some (by decide)).mp hmark
      obtain ⟨r₅, hF, hb'⟩ := hs.sound (bare_skipBlanks r₄) hnext
      obtain ⟨rfl, rfl⟩ := Prod.mk.inj hscan
      obtain ⟨r', hsep, hr'⟩ := ih hF hb' rfl
      exact ⟨r', .more h (hb.trans hcomma) (blanks_skipBlanks r₄) hsep, hr'⟩

/-- Separated phrases are found one after the other; the length of the text bounds their number. -/
theorem scanFollowers_of_separated (hs : Reads s F) (h : Separated isBlank F cs as r')
    (hend : (skipBlanks r').head? ≠ some ',') : ∃ a rest r₁ r, as = a :: rest ∧ s cs = some (a, r₁) ∧
      (∀ n, r₁.length ≤ n → scanFollowers s n r₁ = (rest, r)) ∧ Blanks isBlank r' r := by
  induction h with
  | @one cs r' a h =>
    obtain ⟨r₁, hr₁, hb⟩ := hs.complete h
    refine ⟨a, [], r₁, r₁, rfl, hr₁, fun n _ => ?_, hb⟩
    have hmark : afterMark? ',' r₁ = none := by
      refine Option.eq_none_iff_forall_ne_some.mpr fun r hr => ?_
      obtain ⟨r₂, hcomma, -⟩ := (afterMark?_eq_some (by decide)).mp hr
      rw [hb.skipBlanks_eq, hcomma.skipBlanks_eq_of_bare (bare_cons.mpr (by decide))] at hend
      exact hend rfl
    cases n with
    | zero => rfl
    | succ n =>
      unfold scanFollowers
      rw [hmark]
      rfl
  | @more cs r₁ r₂ r₃ r' a as h hb hb' hsep ih =>
    obtain ⟨b, rest, r₅, r, rfl, hb₃, hrest, hr⟩ := ih hend
    obtain ⟨r₄, hr₄, hb₄⟩ := hs.complete h
    have hbare : Bare r₃ := hsep.of_first hs.bare
    have hcomma : skipBlanks r₄ = ',' :: r₂ := by
      rw [← hb₄.skipBlanks_eq, hb.skipBlanks_eq_of_bare (bare_cons.mpr (by decide))]
    have hmark : afterMark? ',' r₄ = some r₃ :=
      (afterMark?_eq_some (by decide)).mpr ⟨r₂, blanks_of_skipBlanks_eq hcomma,
        hb'.skipBlanks_eq_of_bare hbare⟩
    -- the comma makes what is left for the others shorter
    have hlength : r₅.length < r₄.length := by
      obtain ⟨r₆, hF, hb₆⟩ := hs.sound hbare hb₃
      have h₁ := hb₆.suffix.length_le
      have h₂ := (hs.suffix hF).length_le
      have h₃ := hb'.suffix.length_le
      have h₄ := length_skipBlanks_le r₄
      rw [hcomma, List.length_cons] at h₄
      omega
    refine ⟨a, b :: rest, r₄, r, rfl, hr₄, fun n hn => ?_, hr⟩
    obtain ⟨m, rfl⟩ : ∃ m, n = m + 1 := Nat.exists_eq_succ_of_ne_zero (by omega)
    unfold scanFollowers
    rw [hmark, Option.bind_some, hb₃]
    dsimp only
    rw [hrest m (by omega)]

theorem separated_of_scanSeparated (hs : Reads s F) (hcs : Bare cs)
    (h : scanSeparated s cs = some (as, r)) :
    ∃ r', Separated isBlank F cs as r' ∧ Blanks isBlank r' r := by
  obtain ⟨⟨a, r₁⟩, ha, heq⟩ := Option.map_eq_some_iff.mp h
  obtain ⟨rfl, rfl⟩ := Prod.mk.inj heq
  obtain ⟨r₀, hF, hb⟩ := hs.sound hcs ha
  exact hs.separated_of_scanFollowers hF hb rfl

theorem scanSeparated_of_separated (hs : Reads s F) (h : Separated isBlank F cs as r')
    (hend : (skipBlanks r').head? ≠ some ',') :
    ∃ r, scanSeparated s cs = some (as, r) ∧ Blanks isBlank r' r := by
  obtain ⟨a, rest, r₁, r, rfl, ha, hrest, hr⟩ := hs.scanFollowers_of_separated h hend
  refine ⟨r, Option.map_eq_some_iff.mpr ⟨(a, r₁), ha, ?_⟩, hr⟩
  dsimp only
  rw [hrest _ le_rfl]

end Reads

end Readers

/-! ## Relations -/

theorem player_eq_some {p : RolePlayer} : player cs = some (p, r) ↔ PlayerForm isBlank cs p r := by
  unfold player
  rw [either_eq_some]
  constructor
  · rintro (h | ⟨-, h⟩)
    · obtain ⟨⟨l, r₁⟩, hl, h⟩ := Option.bind_eq_some_iff.mp h
      obtain ⟨⟨v, r₂⟩, h, hp⟩ := Option.map_eq_some_iff.mp h
      obtain ⟨r₃, hmark, hv⟩ := Option.bind_eq_some_iff.mp h
      obtain ⟨r₄, hb, rfl⟩ := (afterMark?_eq_some (by decide)).mp hmark
      obtain ⟨rfl, rfl⟩ := Prod.mk.inj hp
      exact .role (label_eq_some.mp hl) hb (blanks_skipBlanks r₄) (var_eq_some.mp hv)
    · obtain ⟨⟨v, r₂⟩, hv, hp⟩ := Option.map_eq_some_iff.mp h
      obtain ⟨rfl, rfl⟩ := Prod.mk.inj hp
      exact .bare (var_eq_some.mp hv)
  · intro h
    cases h with
    | role hl hb hb' hv =>
      refine .inl (Option.bind_eq_some_iff.mpr ⟨_, label_eq_some.mpr hl,
        Option.map_eq_some_iff.mpr ⟨_, Option.bind_eq_some_iff.mpr ⟨_, ?_, var_eq_some.mpr hv⟩, rfl⟩⟩)
      exact (afterMark?_eq_some (by decide)).mpr ⟨_, hb, hb'.skipBlanks_eq_of_bare hv.bare⟩
    | bare hv =>
      refine .inr ⟨?_, Option.map_eq_some_iff.mpr ⟨_, var_eq_some.mpr hv, rfl⟩⟩
      have hlabel : label cs = none := by
        refine eq_none_of_forall_not label_eq_some fun l r' hl => ?_
        obtain ⟨d, s, rfl, hd⟩ := hl.exists_head
        obtain ⟨_⟩ := hv
        exact absurd hd (by decide)
      rw [hlabel]
      rfl

theorem PlayerForm.bare_start {blank : Char → Bool} {p : RolePlayer} (h : PlayerForm blank cs p r) :
    Bare cs := by
  cases h with
  | role hl _ _ _ => exact hl.bare
  | bare hv => exact hv.bare

theorem reads_var : Reads var VarForm :=
  reads_of_iff var_eq_some VarForm.bare VarForm.suffix

theorem reads_player : Reads player (PlayerForm isBlank) :=
  reads_of_iff player_eq_some PlayerForm.bare_start PlayerForm.suffix

theorem PropertyForm.exists_head {blank : Char → Bool} {p : WrittenProperty}
    (h : PropertyForm blank cs p r) : ∃ d s, cs = d :: s ∧ d ∈ ['i', 'h', 'v'] := by
  cases h <;> exact ⟨_, _, rfl, by decide⟩

theorem PropertyForm.bare {blank : Char → Bool} {p : WrittenProperty} (h : PropertyForm blank cs p r) :
    Bare cs := by
  cases h <;> exact bare_cons.mpr (by decide)

theorem reads_property : Reads property (PropertyForm isBlank) :=
  reads_of_iff property_eq_some PropertyForm.bare PropertyForm.suffix

theorem reads_relation : Reads relation (RelationForm isBlank) where
  sound {cs r ps} hcs h := by
    obtain ⟨⟨ps, r₂⟩, hps, h⟩ := Option.bind_eq_some_iff.mp h
    obtain ⟨r₁, hopen, hps⟩ := Option.bind_eq_some_iff.mp hps
    obtain ⟨r₃, hclose, heq⟩ := Option.map_eq_some_iff.mp h
    obtain ⟨rfl, rfl⟩ := Prod.mk.inj heq
    obtain ⟨r₄, hb, rfl⟩ := (afterMark?_eq_some (by decide)).mp hopen
    obtain ⟨r₅, hb', rfl⟩ := (afterMark?_eq_some (by decide)).mp hclose
    obtain ⟨r₆, hsep, hb₆⟩ := reads_player.separated_of_scanSeparated (bare_skipBlanks r₄) hps
    obtain rfl : cs = '(' :: r₄ :=
      hcs.skipBlanks_eq.symm.trans (hb.skipBlanks_eq_of_bare (bare_cons.mpr (by decide)))
    exact ⟨r₅, .intro (blanks_skipBlanks r₄) hsep (hb₆.trans hb'), blanks_skipBlanks r₅⟩
  complete {cs r' ps} h := by
    obtain ⟨hb, hps, hb'⟩ := h
    next r₁ r₂ r₃ =>
    have hend : skipBlanks r₃ = ')' :: r' := hb'.skipBlanks_eq_of_bare (bare_cons.mpr (by decide))
    obtain ⟨r₄, hscan, hb₄⟩ := reads_player.scanSeparated_of_separated hps (by simp [hend])
    have hbare : Bare r₂ := hps.of_first PlayerForm.bare_start
    refine ⟨skipBlanks r', Option.bind_eq_some_iff.mpr ⟨(ps, r₄), Option.bind_eq_some_iff.mpr
      ⟨r₂, ?_, hscan⟩, Option.map_eq_some_iff.mpr ⟨skipBlanks r', ?_, rfl⟩⟩, blanks_skipBlanks r'⟩
    · exact (afterMark?_eq_some (by decide)).mpr ⟨r₁, .none _, hb.skipBlanks_eq_of_bare hbare⟩
    · refine (afterMark?_eq_some (by decide)).mpr ⟨r', blanks_of_skipBlanks_eq ?_, rfl⟩
      rw [← hb₄.skipBlanks_eq, hend]
  bare h := by
    obtain ⟨_, _, _⟩ := h
    exact bare_cons.mpr (by decide)
  suffix h := h.suffix

/-! ## Statements -/

section Optional

variable {s : Scanner α} {F : Form α} {o : Option α}

theorem optionally_of_optional (hlead : ∀ cs, s (skipBlanks cs) = s cs)
    (hs : ∀ {cs a r}, Bare cs → s cs = some (a, r) → ∃ r', F cs a r' ∧ Blanks isBlank r' r)
    (h : optional s cs = (o, r)) :
    ∃ c r', Blanks isBlank cs c ∧ Optionally F c o r' ∧ Blanks isBlank r' r := by
  unfold Text.optional at h
  split at h
  · next a r₁ ha =>
    obtain ⟨rfl, rfl⟩ := Prod.mk.inj h
    rw [← hlead] at ha
    obtain ⟨r', hF, hb⟩ := hs (bare_skipBlanks cs) ha
    exact ⟨skipBlanks cs, r', blanks_skipBlanks cs, .some hF, hb⟩
  · obtain ⟨rfl, rfl⟩ := Prod.mk.inj h
    exact ⟨cs, cs, .none cs, .none cs, .none cs⟩

/-- A reader that skips blanks first reads an optional phrase if there is nothing that it would read where
the phrase is left out. -/
theorem optional_of_optionally (hlead : ∀ cs, s (skipBlanks cs) = s cs)
    (hsome : ∀ {a}, F c a r' → ∃ r, s c = some (a, r) ∧ Blanks isBlank r' r)
    (hnone : o = none → s c = none) (hcs : skipBlanks cs = skipBlanks c) (h : Optionally F c o r') :
    ∃ r, optional s cs = (o, r) ∧ skipBlanks r = skipBlanks r' := by
  have heq : s cs = s c := by rw [← hlead cs, hcs, hlead c]
  unfold Text.optional
  cases h with
  | none _ =>
    rw [heq, hnone rfl]
    exact ⟨cs, rfl, hcs⟩
  | some h =>
    obtain ⟨r, ha, hb⟩ := hsome h
    rw [heq, ha]
    exact ⟨r, rfl, hb.skipBlanks_eq.symm⟩

theorem scanSeparated_skipBlanks (hlead : ∀ cs, s (skipBlanks cs) = s cs) (cs : List Char) :
    scanSeparated s (skipBlanks cs) = scanSeparated s cs := by
  unfold scanSeparated
  rw [hlead]

/-- Nothing is read where no phrase starts. -/
theorem Reads.padded_eq_none (hs : Reads s F) (hnot : ∀ a r, ¬ F (skipBlanks cs) a r) :
    Text.padded s cs = none := by
  refine Option.eq_none_iff_forall_ne_some.mpr fun x hx => ?_
  rw [← padded_skipBlanks] at hx
  obtain ⟨r', hF, -⟩ := hs.padded.sound (bare_skipBlanks cs) hx
  exact hnot x.1 r' hF

end Optional

theorem RelationForm.exists_tail {blank : Char → Bool} {ps : List RolePlayer}
    (h : RelationForm blank cs ps r) : ∃ s, cs = '(' :: s := by
  obtain ⟨_, _, _⟩ := h
  exact ⟨_, rfl⟩

theorem Separated.ne_nil {blank : Char → Bool} {F : Form α} {as : List α}
    (h : Separated blank F cs as r) : as ≠ [] := by
  cases h <;> exact List.cons_ne_nil _ _

/-- What a statement must have, in the two halves that its form asks for. -/
theorem isFounded_iff {blank : Char → Bool} {subject : Option Var} {players : Option (List RolePlayer)}
    {properties : Option (List WrittenProperty)} {F : Form WrittenProperty}
    (h : Optionally (Separated blank F) cs properties r) :
    WrittenStatement.isFounded ⟨subject, players, properties.getD []⟩ = true ↔
      (subject.isSome ∨ players.isSome) ∧ (players.isSome ∨ properties.isSome) := by
  have hproperties : (properties.getD []).isEmpty = !properties.isSome := by
    cases h with
    | none _ => rfl
    | some h =>
      refine Bool.eq_false_iff.mpr fun hempty => h.ne_nil (List.isEmpty_iff.mp hempty)
  unfold WrittenStatement.isFounded
  dsimp only
  rw [hproperties]
  cases subject <;> cases players <;> cases properties <;> simp

theorem exists_statementForm_of_statement {w : WrittenStatement} (h : statement cs = .ok (w, r)) :
    ∃ r₀ r', Blanks isBlank cs r₀ ∧ StatementForm isBlank r₀ w r' ∧ skipBlanks r' = r := by
  unfold statement at h
  rcases hsubject : optional (padded var) cs with ⟨subject, q₁⟩
  rcases hplayers : optional (padded relation) q₁ with ⟨players, q₂⟩
  rcases hproperties : optional (scanSeparated (padded property)) q₂ with ⟨properties, q₃⟩
  simp only [hsubject, hplayers, hproperties] at h
  split at h
  · cases h
  · next q₄ hmark =>
    split at h
    · next hfounded =>
      obtain ⟨rfl, rfl⟩ := Prod.mk.inj (Except.ok.inj h)
      obtain ⟨r₄, hsemicolon, rfl⟩ := (afterMark?_eq_some (by decide)).mp hmark
      obtain ⟨c₁, r₁, hb₁, hsubject, hb₁'⟩ := optionally_of_optional (padded_skipBlanks var)
        reads_var.padded.sound hsubject
      obtain ⟨c₂, r₂, hb₂, hplayers, hb₂'⟩ := optionally_of_optional (padded_skipBlanks relation)
        reads_relation.padded.sound hplayers
      obtain ⟨c₃, r₃, hb₃, hproperties, hb₃'⟩ := optionally_of_optional
        (scanSeparated_skipBlanks (padded_skipBlanks property))
        reads_property.padded.separated_of_scanSeparated hproperties
      obtain ⟨hstart, hbare⟩ := (isFounded_iff hproperties).mp hfounded
      exact ⟨c₁, r₄, hb₁, .intro hsubject (hb₁'.trans hb₂) hplayers (hb₂'.trans hb₃) hproperties
        (hb₃'.trans hsemicolon) hstart hbare, rfl⟩
    · cases h

theorem Separated.exists_head {blank : Char → Bool} {ps : List WrittenProperty}
    (h : Separated blank (PropertyForm blank) cs ps r) : ∃ d s, cs = d :: s ∧ d ∈ ['i', 'h', 'v'] :=
  h.of_first (p := fun cs => ∃ d s, cs = d :: s ∧ d ∈ ['i', 'h', 'v']) PropertyForm.exists_head

theorem scanSeparated_property_eq_none (h : skipBlanks cs = ';' :: r) :
    scanSeparated (padded property) cs = none := by
  refine Option.map_eq_none_iff.mpr (reads_property.padded_eq_none fun p r hp => ?_)
  obtain ⟨d, s, heq, hd⟩ := hp.exists_head
  obtain ⟨rfl, -⟩ := List.cons.inj (h.symm.trans heq)
  exact absurd hd (by decide)

theorem padded_relation_eq_none_of_properties {ps : List WrittenProperty} (hb : Blanks isBlank cs c)
    (h : Separated isBlank (PropertyForm isBlank) c ps r) : padded relation cs = none := by
  refine reads_relation.padded_eq_none fun players r hplayers => ?_
  obtain ⟨s, hs⟩ := hplayers.exists_tail
  rw [hb.skipBlanks_eq_of_bare (h.of_first PropertyForm.bare)] at hs
  obtain ⟨d, t, rfl, hd⟩ := h.exists_head
  obtain ⟨rfl, -⟩ := List.cons.inj hs
  exact absurd hd (by decide)

theorem padded_var_eq_none_of_relation {players : List RolePlayer} (hb : Blanks isBlank cs c)
    (h : RelationForm isBlank c players r) : padded var cs = none := by
  refine reads_var.padded_eq_none fun v r hv => ?_
  rw [hb.skipBlanks_eq_of_bare (reads_relation.bare h)] at hv
  obtain ⟨s, rfl⟩ := h.exists_tail
  cases hv

theorem statement_of_statementForm {w : WrittenStatement} (h : StatementForm isBlank c w r')
    (hcs : skipBlanks cs = skipBlanks c) : statement cs = .ok (w, skipBlanks r') := by
  obtain ⟨hsubject, hb₁, hplayers, hb₂, hproperties, hb₃, hstart, hbare⟩ := h
  next r₁ r₂ r₃ r₄ r₅ subject players properties =>
  have hend : skipBlanks r₅ = ';' :: r' := hb₃.skipBlanks_eq_of_bare (bare_cons.mpr (by decide))
  -- where a part is left out, what stands in its place is no such part
  have hno_property (hnone : properties = none) : scanSeparated (padded property) r₄ = none := by
    subst hnone
    cases hproperties
    exact scanSeparated_property_eq_none hend
  have hno_relation (hnone : players = none) : padded relation r₂ = none := by
    subst hnone
    cases hplayers
    cases hproperties with
    | none _ => simp at hbare
    | some h => exact padded_relation_eq_none_of_properties hb₂ h
  have hno_subject (hnone : subject = none) : padded var c = none := by
    subst hnone
    cases hsubject
    cases hplayers with
    | none _ => simp at hstart
    | some h => exact padded_var_eq_none_of_relation hb₁ h
  obtain ⟨q₁, hq₁, hs₁⟩ := optional_of_optionally (padded_skipBlanks var) reads_var.padded.complete
    hno_subject hcs hsubject
  obtain ⟨q₂, hq₂, hs₂⟩ := optional_of_optionally (padded_skipBlanks relation)
    reads_relation.padded.complete hno_relation (hs₁.trans hb₁.skipBlanks_eq) hplayers
  obtain ⟨q₃, hq₃, hs₃⟩ := optional_of_optionally
    (scanSeparated_skipBlanks (padded_skipBlanks property))
    (fun h => reads_property.padded.scanSeparated_of_separated h (by simp [hend])) hno_property
    (hs₂.trans hb₂.skipBlanks_eq) hproperties
  have hmark : afterMark? ';' q₃ = some (skipBlanks r') :=
    (afterMark?_eq_some (by decide)).mpr ⟨r', blanks_of_skipBlanks_eq (hs₃.trans hend), rfl⟩
  unfold statement
  simp only [hq₁, hq₂, hq₃, hmark]
  rw [if_pos ((isFounded_iff hproperties).mpr ⟨hstart, hbare⟩)]

/-! ## Patterns and rules -/

/-- A statement starts, after blanks, with a variable or with a relation. -/
theorem StatementForm.exists_head {w : WrittenStatement} (h : StatementForm isBlank cs w r) :
    ∃ d s, skipBlanks cs = d :: s ∧ d ∈ ['$', '('] := by
  obtain ⟨hsubject, hb₁, hplayers, -, -, -, hstart, -⟩ := h
  cases hsubject with
  | some h =>
    rw [h.bare.skipBlanks_eq]
    obtain ⟨_⟩ := h
    exact ⟨_, _, rfl, by decide⟩
  | none _ =>
    cases hplayers with
    | none _ => simp at hstart
    | some h =>
      rw [hb₁.skipBlanks_eq_of_bare (reads_relation.bare h)]
      obtain ⟨s, rfl⟩ := h.exists_tail
      exact ⟨_, s, rfl, by decide⟩

/-- After a statement, the statements that follow it make a list of statements with it. -/
theorem exists_statementsForm_of_moreStatements {n : Nat} {r₁ r₂ : List Char} {s : WrittenStatement}
    {ss : List WrittenStatement} (hb : Blanks isBlank cs c) (h : StatementForm isBlank c s r₁)
    (hr₂ : skipBlanks r₁ = r₂) (hmore : moreStatements n r₂ = (ss, r)) :
    ∃ r', StatementsForm isBlank cs (s :: ss) r' ∧ skipBlanks r' = r := by
  induction n generalizing cs c s ss r₁ r₂ with
  | zero =>
    obtain ⟨rfl, rfl⟩ := Prod.mk.inj hmore
    exact ⟨r₁, .one hb h, hr₂⟩
  | succ n ih =>
    unfold moreStatements at hmore
    split at hmore
    · obtain ⟨rfl, rfl⟩ := Prod.mk.inj hmore
      exact ⟨r₁, .one hb h, hr₂⟩
    · next s' r₃ hs' =>
      obtain ⟨rfl, rfl⟩ := Prod.mk.inj hmore
      obtain ⟨r₄, r₅, hb', hform, hr₃⟩ := exists_statementForm_of_statement hs'
      obtain ⟨r', hstatements, hr'⟩ := ih ((blanks_of_skipBlanks_eq hr₂).trans hb') hform hr₃ rfl
      exact ⟨r', .more hb h hstatements, hr'⟩

theorem exists_statementsForm_of_statements {ss : List WrittenStatement}
    (h : statements cs = .ok (ss, r)) :
    ∃ r', StatementsForm isBlank cs ss r' ∧ skipBlanks r' = r := by
  obtain ⟨⟨s, r₁⟩, hs, h⟩ := Except.bind_eq_ok.mp h
  obtain ⟨rfl, rfl⟩ := Prod.mk.inj (Except.ok.inj h)
  obtain ⟨c, r₂, hb, hform, hr₁⟩ := exists_statementForm_of_statement hs
  exact exists_statementsForm_of_moreStatements hb hform hr₁ rfl

/-- Where no statement starts none is read. -/
theorem moreStatements_of_not_head (hr : ∀ d ∈ (skipBlanks r).head?, d ∉ ['$', '(']) (n : Nat) :
    moreStatements n r = ([], r) := by
  cases n with
  | zero => rfl
  | succ n =>
    have hnot : ∀ x, statement r ≠ .ok x := by
      intro x hx
      obtain ⟨c, r', hb, hform, -⟩ := exists_statementForm_of_statement hx
      obtain ⟨d, s, hd, hmem⟩ := hform.exists_head
      rw [← hb.skipBlanks_eq] at hd
      exact hr d (by rw [hd]; rfl) hmem
    unfold moreStatements
    split
    · rfl
    · next hx => exact absurd hx (hnot _)

theorem length_lt_of_statement {w : WrittenStatement} (h : statement cs = .ok (w, r)) :
    r.length < cs.length := by
  obtain ⟨c, r', hb, hform, rfl⟩ := exists_statementForm_of_statement h
  have h₁ := hb.suffix.length_le
  have h₂ := hform.suffix.length_le
  have h₃ := length_skipBlanks_le r'
  rw [List.length_cons] at h₂
  omega

/-- All the statements are read if none starts after them; the length of the text bounds their number. -/
theorem moreStatements_of_statementsForm {ss : List WrittenStatement}
    (h : StatementsForm isBlank c ss r') (hcs : skipBlanks cs = skipBlanks c)
    (hr' : ∀ d ∈ (skipBlanks r').head?, d ∉ ['$', '(']) :
    ∃ s rest r₁, ss = s :: rest ∧ statement cs = .ok (s, r₁) ∧
      ∀ n, r₁.length ≤ n → moreStatements n r₁ = (rest, skipBlanks r') := by
  induction h generalizing cs with
  | @one c r₁ r' s hb h =>
    refine ⟨s, [], skipBlanks r', rfl, statement_of_statementForm h (hcs.trans hb.skipBlanks_eq),
      fun n _ => moreStatements_of_not_head ?_ n⟩
    rw [(bare_skipBlanks r').skipBlanks_eq]
    exact hr'
  | @more c r₁ r₂ r' s ss hb h hs ih =>
    obtain ⟨s', rest, r₃, rfl, hs', hrest⟩ := ih (bare_skipBlanks r₂).skipBlanks_eq hr'
    have hshorter := length_lt_of_statement hs'
    refine ⟨s, s' :: rest, skipBlanks r₂, rfl,
      statement_of_statementForm h (hcs.trans hb.skipBlanks_eq), fun n hn => ?_⟩
    obtain ⟨m, rfl⟩ : ∃ m, n = m + 1 := Nat.exists_eq_succ_of_ne_zero (by omega)
    unfold moreStatements
    rw [hs']
    dsimp only
    rw [hrest m (by omega)]

theorem statements_of_statementsForm {ss : List WrittenStatement} (h : StatementsForm isBlank c ss r')
    (hcs : skipBlanks cs = skipBlanks c) (hr' : ∀ d ∈ (skipBlanks r').head?, d ∉ ['$', '(']) :
    statements cs = .ok (ss, skipBlanks r') := by
  obtain ⟨s, rest, r₁, rfl, hs, hrest⟩ := moreStatements_of_statementsForm h hcs hr'
  refine Except.bind_eq_ok.mpr ⟨(s, r₁), hs, ?_⟩
  dsimp only
  rw [hrest r₁.length le_rfl]
  rfl

theorem finish_eq_ok : finish cs = .ok () ↔ Blanks isBlank cs [] := by
  unfold finish
  constructor
  · intro h
    split at h
    · next hcs => exact blanks_of_skipBlanks_eq hcs
    · cases h
  · intro h
    rw [h.skipBlanks_eq]
    rfl

/-- Blanks may stand before statements. -/
theorem StatementsForm.of_blanks {blank : Char → Bool} {ss : List WrittenStatement}
    (hb : Blanks blank cs c) (h : StatementsForm blank c ss r) : StatementsForm blank cs ss r := by
  cases h with
  | one hb' h => exact .one (hb.trans hb') h
  | more hb' h hs => exact .more (hb.trans hb') h hs

/-- A text is read as a pattern if and only if the pattern is derived from it. -/
theorem pattern_eq_ok_iff {written : List WrittenStatement} :
    pattern cs = .ok written ↔ PatternForm isBlank cs written [] := by
  constructor
  · intro h
    obtain ⟨⟨ss, r⟩, hs, h⟩ := Except.bind_eq_ok.mp h
    obtain ⟨_, hfinish, h⟩ := Except.bind_eq_ok.mp h
    obtain rfl := Except.ok.inj h
    obtain ⟨r', hform, hr'⟩ := exists_statementsForm_of_statements hs
    exact .intro (hform.of_blanks (blanks_skipBlanks _))
      ((blanks_of_skipBlanks_eq hr').trans (finish_eq_ok.mp hfinish))
  · rintro ⟨h, hb⟩
    have hend : skipBlanks _ = [] := hb.skipBlanks_eq
    refine Except.bind_eq_ok.mpr ⟨(written, []), ?_, rfl⟩
    have hs := statements_of_statementsForm h (bare_skipBlanks cs).skipBlanks_eq (by simp [hend])
    rwa [hend] at hs

/-- A text is read as a rule if and only if the rule is derived from it. -/
theorem rule_eq_ok_iff {body head : List WrittenStatement} :
    rule cs = .ok (body, head) ↔ RuleForm isBlank cs (body, head) [] := by
  constructor
  · intro h
    obtain ⟨⟨ss, r⟩, hs, h⟩ := Except.bind_eq_ok.mp h
    dsimp only at h
    split at h
    · cases h
    · next r₁ harrow =>
      obtain ⟨⟨ss', r₂⟩, hs', h⟩ := Except.bind_eq_ok.mp h
      obtain ⟨_, hfinish, h⟩ := Except.bind_eq_ok.mp h
      obtain ⟨rfl, rfl⟩ := Prod.mk.inj (Except.ok.inj h)
      obtain ⟨r₃, hform, hr₃⟩ := exists_statementsForm_of_statements hs
      obtain ⟨r₄, hform', hr₄⟩ := exists_statementsForm_of_statements hs'
      refine .intro (.intro (hform.of_blanks (blanks_skipBlanks _)) ?_)
        (.intro (hform'.of_blanks (blanks_skipBlanks _)) ?_)
      · have hb : Blanks isBlank r (skipBlanks r) := blanks_skipBlanks r
        rw [afterWord?_eq_some.mp harrow] at hb
        exact (blanks_of_skipBlanks_eq hr₃).trans hb
      · exact (blanks_of_skipBlanks_eq hr₄).trans (finish_eq_ok.mp hfinish)
  · rintro ⟨⟨hbody, hb⟩, ⟨hhead, hb'⟩⟩
    next r₁ r₂ r₃ =>
    have harrow : skipBlanks r₂ = '=' :: '>' :: r₁ :=
      hb.skipBlanks_eq_of_bare (bare_cons.mpr (by decide))
    have hend : skipBlanks r₃ = [] := hb'.skipBlanks_eq
    have hs := statements_of_statementsForm hbody (bare_skipBlanks cs).skipBlanks_eq (by simp [harrow])
    have hs' := statements_of_statementsForm hhead (bare_skipBlanks r₁).skipBlanks_eq (by simp [hend])
    refine Except.bind_eq_ok.mpr ⟨_, hs, ?_⟩
    have hword : afterWord? ['=', '>'] (skipBlanks (skipBlanks r₂)) = some r₁ := by
      rw [(bare_skipBlanks r₂).skipBlanks_eq]
      exact afterWord?_eq_some.mpr harrow
    dsimp only
    rw [hword]
    dsimp only
    rw [hs', hend]
    rfl

/-- No text is two patterns. -/
theorem PatternForm.unique {written written' : List WrittenStatement}
    (h : PatternForm isBlank cs written []) (h' : PatternForm isBlank cs written' []) :
    written = written' :=
  Except.ok.inj ((pattern_eq_ok_iff.mpr h).symm.trans (pattern_eq_ok_iff.mpr h'))

end Grammar

open GraphInference.Grammar (PatternForm RuleForm)

theorem Conjunction.gives_ofText_iff {text : String} {s t : Supply} {c : Conjunction} :
    (Conjunction.ofText text).Gives s c t ↔ ∃ written, PatternForm isBlank text.toList written [] ∧
      (Conjunction.ofWritten written).run s = (c, t) := by
  unfold Conjunction.ofText
  constructor
  · intro h
    split at h
    · next written hw => exact ⟨written, Grammar.pattern_eq_ok_iff.mp hw, gives_lift.mp h⟩
    · exact absurd h not_gives_throw
  · rintro ⟨written, hw, hrun⟩
    rw [Grammar.pattern_eq_ok_iff.mpr hw]
    exact gives_lift.mpr hrun

theorem Rule.gives_ofText_iff {label text : String} {s t : Supply} {r : Rule} :
    (Rule.ofText label text).Gives s r t ↔ ∃ body head b h u,
      RuleForm isBlank text.toList (body, head) [] ∧ (Conjunction.ofWritten body).run s = (b, u) ∧
        (Conjunction.ofWritten head).run u = (h, t) ∧ Rule.ofParts? label b h = .ok r := by
  unfold Rule.ofText
  constructor
  · intro hr
    split at hr
    · exact absurd hr not_gives_throw
    · next body head hw =>
      obtain ⟨b, u, hb, hr⟩ := gives_bind.mp hr
      obtain ⟨h, v, hh, hr⟩ := gives_bind.mp hr
      obtain ⟨hparts, rfl⟩ := gives_liftExcept.mp hr
      exact ⟨body, head, b, h, u, Grammar.rule_eq_ok_iff.mp hw, gives_lift.mp hb, gives_lift.mp hh,
        hparts⟩
  · rintro ⟨body, head, b, h, u, hw, hb, hh, hparts⟩
    rw [Grammar.rule_eq_ok_iff.mpr hw]
    exact gives_bind.mpr ⟨b, u, gives_lift.mpr hb, gives_bind.mpr ⟨h, t, gives_lift.mpr hh,
      gives_liftExcept.mpr ⟨hparts, rfl⟩⟩⟩

/-- A text stands for a conjunction if and only if a pattern is derived from it, and then for the
conjunction of that pattern; likewise for the body and the head of a rule and for the rule. -/
theorem gives_ofText_iff_derived :
    (∀ (text : String) (s t : Supply) (c : Conjunction), (Conjunction.ofText text).Gives s c t ↔
      ∃ written, PatternForm isBlank text.toList written [] ∧
        (Conjunction.ofWritten written).run s = (c, t)) ∧
    (∀ (text : String) (body head : List WrittenStatement),
      Grammar.rule text.toList = .ok (body, head) ↔ RuleForm isBlank text.toList (body, head) []) ∧
    ∀ (label text : String) (s t : Supply) (r : Rule), (Rule.ofText label text).Gives s r t ↔
      ∃ body head b h u, RuleForm isBlank text.toList (body, head) [] ∧
        (Conjunction.ofWritten body).run s = (b, u) ∧ (Conjunction.ofWritten head).run u = (h, t) ∧
          Rule.ofParts? label b h = .ok r :=
  ⟨fun _ _ _ _ => Conjunction.gives_ofText_iff, fun _ _ _ => Grammar.rule_eq_ok_iff,
    fun _ _ _ _ _ => Rule.gives_ofText_iff⟩

/-- The white space of ASCII: what may stand between tokens, and the form feed. -/
def Text.isAsciiWhiteSpace (c : Char) : Bool :=
  isBlank c || c = '\x0c'

open GraphInference.Grammar in
/-- A form feed does not stand for a blank, although with all ASCII white space as blanks there would be a
derivation. -/
theorem not_gives_ofText_iff_derived_of_isAsciiWhiteSpace :
    ¬ ∀ (text : String) (s : Supply), (∃ c t, (Conjunction.ofText text).Gives s c t) ↔
      ∃ written, PatternForm isAsciiWhiteSpace text.toList written [] := by
  intro h
  have hname {p : Char → Bool} {d e : Char} {r : List Char} (hd : p d = true) (he : p e = false) :
      Run p (d :: e :: r) [d] (e :: r) :=
    ⟨rfl, List.cons_ne_nil d [], by simpa using hd, by simpa using he⟩
  have hx : Run isVarChar ['x', '\x0c', 'i', 's', 'a', ' ', 'a', ';'] ['x']
      ['\x0c', 'i', 's', 'a', ' ', 'a', ';'] := hname rfl rfl
  have ha : Run isLabelChar ['a', ';'] ['a'] [';'] := hname rfl rfl
  have hstatement : StatementForm isAsciiWhiteSpace "$x\x0cisa a;".toList _ [] :=
    .intro (.some (.intro hx)) (.more (by decide) (.none _)) (.none _) (.none _)
      (.some (.one (.isa (.intro (by decide) (.none _)) (.label (.intro ha))))) (.none _) (.inl rfl)
      (.inr rfl)
  obtain ⟨c, t, hgives⟩ := (h "$x\x0cisa a;" {}).mpr ⟨_, .intro (.one (.none _) hstatement) (.none _)⟩
  obtain ⟨written, hw, -⟩ := Conjunction.gives_ofText_iff.mp hgives
  have hrefused : (pattern "$x\x0cisa a;".toList).isOk = false := by decide
  rw [pattern_eq_ok_iff.mpr hw] at hrefused
  cases hrefused

end GraphInference
