import GraphInference.Proofs.Resolution.Coherence
import GraphInference.Proofs.Resolution.Images
import GraphInference.Proofs.Rule.Dependencies
import GraphInference.Proofs.Unification.Hygiene

/-!
# Settings that mirror each other

Two settings mirror each other if they differ in the names of the rules' variables only and the rules are hygienic
under both (`Setting.Mirrors`). Queries are mirrored if they are copies of one query and of the same query under
other names. Equivalent queries then exchange their answers alike (`Setting.Mirrors.exists_exchange`), so that what
is found, derived, served and recorded under the new names is what it is under the old ones, renamed.
-/

namespace GraphInference

open AtomicQuery Binding Resolve

theorem rel_find? {α β : Type} {R : α → β → Prop} {l : List α} {m : List β} {p : α → Bool} {q : β → Bool}
    (h : List.Forall₂ R l m) (hpq : ∀ a b, R a b → p a = q b) : Option.Rel R (l.find? p) (m.find? q) := by
  induction h with
  | nil => exact .none
  | @cons a b _ _ hr _ ih =>
    rw [List.find?_cons, List.find?_cons, hpq a b hr]
    cases q b with
    | true => exact .some hr
    | false => exact ih

namespace AnswerCache

variable {known : AnswerCache} {q : AtomicQuery} {e : AnswerClass} {u w : Unifier} {b : Binding}

theorem not_serves_of_class? (h : known.class? q = none) : ¬ known.Serves q b := by
  intro hb
  obtain ⟨e, _, _, he, -⟩ := serves_iff.mp hb
  cases h.symm.trans he

theorem serves_iff_of_class? (he : known.class? q = some e) (hu : q.unifier e.query = .ok u) (hw : u.inverse = .ok w) :
    known.Serves q b ↔ ∃ d, e.answers.Has d ∧ d.relabel w.apply = b := by
  rw [serves_iff]
  refine ⟨?_, fun hb => ⟨e, u, w, he, hu, hw, hb⟩⟩
  rintro ⟨e', u', w', he', hu', hw', hb⟩
  obtain rfl := Option.some.inj (he.symm.trans he')
  obtain rfl := Except.ok.inj (hu.symm.trans hu')
  obtain rfl := Except.ok.inj (hw.symm.trans hw')
  exact hb

theorem has_recordIn_of_unifier {as : List Answer} (hu : q.unifier e.query = .ok u) :
    (recordIn e q as).2.answers.Has b ↔ e.answers.Has b ∨ ∃ d, AnswerSet.Has ⟨as⟩ d ∧ d.relabel u.apply = b := by
  rw [has_recordIn, hu]
  refine or_congr_right ⟨?_, ?_⟩
  · rintro ⟨_, heq, a, ha, rfl⟩
    exact ⟨_, ⟨a, ha, rfl⟩, Except.ok.inj heq ▸ rfl⟩
  · rintro ⟨_, ⟨a, ha, rfl⟩, rfl⟩
    exact ⟨u, rfl, a, ha, rfl⟩

end AnswerCache

/-! ## Rules that are renamed apart -/

/-- A rule is found under its number. -/
theorem RuleSet.Built.get?_id {rules : RuleSet} (h : rules.Built) {c : CompiledRule} (hc : c ∈ rules.rules) :
    rules.get? c.id = some c := by
  obtain ⟨i, hi⟩ := List.getElem?_of_mem hc
  rw [get?, h.id_eq hi]
  exact hi

namespace CompiledRule.RenamedBy

variable {b b' c c' : CompiledRule} {u w : Unifier} {v : Var}

theorem exists_of_binds (h : c.RenamedBy w c') (hv : Binds c'.body v) : ∃ x, Binds c.body x ∧ w.apply x = v := by
  obtain ⟨p', hp', hv⟩ := hv
  rw [h.body] at hp'
  obtain ⟨p, hp, rfl⟩ := List.mem_map.mp hp'
  obtain ⟨x, hx, rfl⟩ := (mem_userVars_rename h.permutes).mp hv
  exact ⟨x, ⟨p, hp, hx⟩, rfl⟩

theorem dependsOn_eq (h : c.RenamedBy w c') (h' : b.RenamedBy u b') : c'.dependsOn b' = c.dependsOn b := by
  unfold dependsOn
  rw [h.body, h'.central_head, List.any_map]
  simp only [Function.comp_def, AtomicQuery.rename, Atom.family_rename, Atom.typeId?_rename]

end CompiledRule.RenamedBy

/-- Which rules are recursive does not depend on the names of their variables. -/
theorem RuleSet.isRecursive_eq_of_renamedBy {rules rules' : RuleSet}
    (h : List.Forall₂ (fun c c' => ∃ w, c.RenamedBy w c') rules.rules rules'.rules) :
    rules'.isRecursive = rules.isRecursive := by
  have hdependencies : rules'.dependenciesOf = rules.dependenciesOf := by
    funext id
    have hids {c c' : CompiledRule} {w : Unifier} (hc : c.RenamedBy w c') :
        (rules'.rules.filter c'.dependsOn).map CompiledRule.id =
          (rules.rules.filter c.dependsOn).map CompiledRule.id := by
      generalize rules.rules = bs at h
      generalize rules'.rules = bs' at h
      induction h with
      | nil => rfl
      | cons hb _ ih =>
        obtain ⟨u, hb⟩ := hb
        rw [List.filter_cons, List.filter_cons, hc.dependsOn_eq hb]
        split
        · rw [List.map_cons, List.map_cons, ih, hb.id]
        · exact ih
    unfold dependenciesOf RuleSet.get?
    rcases hc : rules.rules[id.index]? with _ | c
    · rw [List.getElem?_eq_none (h.length_eq ▸ List.getElem?_eq_none_iff.mp hc)]
    · obtain ⟨c', hc', w, hrenamed⟩ := getElem?_of_forall₂ h hc
      rw [hc']
      exact hids hrenamed
  have hreach (n : Nat) (ids : List RuleId) : rules'.reach n ids = rules.reach n ids := by
    induction n generalizing ids with
    | zero => rfl
    | succ n ih => rw [reach, reach, hdependencies, ih]
  have hsize : rules'.size = rules.size := h.length_eq.symm
  funext id
  rw [isRecursive, isRecursive, hdependencies, hsize, hreach]

/-! ## Queries -/

/-- The queries are copies of one query of a list and of the same query under other names, which is one of another
list. -/
structure AtomicQuery.Mirrored (queries queries' : List AtomicQuery) (u : Unifier) (p q q' : AtomicQuery) : Prop where
  permutes : u.Permutes
  tidy : p.Tidy
  mem : p ∈ queries
  mem_rename : p.rename u ∈ queries'
  copy : q.IsCopyOf p
  copy_rename : q'.IsCopyOf (p.rename u)

/-- The classes are of mirrored queries and have the same answers under the names of their own. -/
def AnswerClass.Mirrored (queries queries' : List AtomicQuery) (e e' : AnswerClass) : Prop :=
  ∃ u p, AtomicQuery.Mirrored queries queries' u p e.query e'.query ∧ Images u.apply e.answers.Has e'.answers.Has

/-- The settings differ in the names of the rules' variables only, and no rule captures variables, neither under the
old names nor under the new ones. -/
structure Setting.Mirrors (s s' : Setting) (queries queries' : List AtomicQuery) : Prop where
  transaction : s'.transaction = s.transaction
  config : s'.config = s.config
  rules : List.Forall₂ (fun c c' => ∃ w, c.RenamedBy w c') s.rules.rules s'.rules.rules
  coherent : s.Coherent queries
  coherent_renamed : s'.Coherent queries'
  hygienic : s.rules.Hygienic queries
  hygienic_renamed : s'.rules.Hygienic queries'

namespace AtomicQuery

theorem isEquivalent_rename_rename {q r : AtomicQuery} {u w : Unifier} (hu : u.Permutes) (hw : w.Permutes) :
    (q.rename u).isEquivalent (r.rename w) = q.isEquivalent r := by
  have hq : (q.rename u).isEquivalent q = true := isEquivalent_rename (hu.renaming _)
  have hr : (r.rename w).isEquivalent r = true := isEquivalent_rename (hw.renaming _)
  rw [Bool.eq_iff_iff]
  exact ⟨fun h => isEquivalent_trans (isEquivalent_symm hq) (isEquivalent_trans h hr),
    fun h => isEquivalent_trans hq (isEquivalent_trans h (isEquivalent_symm hr))⟩

namespace Mirrored

variable {queries queries' : List AtomicQuery} {u : Unifier} {p q q' : AtomicQuery} {i j : QueryId}

theorem renumber (h : Mirrored queries queries' u p q q') :
    Mirrored queries queries' u p (q.renumber i) (q'.renumber j) :=
  ⟨h.permutes, h.tidy, h.mem, h.mem_rename, h.copy.renumber, h.copy_rename.renumber⟩

theorem isAmong (h : Mirrored queries queries' u p q q') : q.IsAmong queries ∧ q'.IsAmong queries' :=
  ⟨⟨p, h.mem, h.copy⟩, p.rename u, h.mem_rename, h.copy_rename⟩

end Mirrored

end AtomicQuery

namespace Setting

variable {s s' : Setting} {queries queries' : List AtomicQuery} {u w y y' : Unifier} {p q q' o r r' : AtomicQuery}
  {c c' : CompiledRule} {b m : Binding} {g₁ g₂ : Graph}

namespace Mirrors

variable (h : s.Mirrors s' queries queries')

include h

theorem decomposed (hq : Mirrored queries queries' u p q q') :
    ∃ g₁ g₂, p.Decomposed g₁ ∧ (p.rename u).Decomposed g₂ := by
  obtain ⟨g₁, -, hp⟩ := h.coherent.made p hq.mem
  obtain ⟨g₂, -, hp'⟩ := h.coherent_renamed.made _ hq.mem_rename
  exact ⟨g₁, g₂, hp, hp'⟩

theorem isEquivalent_eq (hq : Mirrored queries queries' u p q q') (hr : Mirrored queries queries' w o r r') :
    q'.isEquivalent r' = q.isEquivalent r := by
  obtain ⟨_, _, hp, hp'⟩ := h.decomposed hq
  obtain ⟨_, _, ho, ho'⟩ := h.decomposed hr
  rw [hq.copy.isEquivalent_eq hr.copy hp.predicates ho.predicates,
    hq.copy_rename.isEquivalent_eq hr.copy_rename hp'.predicates ho'.predicates,
    isEquivalent_rename_rename hq.permutes hr.permutes]

theorem meets_eq {path path' : ResolutionPath} (hq : Mirrored queries queries' u p q q')
    (hpath : List.Forall₂ (fun r r' => ∃ w o, Mirrored queries queries' w o r r') path path') :
    path'.meets q' = path.meets q := by
  unfold ResolutionPath.meets
  induction hpath with
  | nil => rfl
  | cons hr _ ih =>
    obtain ⟨w, o, hr⟩ := hr
    rw [List.any_cons, List.any_cons, h.isEquivalent_eq hr hq, ih]

/-- The unifiers of equivalent queries and their inverses do the same under the old names and under the new ones. -/
theorem exists_exchange (hq : Mirrored queries queries' u p q q') (hr : Mirrored queries queries' w o r r')
    (heq : q.isEquivalent r = true) : ∃ y z y' z', q.unifier r = .ok y ∧ y.inverse = .ok z ∧
      q'.unifier r' = .ok y' ∧ y'.inverse = .ok z' ∧
      (∀ b : Binding, (∀ v, b.contains v = true → v ∈ q.userVars) →
        (b.relabel u.apply).relabel y'.apply = (b.relabel y.apply).relabel w.apply) ∧
      ∀ b : Binding, (∀ v, b.contains v = true → v ∈ r.userVars) →
        (b.relabel w.apply).relabel z'.apply = (b.relabel z.apply).relabel u.apply := by
  have heq' : q'.isEquivalent r' = true := (h.isEquivalent_eq hq hr).trans heq
  obtain ⟨_, _, hp, hp'⟩ := h.decomposed hq
  obtain ⟨_, _, ho, ho'⟩ := h.decomposed hr
  obtain ⟨y, z, hexchange⟩ := h.coherent.exists_exchange (I := s.Entails) proper_entails hq.isAmong.1 hr.isAmong.1 heq
  obtain ⟨y', z', hexchange'⟩ := h.coherent_renamed.exists_exchange (I := s'.Entails) proper_entails
    hq.isAmong.2 hr.isAmong.2 heq'
  rw [hq.copy.isEquivalent_eq hr.copy hp.predicates ho.predicates] at heq
  rw [hq.copy_rename.isEquivalent_eq hr.copy_rename hp'.predicates ho'.predicates] at heq'
  have hy : p.unifier o = .ok y := (hq.copy.unifier_eq hr.copy).symm.trans hexchange.unifier
  have hy' : (p.rename u).unifier (o.rename w) = .ok y' :=
    (hq.copy_rename.unifier_eq hr.copy_rename).symm.trans hexchange'.unifier
  obtain ⟨x, hx, hrespects⟩ := h.coherent.unifiers p hq.mem o hr.mem heq
  obtain rfl := Except.ok.inj ((Except.toOption_eq_some_iff.mp hx).symm.trans hy)
  obtain ⟨x', hx', hrespects'⟩ := h.coherent_renamed.unifiers _ hq.mem_rename _ hr.mem_rename heq'
  obtain rfl := Except.ok.inj ((Except.toOption_eq_some_iff.mp hx').symm.trans hy')
  have hcomm : ∀ v ∈ p.slots, x'.apply (u.apply v) = w.apply (x.apply v) :=
    apply_apply_of_settled hq.permutes hr.permutes hq.tidy hr.tidy hp.central.1
      (h.hygienic.queries p hq.mem o hr.mem heq) (h.hygienic_renamed.queries _ hq.mem_rename _ hr.mem_rename heq')
      hy hy' hrespects.renames hrespects'.renames
  have hslot {v : Var} (hv : v ∈ q.userVars) : v ∈ p.slots :=
    mem_slots_of_mem_userVars hp (hq.copy.userVars_eq ▸ hv)
  refine ⟨x, z, x', z', hexchange.unifier, hexchange.inverse, hexchange'.unifier, hexchange'.inverse,
    fun b hb => relabel_comm (fun v hv => hcomm v (hslot (hb v hv))) fun v v' hv hv' heq => ?_,
    fun b hb => relabel_comm (fun v hv => ?_) fun v v' hv hv' heq => ?_⟩
  · rw [← hexchange.forth_back v (hb v hv), hr.permutes.injective heq, hexchange.forth_back v' (hb v' hv')]
  · -- the variable comes from one of the other query, where the unifiers commute
    have hv : v ∈ o.userVars := hr.copy.userVars_eq ▸ hb v hv
    obtain ⟨a, ha, rfl⟩ := hrespects.renames.mem_slots_iff.mp (mem_slots_of_mem_userVars ho hv)
    have ha : a ∈ p.userVars := (hrespects.renames.mem_userVars_iff hp ho ha).mp hv
    have ha' : u.apply a ∈ q'.userVars :=
      hq.copy_rename.userVars_eq ▸ (mem_userVars_rename hq.permutes).mpr ⟨a, ha, rfl⟩
    have ha : a ∈ q.userVars := hq.copy.userVars_eq ▸ ha
    rw [← hcomm a (hslot ha), hexchange'.forth_back _ ha', hexchange.forth_back a ha]
  · rw [← hexchange.back_forth v (hb v hv), hq.permutes.injective heq, hexchange.back_forth v' (hb v' hv')]

/-- What is found under the new names is what is found under the old ones, renamed. -/
theorem images_found (hq : Mirrored queries queries' u p q q') : Images u.apply (s.Found q) (s'.Found q') := by
  obtain ⟨g₁, g₂, hp, hp'⟩ := h.decomposed hq
  have hg := h.coherent.reachable.wellFormed
  have hrenames := hq.tidy.renames_rename hq.permutes
  have hlabel : (p.rename u).central.label? = p.central.label? := Atom.label?_rename
  obtain ⟨τ, hτ⟩ := hq.permutes.injective.hasLeftInverse
  refine (Images.of_inverse (τ := τ) (B := s.Found p) (fun b hb => hb.relabel h.transaction hg hp hp' hlabel hrenames)
    (fun b hb => hb.relabel h.transaction.symm (h.transaction.symm ▸ hg) hp' hp hlabel.symm
      (hrenames.symm_of_leftInverse hp fun v _ => hτ v)) fun b hb => relabel_relabel fun v hv => ?_).congr
    (fun _ => hq.copy.found_iff) fun _ => hq.copy_rename.found_iff
  obtain ⟨-, m, -, rfl⟩ := hb
  obtain ⟨i, hi⟩ := SortedMap.contains_iff_isSome.mp hv
  obtain ⟨x, -, rfl⟩ := (mem_userVars_rename hq.permutes).mp (find?_restrict_userVars.mp hi).1
  rw [hτ]

/-- What a joined row of the renamed body gives the renamed query is what the row gives the query, renamed. -/
theorem yields_rename_iff (hq : Mirrored queries queries' u p q q') (hc : c.RenamedBy w c')
    (htracks : y.Tracks u.apply w.apply p y' c.body c'.body) (hm : ∀ v, m.contains v = true → Binds c.body v) :
    s'.Yields q' y' (m.relabel w.apply) b ↔ ∃ d, s.Yields q y m d ∧ d.relabel u.apply = b := by
  obtain ⟨g₁, g₂, hp, hp'⟩ := h.decomposed hq
  have hrenames := hq.tidy.renames_rename hq.permutes
  have hforth {d : Binding} (hd : s.Yields p y m d) :
      s'.Yields (p.rename u) y' (m.relabel w.apply) (d.relabel u.apply) :=
    hd.relabel h.transaction hp hp' hrenames (fun _ _ _ _ heq => hc.permutes.injective heq)
      (fun _ => hc.binds_iff.mpr) htracks hm
  simp only [hq.copy_rename.yields_iff, hq.copy.yields_iff]
  constructor
  · intro hb
    obtain ⟨σ, hσ⟩ := hq.permutes.injective.hasLeftInverse
    obtain ⟨τ, hτ⟩ := hc.permutes.injective.hasLeftInverse
    have htracks' : Unifier.Tracks σ τ (p.rename u) y' y c'.body c.body := by
      intro v hv
      obtain ⟨x, hx, rfl⟩ := hrenames.mem_slots_iff.mp hv
      rw [hσ]
      refine (htracks x hx).imp (fun ⟨hbinds, heq⟩ => ?_) And.symm
      rw [heq, hτ]
      exact ⟨hc.binds_iff.mpr hbinds, rfl⟩
    have hback : s.Yields p y ((m.relabel w.apply).relabel τ) (b.relabel σ) := by
      refine hb.relabel h.transaction.symm hp' hp (hrenames.symm_of_leftInverse hp fun v _ => hσ v)
        (fun v v' hv hv' heq => ?_) (fun v hv => ?_) htracks' fun v hv => ?_
      · obtain ⟨x, -, rfl⟩ := hc.exists_of_binds hv
        obtain ⟨x', -, rfl⟩ := hc.exists_of_binds hv'
        rw [hτ, hτ] at heq
        rw [heq]
      · obtain ⟨x, hx, rfl⟩ := hc.exists_of_binds hv
        rwa [hτ]
      · obtain ⟨x, hx, rfl⟩ := (contains_relabel_iff fun _ _ _ _ heq => hc.permutes.injective heq).mp hv
        exact hc.binds_iff.mpr (hm x hx)
    rw [relabel_relabel fun v _ => hτ v] at hback
    exact ⟨_, hback, (hforth hback).eq.symm.trans hb.eq⟩
  · rintro ⟨d, hd, rfl⟩
    exact hforth hd

end Mirrors

/-! ## What is known -/

/-- The reasoners trust what they know, and know the same under the names of their own. -/
structure Shares (s s' : Setting) (queries queries' : List AtomicQuery) (k : Knowledge) (n : Nat) (k' : Knowledge)
    (n' : Nat) : Prop where
  trusts : s.Trusts queries k n
  trusts_renamed : s'.Trusts queries' k' n'
  classes : List.Forall₂ (AnswerClass.Mirrored queries queries') k.known.classes k'.known.classes

variable {k k' l l' : Knowledge} {n n' : Nat} {as as' : List Answer}

theorem Trusts.bound (hk : s.Trusts queries k n) {e : AnswerClass} (he : e ∈ k.known.classes) {b : Binding}
    (hb : e.answers.Has b) (v : Var) (hv : b.contains v = true) : v ∈ e.query.userVars :=
  ((hk.entailed e he).2 b hb).mem_userVars hv

namespace Mirrors

variable (h : s.Mirrors s' queries queries')

include h

/-- What mirrored queries are served is mirrored. -/
theorem images_serves (hk : s.Shares s' queries queries' k n k' n') (hq : Mirrored queries queries' u p q q') :
    Images u.apply (k.known.Serves q) (k'.known.Serves q') := by
  have hclass : Option.Rel (AnswerClass.Mirrored queries queries') (k.known.class? q) (k'.known.class? q') :=
    rel_find? hk.classes fun _ _ ⟨_, _, he, _⟩ => (h.isEquivalent_eq he hq).symm
  rcases he : k.known.class? q with _ | e <;> rcases he' : k'.known.class? q' with _ | e' <;>
    rw [he, he'] at hclass
  · exact .none (fun _ => AnswerCache.not_serves_of_class? he) fun _ => AnswerCache.not_serves_of_class? he'
  · cases hclass
  · cases hclass
  · obtain ⟨w, o, hr, himages⟩ := Option.rel_some_some.mp hclass
    have heq : e.query.isEquivalent q = true := by simpa using List.find?_some he
    obtain ⟨y, z, y', z', hy, hz, hy', hz', -, hback⟩ := h.exists_exchange hq hr (isEquivalent_symm heq)
    have hbound {b : Binding} (hb : e.answers.Has b) := hk.trusts.bound (List.mem_of_find?_eq_some he) hb
    exact (himages.relabel fun b hb => hback b (hbound hb)).congr
      (fun _ => AnswerCache.serves_iff_of_class? he hy hz) fun _ => AnswerCache.serves_iff_of_class? he' hy' hz'

/-- Mirrored answers are recorded in mirrored classes. -/
theorem forall₂_recordAmong (hq : Mirrored queries queries' u p q q')
    (has : Images u.apply (AnswerSet.Has ⟨as⟩) (AnswerSet.Has ⟨as'⟩))
    (hbound : ∀ a ∈ as, ∀ v, a.binding.contains v = true → v ∈ q.userVars) {classes classes' : List AnswerClass}
    (hclasses : List.Forall₂ (AnswerClass.Mirrored queries queries') classes classes') :
    List.Forall₂ (AnswerClass.Mirrored queries queries') (AnswerCache.recordAmong q as classes).2
      (AnswerCache.recordAmong q' as' classes').2 := by
  have hrecord {e e' : AnswerClass} (he : e.Mirrored queries queries' e') (heq : e.query.isEquivalent q = true) :
      AnswerClass.Mirrored queries queries' (AnswerCache.recordIn e q as).2 (AnswerCache.recordIn e' q' as').2 := by
    obtain ⟨w, o, hr, himages⟩ := he
    obtain ⟨y, z, y', z', hy, -, hy', -, hforth, -⟩ := h.exists_exchange hq hr (isEquivalent_symm heq)
    have hrenamed : Images w.apply (fun b => ∃ d, AnswerSet.Has ⟨as⟩ d ∧ d.relabel y.apply = b)
        fun b => ∃ d, AnswerSet.Has ⟨as'⟩ d ∧ d.relabel y'.apply = b := has.relabel fun b hb => by
      obtain ⟨a, ha, rfl⟩ := hb
      exact hforth _ (hbound a ha)
    refine ⟨w, o, ?_, (himages.or hrenamed).congr (fun _ => AnswerCache.has_recordIn_of_unifier hy)
      fun _ => AnswerCache.has_recordIn_of_unifier hy'⟩
    rwa [AnswerCache.query_recordIn, AnswerCache.query_recordIn]
  induction hclasses with
  | nil =>
    refine .cons (hrecord ⟨u, p, hq, .none ?_ ?_⟩ (isEquivalent_refl q)) .nil
    · exact fun _ ⟨_, ha, _⟩ => nomatch ha
    · exact fun _ ⟨_, ha, _⟩ => nomatch ha
  | cons he hes ih =>
    obtain ⟨w, o, hr, -⟩ := id he
    rw [AnswerCache.recordAmong, AnswerCache.recordAmong, h.isEquivalent_eq hr hq]
    split
    · next heq => exact .cons (hrecord he heq) hes
    · exact .cons he ih

end Mirrors

end Setting

end GraphInference
