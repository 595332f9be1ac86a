import GraphInference.Proofs.Resolution.Derivability

/-!
# Equivalent queries exchange their answers

Where the unifier of any two equivalent queries is a renaming that the rules respect
(`Setting.Coherent`), what follows for the one follows for the other, renamed there and back
(`Setting.Exchange`). Then the answers that a stream finds follow from the graph by the rules, whatever was
resolved before and however queries are cut short on their path: `Setting.Coherent.entails_of_gives_drain`.
-/

namespace GraphInference

open AtomicQuery

namespace AtomicQuery

variable {queries : List AtomicQuery} {q r : AtomicQuery} {g : Graph} {t : Supply} {k : Knowledge}

/-- The query is one of a list, under its number or another. -/
def IsAmong (queries : List AtomicQuery) (q : AtomicQuery) : Prop :=
  ∃ p ∈ queries, q.IsCopyOf p

theorem isAmong_of_mem (h : q ∈ queries) : q.IsAmong queries :=
  ⟨q, h, .refl q⟩

theorem IsAmong.renumber (h : q.IsAmong queries) {i : QueryId} : (q.renumber i).IsAmong queries := by
  obtain ⟨p, hp, hq⟩ := h
  exact ⟨p, hp, hq.renumber⟩

namespace IsCopyOf

theorem decomposed (h : q.IsCopyOf r) (hr : r.Decomposed g) : q.Decomposed g := by
  refine ⟨?_, h.hasPredicates hr.predicates⟩
  rcases h with rfl | ⟨i, rfl⟩
  · exact hr.central
  · exact hr.central.withQuery i

theorem freshFrom (h : q.IsCopyOf r) (hr : r.FreshFrom t) : q.FreshFrom t := by
  rcases h with rfl | ⟨i, rfl⟩
  · exact hr
  · exact fun n hn hnames => hr n hn (names_renumber.mp hnames)

theorem text_eq (h : q.IsCopyOf r) : q.text = r.text := by
  rw [text, text, h.toConjunction_eq]

theorem keepsPlansOf (h : q.IsCopyOf r) (hr : k.KeepsPlansOf r) : k.KeepsPlansOf q := by
  intro e he htext
  obtain ⟨u, t, hu, hplan⟩ := hr e he (htext.trans h.text_eq)
  exact ⟨u, t, h.freshFrom hu, h.toConjunction_eq ▸ hplan⟩

end IsCopyOf

end AtomicQuery

namespace Resolve

variable {s : Setting} {q : AtomicQuery} {k k' : Knowledge} {t t' : Supply} {as : List Answer}

theorem known_of_gives_plan {c : Conjunction} {p : Program} (h : (plan c).Gives k t p k' t') :
    k'.known = k.known := by
  have hrun : ((plan c).run.run k).run t = _ := h
  rw [← congrArg (fun r => r.1.2.known) hrun]
  rfl

/-- A look-up makes no answers known. -/
theorem known_of_gives_lookup (h : (lookup s q).Gives k t as k' t') : k'.known = k.known := by
  rcases exists_plan_of_gives_lookup h with ⟨rfl, -⟩ | ⟨p, u, hp, -⟩
  · rfl
  · exact known_of_gives_plan hp

end Resolve

namespace Setting

/-! ## Exchange -/

/-- What follows for one query follows for the other, renamed by the unifier, and what follows for the
other follows for the one, renamed by its inverse. -/
structure Exchange (s : Setting) (I : Interpretation) (q r : AtomicQuery) (u w : Unifier) : Prop where
  unifier : q.unifier r = .ok u
  inverse : u.inverse = .ok w
  forth : ∀ b, s.Infers I q b → s.Infers I r (b.relabel u.apply)
  back : ∀ b, s.Infers I r b → s.Infers I q (b.relabel w.apply)
  forth_back : ∀ v ∈ q.userVars, w.apply (u.apply v) = v
  back_forth : ∀ v ∈ r.userVars, u.apply (w.apply v) = v

variable {s : Setting} {queries : List AtomicQuery} {I : Interpretation} {q r p : AtomicQuery}
  {u w : Unifier} {b : Binding} {ρ : Var → Var} {g₁ g₂ : Graph}

theorem Exchange.relabel_back_forth (h : s.Exchange I q r u w)
    (hb : ∀ v, b.contains v = true → v ∈ r.userVars) :
    (b.relabel w.apply).relabel u.apply = b :=
  Binding.relabel_relabel fun v hv => h.back_forth v (hb v hv)

theorem Exchange.relabel_forth_back (h : s.Exchange I q r u w)
    (hb : ∀ v, b.contains v = true → v ∈ q.userVars) :
    (b.relabel u.apply).relabel w.apply = b :=
  Binding.relabel_relabel fun v hv => h.forth_back v (hb v hv)

/-- A renaming that the rules respect carries what follows for the query. -/
theorem Infers.respects (hg : s.transaction.graph.WellFormed) (hrules : s.rules.Built)
    (hq : q.Decomposed g₁) (hr : r.Decomposed g₂) (hlabel : r.central.label? = q.central.label?)
    (h : s.rules.Respects ρ q r)
    (hI : ∀ c ∈ s.rules.rules, ∀ p ∈ c.body, ∀ b, I p b → ∀ v, b.contains v = true → v ∈ p.userVars)
    (hb : s.Infers I q b) : s.Infers I r (b.relabel ρ) := by
  refine hb.relabel rfl rfl hg hq hr hlabel h.renames fun i u c hi hc => ?_
  obtain ⟨u', c', hi', hc', htracks⟩ := h.exists_applicable hrules hi
  obtain rfl := Option.some.inj (hc.symm.trans hc')
  refine ⟨i, u', c, id, hi', hc, fun _ _ _ _ h => h, fun _ h => h, ?_, htracks⟩
  refine List.forall₂_same.mpr fun p hp b hb => ⟨hI c (List.mem_of_getElem? hc) p hp b hb, ?_⟩
  rwa [Binding.relabel_id]

/-- The queries are decomposed against the graph, have different meanings only under different texts, and
those that are equivalent are renamed into each other by their unifiers, which the rules respect. The
bodies of the rules consist of such queries. -/
structure Coherent (s : Setting) (queries : List AtomicQuery) : Prop where
  reachable : s.transaction.graph.Reachable
  built : s.rules.Built
  bodies : ∀ c ∈ s.rules.rules, ∀ p ∈ c.body, p ∈ queries
  made : ∀ q ∈ queries, q.MadeFor s.transaction.graph
  texts : ∀ q ∈ queries, ∀ r ∈ queries, q.text = r.text → q.toConjunction = r.toConjunction
  unifiers : ∀ q ∈ queries, ∀ r ∈ queries, q.isEquivalent r = true → s.rules.UnifiesWell q r

/-- An interpretation of queries whose bindings bind user-defined variables only. -/
def Proper (queries : List AtomicQuery) (I : Interpretation) : Prop :=
  ∀ p ∈ queries, ∀ b, I p b → ∀ v, b.contains v = true → v ∈ p.userVars

namespace Coherent

variable (h : s.Coherent queries)

include h

/-- Equivalent queries exchange what follows for them. -/
theorem exists_exchange (hI : Proper queries I) (hq : q.IsAmong queries) (hr : r.IsAmong queries)
    (heq : q.isEquivalent r = true) : ∃ u w, s.Exchange I q r u w := by
  obtain ⟨p, hp, hqp⟩ := hq
  obtain ⟨p', hp', hrp'⟩ := hr
  have hmade := h.made p hp
  have hmade' := h.made p' hp'
  rw [hqp.isEquivalent_eq hrp' hmade.hasPredicates hmade'.hasPredicates] at heq
  obtain ⟨u, hu, hrespects⟩ := h.unifiers p hp p' hp' heq
  obtain ⟨g₁, hg₁, hp₁⟩ := hmade
  obtain ⟨g₂, hg₂, hp₂⟩ := hmade'
  have hg := h.reachable.wellFormed
  have hunifier := Except.toOption_eq_some_iff.mp hu
  have hlabel := label?_eq_of_isEquivalent hg hg₁ hg₂ hp₁ hp₂ heq
  obtain ⟨w, hw, hback⟩ := exists_inverse hp₁.central.1 hunifier hrespects.renames.injective
  have hbodies : ∀ c ∈ s.rules.rules, ∀ p ∈ c.body, ∀ b, I p b →
      ∀ v, b.contains v = true → v ∈ p.userVars := fun c hc p hp => hI p (h.bodies c hc p hp)
  refine ⟨u, w, ?_, hw, fun b hb => ?_, fun b hb => ?_, fun v hv => ?_, fun v hv => ?_⟩
  · rw [hqp.unifier_eq hrp', hunifier]
  · exact hrp'.infers_iff.mpr ((hqp.infers_iff.mp hb).respects hg h.built hp₁ hp₂ hlabel
      hrespects hbodies)
  · exact hqp.infers_iff.mpr ((hrp'.infers_iff.mp hb).respects hg h.built hp₂ hp₁ hlabel.symm
      (hrespects.symm hp₁ hback) hbodies)
  · exact hback v (mem_slots_of_mem_userVars hp₁ (hqp.userVars_eq ▸ hv))
  · obtain ⟨x, hx, rfl⟩ := hrespects.renames.mem_slots_iff.mp
      (mem_slots_of_mem_userVars hp₂ (hrp'.userVars_eq ▸ hv))
    rw [hback x hx]

theorem decomposed (hq : q.IsAmong queries) : ∃ g, q.Decomposed g := by
  obtain ⟨p, hp, hqp⟩ := hq
  obtain ⟨g, -, hpg⟩ := h.made p hp
  exact ⟨g, hqp.decomposed hpg⟩

end Coherent

/-! ## Soundness -/

/-- What is planned was planned for the queries, and what is known follows from the graph by the rules. -/
structure Trusts (s : Setting) (queries : List AtomicQuery) (k : Knowledge) (n : Nat) : Prop where
  settled : k.Settled { vars := n } queries
  named : ∀ e ∈ k.programs.entries, ∃ q ∈ queries, e.1 = q.text
  entailed : ∀ e ∈ k.known.classes, e.query.IsAmong queries ∧
    ∀ b, e.answers.Has b → s.Entails e.query b

variable {path : ResolutionPath} {k k' : Knowledge} {t t' : Supply} {as : List Answer} {n : Nat}

/-- The stream is one for the queries and has found what follows from the graph by the rules. -/
abbrev Sound (s : Setting) (queries : List AtomicQuery) (st : AnswerStream) : Prop :=
  st.Upholds s (IsAmong queries) (fun q => ∀ b, ¬ s.Found q b) fun _ => s.Entails

theorem proper_entails : Proper queries s.Entails :=
  fun _ _ _ h _ => h.mem_userVars

/-- What the knowledge serves follows from the graph by the rules. -/
theorem Trusts.entails_of_serves (hk : s.Trusts queries k n) (h : s.Coherent queries)
    (hq : q.IsAmong queries) (hb : k.known.Serves q b) : s.Entails q b := by
  obtain ⟨e, u, w, he, hu, hw, d, hd, rfl⟩ := AnswerCache.serves_iff.mp hb
  obtain ⟨hamong, hentailed⟩ := hk.entailed e (List.mem_of_find?_eq_some he)
  have heq : e.query.isEquivalent q = true := by simpa using List.find?_some he
  obtain ⟨u', w', hexchange⟩ := h.exists_exchange proper_entails hq hamong (isEquivalent_symm heq)
  obtain rfl := Except.ok.inj (hu.symm.trans hexchange.unifier)
  obtain rfl := Except.ok.inj (hw.symm.trans hexchange.inverse)
  exact entails_iff.mpr (hexchange.back d (entails_iff.mp (hentailed d hd)))

namespace Coherent

/-- A look-up gives what is found, and leaves plans of the queries. -/
theorem found_iff_of_gives_lookup (h : s.Coherent queries) (hq : q.IsAmong queries)
    (hk : s.Trusts queries k t.vars) (hlookup : (Resolve.lookup s q).Gives k t as k' t') :
    s.Trusts queries k' t'.vars ∧ ∀ b, (∃ a ∈ as, a.binding = b) ↔ s.Found q b := by
  obtain ⟨p, hp, hqp⟩ := hq
  have hsettled : k.Settled t queries := hk.settled
  obtain ⟨g, -, hpg⟩ := h.made p hp
  obtain ⟨hfresh, hkeeps⟩ := hsettled p hp
  have hsettled' : k'.Settled t' queries := Resolve.settled_of_gives_lookup h.reachable.wellFormed
    (fun r hr htext => (h.texts r hr p hp (htext.trans hqp.text_eq)).trans hqp.toConjunction_eq.symm)
    hsettled hlookup
  obtain ⟨ms, -, hms, has⟩ := Resolve.matches_of_gives_lookup h.reachable
    (hqp.decomposed hpg).plain (hqp.keepsPlansOf hkeeps) (hqp.freshFrom hfresh) hlookup
  have hnamed : ∀ e ∈ k'.programs.entries, ∃ r ∈ queries, e.1 = r.text := fun e he =>
    (Resolve.entries_of_gives_lookup h.reachable.wellFormed hlookup e he).elim (hk.named e) fun htext => ⟨p, hp, htext.trans hqp.text_eq⟩
  refine ⟨⟨hsettled', hnamed, Resolve.known_of_gives_lookup hlookup ▸ hk.entailed⟩, fun b => ?_⟩
  have hmem : (∃ a ∈ as, a.binding = b) ↔ ∃ m ∈ ms, m.restrict q.userVars.contains = b := by
    rw [← List.mem_map, has, List.mem_map]
  simp only [hmem, hms, and_assoc, exists_and_left, Found]

/-- A resolution finds and records what follows from the graph by the rules and nothing else. -/
theorem invariant (h : s.Coherent queries) : AnswerStream.Invariant s (IsAmong queries)
    (s.Trusts queries) (fun q => ∀ b, ¬ s.Found q b) fun _ => s.Entails where
  body := fun _ _ hc p hp _ => (isAmong_of_mem (h.bodies _ (List.mem_of_getElem? hc) p hp)).renumber
  lookup := by
    intro path q k t as k' t' hq hk hlookup
    obtain ⟨hk', hfound⟩ := h.found_iff_of_gives_lookup hq hk hlookup
    refine ⟨hk', ?_, fun a ha => entails_iff.mpr (.inl ((hfound a.binding).mp ⟨a, ha, rfl⟩))⟩
    rintro rfl b hb
    obtain ⟨_, ha, -⟩ := (hfound b).mpr hb
    cases ha
  known := fun hq hk _ hb => hk.entails_of_serves h hq hb
  record := by
    intro path q k n as hq hk has
    refine ⟨hk.settled, hk.named, AnswerCache.forall_has_record hq (isEquivalent_refl q) hk.entailed
      fun r u hr heq hu a ha => ?_⟩
    obtain ⟨u', w, hexchange⟩ := h.exists_exchange proper_entails hq hr (isEquivalent_symm heq)
    obtain rfl := Except.ok.inj (hu.symm.trans hexchange.unifier)
    exact entails_iff.mpr (hexchange.forth _ (entails_iff.mp (has a ha)))
  rule := by
    intro path q id u c ρ b hq hunanswered hid hc hjoins hyields
    refine entails_iff.mpr (.inr ⟨hunanswered, id, u, c, ρ, hid, hc,
      hjoins.mono ?_, hyields⟩)
    rintro p - b ⟨i, hb⟩
    exact (IsCopyOf.refl p).renumber.entails_iff.mp hb

/-- Every answer that a stream finds follows from the graph by the rules. -/
theorem entails_of_gives_drain (h : s.Coherent queries) (hq : q.IsAmong queries)
    (hk : s.Trusts queries k t.vars)
    (hdrain : (AnswerStream.drain s { query := q, path }).Gives k t as k' t') :
    s.Trusts queries k' t'.vars ∧ ∀ a ∈ as, s.Entails q a.binding :=
  h.invariant.drain hq hk hdrain

/-- Every answer that a stream finds is derivable. -/
theorem derivable_of_gives_drain (h : s.Coherent queries) (hq : q.IsAmong queries)
    (hk : s.Trusts queries k t.vars)
    (hdrain : (AnswerStream.drain s { query := q, path }).Gives k t as k' t') :
    s.Trusts queries k' t'.vars ∧ ∀ a ∈ as, s.Derivable q a.binding :=
  (h.entails_of_gives_drain hq hk hdrain).imp_right fun h a ha => (h a ha).derivable

end Coherent

end Setting

end GraphInference
