import GraphInference.Proofs.Resolution.Twins
import GraphInference.Proofs.Traversal.Transparency

/-!
# What was asked before

A reasoner keeps programs and answers between its uses. A use of it is a conjunction that is resolved, a
stream that is opened, asked for its next answer or drained (`Session.Step`), and may end in an error or be
cut short. Throughout a session with coherent queries what is known is right for them, and so is what the
open streams have found (`Session.Sound`), so that a pattern is answered as by a reasoner that has resolved
nothing yet: `Session.exists_same_answers`. Where two patterns have one text the second one may get the
program of the first one, and with it other answers: `QuotedString.not_same_answers`.
-/

namespace GraphInference

open AtomicQuery Decomposition Resolve

/-! ## Supplies -/

namespace Attempt

variable {α β : Type}

theorem vars_le_liftExcept (x : Except InferenceError α) (s : Supply) :
    s.vars ≤ ((liftExcept x : Attempt α).run s).2.vars := by
  cases x <;> exact le_rfl

theorem vars_le_mapM {f : α → Attempt β} (hf : ∀ a s, s.vars ≤ ((f a).run s).2.vars) (l : List α)
    (s : Supply) : s.vars ≤ ((l.mapM f).run s).2.vars := by
  induction l generalizing s with
  | nil => exact le_rfl
  | cons a l ih =>
    rw [List.mapM_cons]
    exact vars_le_bind (hf a) (fun _ => vars_le_bind ih fun _ _ => le_rfl) s

theorem vars_le_forIn {f : α → β → Attempt (ForInStep β)}
    (hf : ∀ a b s, s.vars ≤ ((f a b).run s).2.vars) (l : List α) (b : β) (s : Supply) :
    s.vars ≤ ((forIn l b f).run s).2.vars := by
  induction l generalizing b s with
  | nil =>
    rw [List.forIn_nil]
    exact le_rfl
  | cons a l ih =>
    rw [List.forIn_cons]
    refine vars_le_bind (hf a b) (fun r s => ?_) s
    cases r with
    | done b => exact le_rfl
    | yield b => exact ih b s

end Attempt

namespace Decomposition

open Attempt

variable (tx : Transaction)

theorem vars_le_anchor (x : Var) (type : Option TypeRef) (s : Supply) :
    s.vars ≤ ((anchor tx x type).run s).2.vars := by
  unfold anchor
  split
  · refine vars_le_bind (vars_le_liftExcept _) (fun _ s => ?_) s
    exact Nat.le_succ s.vars
  · exact le_rfl
  · exact le_rfl

theorem vars_le_relationAtom (st : Statement) (ps : List RolePlayer) (s : Supply) :
    s.vars ≤ ((relationAtom tx st ps).run s).2.vars := by
  refine vars_le_bind (vars_le_anchor tx _ _) (fun a s => ?_) s
  refine vars_le_bind (vars_le_forIn (fun p b s => ?_) ps _) (fun _ _ => le_rfl) s
  split
  · exact vars_le_bind (vars_le_liftExcept _) (fun _ _ => le_rfl) s
  · exact le_rfl

theorem vars_le_hasAtom (owner value : Var) (owned : Label) (s : Supply) :
    s.vars ≤ ((hasAtom tx owner owned value).run s).2.vars := by
  unfold hasAtom
  split
  · exact le_rfl
  · exact Nat.le_add_right s.vars 2

theorem vars_le_centralAtoms (st : Statement) (s : Supply) :
    s.vars ≤ ((centralAtoms tx st).run s).2.vars := by
  unfold centralAtoms
  dsimp only
  split
  · exact le_rfl
  · have howned (first : List Atom) (s : Supply) : s.vars ≤ ((do
        let owned ← st.ownerships.mapM fun o => hasAtom tx st.subject o.1 o.2.1
        return first ++ owned : Attempt (List Atom)).run s).2.vars :=
      vars_le_bind (vars_le_mapM (fun o => vars_le_hasAtom tx _ _ _) _) (fun _ _ => le_rfl) s
    split
    · exact vars_le_bind (vars_le_relationAtom tx st _) (fun a => howned [a]) s
    · exact vars_le_bind (vars_le_anchor tx _ _) (fun a => howned [.isa a]) s
    · exact howned [] s

/-- Decomposition draws variables, whether it succeeds or not. -/
theorem vars_le_ofConjunction (c : Conjunction) (s : Supply) :
    s.vars ≤ ((ofConjunction tx c).run s).2.vars := by
  unfold ofConjunction
  dsimp only
  split
  · exact le_rfl
  · refine vars_le_bind (vars_le_mapM (vars_le_centralAtoms tx) _) (fun _ s => ?_) s
    refine vars_le_bind (fun s => le_of_eq ?_) (fun _ _ => le_rfl) s
    exact (Fresh.vars_mapM (fun _ _ => rfl) _ s).symm

end Decomposition


/-! ## Streams that are asked for more -/

namespace AnswerStream

variable {s : Setting} {k k' : Knowledge} {t t' : Supply} {e : InferenceError}
  {involved : AtomicQuery → Prop} {K : Knowledge → Nat → Prop} {N : AtomicQuery → Prop}
  {E : InferenceError → Prop} {P : ResolutionPath → Interpretation} {resolve : Resolver}
  {st st' : AnswerStream} {n : Nat} {r : Option (Except InferenceError Answer)}

theorem Upholds.withPending (h : st.Upholds s involved N P) (pending : List Answer) :
    ({ st with pending } : AnswerStream).Upholds s involved N P :=
  ⟨h.involved, h.answers, h.lookedUp, h.unanswered, h.rules, h.rulesLeft⟩

theorem Upholds.fail (h : st.Upholds s involved N P) :
    ({ st with failed := true } : AnswerStream).Upholds s involved N P :=
  ⟨h.involved, h.answers, h.lookedUp, h.unanswered, h.rules, h.rulesLeft⟩

variable (hconfined : Confined s involved K E) (hinv : Invariant s involved K N P)

include hconfined hinv

theorem Confined.nextWithin (hmaintains : Maintains involved K P resolve)
    (hconfines : Confines involved K E resolve) (hst : st.Upholds s involved N P) (hk : K k t.vars)
    (h : ((nextWithin resolve s n st).run k).run t = (((r, st'), k'), t')) :
    st'.Upholds s involved N P ∧ K k' t'.vars := by
  induction n generalizing st k t with
  | zero =>
    rw [nextWithin.eq_def] at h
    dsimp only at h
    split at h
    · cases h
      exact ⟨hst.withPending _, hk⟩
    · split at h
      · cases h
        exact ⟨hst, hk⟩
      · split at h <;> cases h
        · exact ⟨hst.fail, hk⟩
        · exact ⟨hst, hk⟩
  | succ n ih =>
    rcases hpending : st.pending with _ | ⟨a, pending⟩
    case cons =>
      rw [nextWithin_of_pending hpending] at h
      cases h
      exact ⟨hst.withPending pending, hk⟩
    by_cases hended : st.Ended
    · rw [nextWithin_of_ended hpending hended] at h
      cases h
      exact ⟨hst, hk⟩
    cases hopen : s.transaction.isOpen with
    | false =>
      rw [nextWithin_of_closed hpending hended hopen] at h
      cases h
      exact ⟨hst.fail, hk⟩
    | true =>
      rw [run_nextWithin_succ hpending hended hopen] at h
      rcases hstep : ((AnswerStream.step resolve s st).run.run k).run t with ⟨⟨e | mid, l⟩, u⟩
      · rw [hstep] at h
        cases h
        exact ⟨hst.fail, (hconfined.step hinv hmaintains hconfines hst hk hstep).1⟩
      · rw [hstep] at h
        obtain ⟨hmid, hl⟩ := hinv.step hmaintains hst hk (steps_of_gives hstep)
        exact ih hmid hl h

theorem Confined.next (hst : st.Upholds s involved N P) (hk : K k t.vars)
    (h : ((st.next s).run k).run t = (((r, st'), k'), t')) : st'.Upholds s involved N P ∧ K k' t'.vars :=
  hconfined.nextWithin hinv (hinv.resolveWithin _) (hconfined.resolveWithin hinv _) hst hk h

theorem Confined.knowledge_of_drain {r : Except InferenceError (List Answer)}
    (hst : st.Upholds s involved N P) (hk : K k t.vars)
    (h : ((st.drain s).run.run k).run t = ((r, k'), t')) : K k' t'.vars := by
  have hmaintains : Maintains involved K P (bodyResolver s st) := hinv.resolveWithin _
  cases r with
  | error e =>
    have h : (st.drain s).Fails k t e k' t' := h
    rcases fails_bind.mp h with h | ⟨_, _, _, -, h⟩
    · exact (hconfined.finishWithin hinv hmaintains (hconfined.resolveWithin hinv _) hst hk h).1
    · exact absurd h not_fails_pure
  | ok as =>
    have h : (st.drain s).Gives k t as k' t' := h
    obtain ⟨st', k₁, t₁, hfinish, h⟩ := gives_bind.mp h
    obtain ⟨-, rfl, rfl⟩ := gives_pure.mp h
    exact (finishWithin_induction (p := fun st k t => st.Upholds s involved N P ∧ K k t.vars)
      (fun hstep ⟨hst, hk⟩ => hinv.step hmaintains hst hk hstep) hfinish ⟨hst, hk⟩).2

end AnswerStream

/-! ## Sessions -/

/-- A reasoner at work: what it knows, the supply it draws from, the streams that may be asked for more, in
every state they were in, and the atomic queries that were resolved. -/
structure Session where
  knowledge : Knowledge
  supply : Supply
  streams : List AnswerStream := []
  asked : List AtomicQuery := []

namespace Session

/-- The atomic queries of a conjunction, none if it cannot be decomposed. -/
def queriesOf (s : Setting) (c : Conjunction) (t : Supply) : List AtomicQuery :=
  ((ofConjunction s.transaction c).resultOr t ⟨c, []⟩).queries

/-- One use of a reasoner. It may end in an error as well, and what was learnt until then stays known. -/
inductive Step (s : Setting) (σ : Session) : Session → Prop where
  /-- Variables are drawn for other purposes. -/
  | draw {t : Supply} (h : σ.supply.vars ≤ t.vars) : Step s σ { σ with supply := t }
  /-- A conjunction is resolved. -/
  | resolve {c : Conjunction} {r : Except InferenceError (List Answer)} {k : Knowledge} {t : Supply}
    (hpresent : ∀ v, c.Names v → v.isEmpty = false)
    (hfresh : ∀ n, σ.supply.vars ≤ n → .generated n ∉ c.vars)
    (h : ((Reasoner.resolve s c).run.run σ.knowledge).run σ.supply = ((r, k), t)) :
    Step s σ { σ with knowledge := k, supply := t, asked := queriesOf s c σ.supply ++ σ.asked }
  /-- A stream is opened. -/
  | stream {q : AtomicQuery} (hfresh : q.FreshFrom σ.supply) :
    Step s σ { σ with streams := Reasoner.stream q :: σ.streams, asked := q :: σ.asked }
  /-- A stream is asked for its next answer. -/
  | next {st st' : AnswerStream} {r : Option (Except InferenceError Answer)} {k : Knowledge} {t : Supply}
    (hst : st ∈ σ.streams) (h : ((st.next s).run σ.knowledge).run σ.supply = (((r, st'), k), t)) :
    Step s σ { σ with knowledge := k, supply := t, streams := st' :: σ.streams }
  /-- A stream is asked for all its answers. -/
  | drain {st : AnswerStream} {r : Except InferenceError (List Answer)} {k : Knowledge} {t : Supply}
    (hst : st ∈ σ.streams) (h : ((st.drain s).run.run σ.knowledge).run σ.supply = ((r, k), t)) :
    Step s σ { σ with knowledge := k, supply := t }

/-- A session of a reasoner that has resolved nothing yet. -/
def start (s : Setting) (t : Supply) : Session where
  knowledge := s.untaught
  supply := t

/-- The session after a conjunction is resolved. -/
def afterResolve (s : Setting) (c : Conjunction) (σ : Session) : Session where
  knowledge := (((Reasoner.resolve s c).run.run σ.knowledge).run σ.supply).1.2
  supply := (((Reasoner.resolve s c).run.run σ.knowledge).run σ.supply).2
  streams := σ.streams
  asked := queriesOf s c σ.supply ++ σ.asked

/-- What is known is right for the queries that were resolved, and so is what the streams have found. -/
structure Sound (s : Setting) (σ : Session) : Prop where
  trusts : s.Trusts (σ.asked ++ s.rules.bodies) σ.knowledge σ.supply.vars
  streams : ∀ st ∈ σ.streams, s.Sound (σ.asked ++ s.rules.bodies) st

end Session

namespace Setting.Trusts

variable {s : Setting} {queries added : List AtomicQuery} {k : Knowledge} {n m : Nat}

theorem mono (h : s.Trusts queries k n) (hle : n ≤ m) : s.Trusts queries k m :=
  ⟨fun q hq => ⟨(h.settled q hq).1.mono hle, (h.settled q hq).2⟩, h.named, h.entailed⟩

/-- Knowledge that is right for some queries is right for more, if these have no text of the others with
another meaning. -/
theorem append (h : s.Trusts queries k n) (hfresh : ∀ q ∈ added, q.FreshFrom { vars := n })
    (hplain : ∀ q ∈ added ++ queries, q.Plain)
    (htexts : ∀ q ∈ added, ∀ r ∈ queries, q.text = r.text → q.toConjunction = r.toConjunction) :
    s.Trusts (added ++ queries) k n where
  settled := by
    intro q hq
    rcases List.mem_append.mp hq with hadded | hq'
    · refine ⟨hfresh q hadded, fun e he htext => ?_⟩
      obtain ⟨r, hr, hname⟩ := h.named e he
      have hsame := htexts q hadded r hr (htext.symm.trans hname)
      obtain ⟨u, t, hu, hplan⟩ := (h.settled r hr).2 e he hname
      refine ⟨u, t, fun i hi hnames => hu i hi ?_, hsame ▸ hplan⟩
      rw [← names_toConjunction_iff (hplain q hq), hsame,
        names_toConjunction_iff (hplain r (List.mem_append_right _ hr))] at hnames
      exact hnames
    · exact h.settled q hq'
  named := fun e he => by
    obtain ⟨r, hr, hname⟩ := h.named e he
    exact ⟨r, List.mem_append_right _ hr, hname⟩
  entailed := fun e he => by
    obtain ⟨⟨r, hr, hcopy⟩, hentailed⟩ := h.entailed e he
    exact ⟨⟨r, List.mem_append_right _ hr, hcopy⟩, hentailed⟩

end Setting.Trusts

namespace Session

open AnswerStream

variable {s : Setting} {σ σ' : Session} {t : Supply}

theorem queriesOf_eq {c : Conjunction} {d : DecomposedQuery} {t₁ : Supply}
    (hd : (ofConjunction s.transaction c).Gives t d t₁) : queriesOf s c t = d.queries := by
  rw [queriesOf, Attempt.resultOr, show (ofConjunction s.transaction c).run t = _ from hd]

theorem madeFor_of_mem_queriesOf {c : Conjunction} {q : AtomicQuery} (hq : q ∈ queriesOf s c t) :
    q.MadeFor s.transaction.graph := by
  rcases hd : (ofConjunction s.transaction c).run t with ⟨e | d, t₁⟩
  · rw [queriesOf, Attempt.resultOr, hd] at hq
    cases hq
  · rw [queriesOf_eq hd] at hq
    exact ⟨_, ⟨[], rfl⟩, decomposed_of_mem_queries hd hq⟩

/-- A conjunction that cannot be decomposed is not resolved, and nothing is learnt. -/
theorem of_not_decomposed {c : Conjunction} {e : InferenceError} {t₁ : Supply}
    (hd : (ofConjunction s.transaction c).run t = (.error e, t₁)) {k k' : Knowledge} {t' : Supply}
    {r : Except InferenceError (List Answer)}
    (h : ((Reasoner.resolve s c).run.run k).run t = ((r, k'), t')) :
    queriesOf s c t = [] ∧ k' = k ∧ t.vars ≤ t'.vars := by
  have hle := vars_le_ofConjunction s.transaction c t
  rw [hd] at hle
  refine ⟨by rw [queriesOf, Attempt.resultOr, hd], ?_⟩
  rw [Reasoner.resolve_eq] at h
  cases r with
  | error e' =>
    rcases fails_bind.mp h with h | ⟨d, k₀, t₀, h, -⟩
    · obtain ⟨hrun, rfl⟩ := fails_ofAttempt.mp h
      obtain ⟨-, rfl⟩ := Prod.mk.inj (hd.symm.trans hrun)
      exact ⟨rfl, hle⟩
    · cases hd.symm.trans (gives_ofAttempt.mp h).1
  | ok as =>
    obtain ⟨d, k₀, t₀, h, -⟩ := gives_bind.mp h
    cases hd.symm.trans (gives_ofAttempt.mp h).1

theorem step_afterResolve {c : Conjunction} (h : s.FreshFor c σ.supply) : Step s σ (σ.afterResolve s c) :=
  .resolve h.present h.pattern rfl

/-- What a session asks stays asked. -/
theorem Step.mem_asked (h : Step s σ σ') {q : AtomicQuery} (hq : q ∈ σ.asked) : q ∈ σ'.asked := by
  cases h with
  | draw | next | drain => exact hq
  | resolve => exact List.mem_append_right _ hq
  | stream => exact .tail _ hq

theorem Sound.grow {added : List AtomicQuery} {k : Knowledge} {t : Supply} (hσ : σ.Sound s)
    (hk : s.Trusts (added ++ (σ.asked ++ s.rules.bodies)) k t.vars) :
    ({ σ with knowledge := k, supply := t, asked := added ++ σ.asked } : Session).Sound s := by
  refine ⟨(List.append_assoc ..).symm ▸ hk, fun st hst => (hσ.streams st hst).mono ?_⟩
  rintro q ⟨p, hp, hqp⟩
  exact ⟨p, by rw [List.append_assoc]; exact List.mem_append_right _ hp, hqp⟩

/-- One use of a reasoner keeps what it knows right, if the queries are coherent. -/
theorem Step.sound (h : Step s σ σ') (hcoherent : s.Coherent (σ'.asked ++ s.rules.bodies))
    (hσ : σ.Sound s) : σ'.Sound s := by
  have hconfined := hcoherent.confined
  have hinv := hcoherent.invariant
  have hplain : ∀ q ∈ σ'.asked ++ s.rules.bodies, q.Plain := fun q hq => by
    obtain ⟨g, -, hq⟩ := hcoherent.made q hq
    exact hq.plain
  have htrusts {added : List AtomicQuery} (hasked : σ'.asked = added ++ σ.asked) {t : Supply}
      (hle : σ.supply.vars ≤ t.vars) (hfresh : ∀ q ∈ added, q.FreshFrom t) :
      s.Trusts (added ++ (σ.asked ++ s.rules.bodies)) σ.knowledge t.vars := by
    rw [hasked, List.append_assoc] at hplain hcoherent
    exact (hσ.trusts.mono hle).append hfresh hplain fun q hq r hr =>
      hcoherent.texts q (List.mem_append_left _ hq) r (List.mem_append_right _ hr)
  cases h with
  | draw hle => exact ⟨hσ.trusts.mono hle, hσ.streams⟩
  | @resolve c r k t hpresent hfresh h =>
    refine hσ.grow ?_
    rcases hd : (ofConjunction s.transaction c).run σ.supply with ⟨e | d, t₁⟩
    · obtain ⟨hnone, rfl, hle⟩ := of_not_decomposed hd h
      rw [hnone]
      exact hσ.trusts.mono hle
    · have hd : (ofConjunction s.transaction c).Gives σ.supply d t₁ := hd
      have hg := hcoherent.reachable.wellFormed
      obtain ⟨_, _, hasks, _⟩ := DecomposedQuery.exists_asks hg hd hpresent
      have hk := htrusts rfl hasks.le fun q hq => by
        rw [queriesOf_eq hd] at hq
        exact fun n hn => DecomposedQuery.not_names_generated hg hd hpresent hfresh hq hn
      dsimp only at hcoherent
      rw [List.append_assoc] at hcoherent
      have hqueries : ∀ q ∈ d.queries, q ∈ queriesOf s c σ.supply ++ (σ.asked ++ s.rules.bodies) :=
        fun q hq => List.mem_append_left _ (queriesOf_eq hd ▸ hq)
      cases r with
      | error e => exact hcoherent.trusts_of_fails_resolve hd hqueries hk h
      | ok as => exact (hcoherent.concludes_of_gives_resolve hd hqueries hk h).1
  | @stream q hfresh =>
    have hk : s.Trusts ([q] ++ (σ.asked ++ s.rules.bodies)) σ.knowledge σ.supply.vars :=
      htrusts rfl le_rfl fun r hr => List.mem_singleton.mp hr ▸ hfresh
    obtain ⟨hk, hstreams⟩ := hσ.grow hk
    exact ⟨hk, List.forall_mem_cons.mpr ⟨.start (isAmong_of_mem (.head _)), hstreams⟩⟩
  | next hst h =>
    obtain ⟨hst', hk⟩ := hconfined.next hinv (hσ.streams _ hst) hσ.trusts h
    exact ⟨hk, List.forall_mem_cons.mpr ⟨hst', hσ.streams⟩⟩
  | drain hst h => exact ⟨hconfined.knowledge_of_drain hinv (hσ.streams _ hst) hσ.trusts h, hσ.streams⟩

/-- What is known is right after every session with coherent queries. -/
theorem sound_of_steps (hbodies : ∀ p ∈ s.rules.bodies, p.FreshFrom t)
    (h : Relation.ReflTransGen (Step s) (start s t) σ) (hcoherent : s.Coherent (σ.asked ++ s.rules.bodies)) :
    σ.Sound s := by
  induction h with
  | refl => exact ⟨Setting.trusts_untaught hbodies, fun _ hst => nomatch hst⟩
  | tail _ hstep ih =>
    refine hstep.sound hcoherent (ih (hcoherent.subset (fun q hq => ?_) fun p hp => List.mem_append_right _ hp))
    exact (List.mem_append.mp hq).elim (fun hq => List.mem_append_left _ (hstep.mem_asked hq))
      (List.mem_append_right _)

/-- A pattern has the same bindings after a session as for a reasoner that has resolved nothing yet, if no
stream comes to a bound when it is resolved. -/
theorem exists_same_answers {c : Conjunction} {d d' : DecomposedQuery} {t' u u' : Supply}
    (hrules : s.rules.CompiledFor s.transaction.graph) (hopen : s.transaction.isOpen = true)
    (hbodies : ∀ p ∈ s.rules.bodies, p.FreshFrom t)
    (h : Relation.ReflTransGen (Step s) (start s t) σ)
    (hd : (ofConjunction s.transaction c).Gives σ.supply d t')
    (hcoherent : s.Coherent (d.queries ++ (σ.asked ++ s.rules.bodies)))
    (hregular : s.Regular c d.queries σ.supply) (hfree : Reasoner.Unhindered s c σ.knowledge σ.supply)
    (hd' : (ofConjunction s.transaction c).Gives u d' u') (hregular' : s.Regular c d'.queries u)
    (hfree' : Reasoner.Unhindered s c s.untaught u) :
    ∃ as k v as' k' v', (Reasoner.resolve s c).Gives σ.knowledge σ.supply as k v ∧
      (Reasoner.resolve s c).Gives s.untaught u as' k' v' ∧
      ∀ b, (∃ a ∈ as, a.binding = b) ↔ ∃ a ∈ as', a.binding = b := by
  have hg := hcoherent.reachable.wellFormed
  have hfresh := hregular.freshFor hrules
  obtain ⟨hk, -⟩ := sound_of_steps hbodies h (hcoherent.subset (fun q hq => List.mem_append_right _ hq)
    fun p hp => List.mem_append_right _ hp)
  obtain ⟨_, _, hasks, _⟩ := DecomposedQuery.exists_asks hg hd hfresh.present
  have hk' : s.Trusts (d.queries ++ (σ.asked ++ s.rules.bodies)) σ.knowledge t'.vars := by
    refine (hk.mono hasks.le).append (fun q hq => hfresh.freshFrom hg hd q (List.mem_append_left _ hq))
      (fun q hq => ?_) fun q hq r hr => hcoherent.texts q (List.mem_append_left _ hq) r
        (List.mem_append_right _ hr)
    obtain ⟨g, -, hq⟩ := hcoherent.made q hq
    exact hq.plain
  obtain ⟨as, k, v, hgives, has⟩ := hcoherent.exists_resolve_of_unhindered hd
    (fun _ hq => List.mem_append_left _ hq) hk' hopen hregular.searchable hfree
  obtain ⟨as', k', v', hgives', has'⟩ := hregular'.exists_resolve_of_unhindered hcoherent.reachable hrules
    hd' hopen hfree'
  refine ⟨as, k, v, as', k', v', hgives, hgives', fun b => (has b).trans (Iff.trans ?_ (has' b).symm)⟩
  exact Setting.concludes_iff_of_gives hg hrules.built hfresh (hregular'.freshFor hrules) hd hd'

end Session

/-! ## Things of two types -/

namespace Subtypes

open Reasoner

/-- `$u isa b;` -/
def earlier : Conjunction :=
  ⟨[⟨.named "u", [.isa (.label ⟨"b"⟩)]⟩]⟩

/-- `$x isa b;` -/
def pattern : Conjunction :=
  ⟨[⟨.named "x", [.isa (.label ⟨"b"⟩)]⟩]⟩

def decomposed (t : Supply) : DecomposedQuery :=
  (ofConjunction transaction pattern).resultOr t ⟨⟨[]⟩, []⟩

/-- The first pattern was resolved. -/
def session : Session :=
  (Session.start setting { vars := 18 }).afterResolve setting earlier

/-- The thing of the first type is found for the second pattern too, whether the first pattern was resolved
before or not. -/
theorem exists_same_answers_thing : ∃ as k v as' k' v',
    (resolve setting pattern).Gives session.knowledge session.supply as k v ∧
      (resolve setting pattern).Gives setting.untaught { vars := 18 } as' k' v' ∧
      ∀ b, (∃ a ∈ as, a.binding = b) ↔ ∃ a ∈ as', a.binding = b := by
  obtain ⟨hearlier, hok, hasked, hregular, hfree, hok', hregular', hfree'⟩ :
      setting.Regular earlier [] { vars := 18 } ∧
      ((ofConjunction transaction pattern).run session.supply).1.isOk = true ∧
      setting.Regular pattern ((decomposed session.supply).queries ++ session.asked) session.supply ∧
      setting.Regular pattern (decomposed session.supply).queries session.supply ∧
      (((resolveFreely setting pattern).run.run session.knowledge).run session.supply).1.1.isOk = true ∧
      ((ofConjunction transaction pattern).run { vars := 18 }).1.isOk = true ∧
      setting.Regular pattern (decomposed { vars := 18 }).queries { vars := 18 } ∧
      (((resolveFreely setting pattern).run.run setting.untaught).run { vars := 18 }).1.1.isOk = true := by
    decide +kernel
  have hsteps : Relation.ReflTransGen (Session.Step setting) (Session.start setting { vars := 18 }) session :=
    .single (Session.step_afterResolve (hearlier.freshFor compiledFor))
  have hd := Attempt.gives_resultOr hok ⟨⟨[]⟩, []⟩
  have hd' := Attempt.gives_resultOr hok' ⟨⟨[]⟩, []⟩
  have hmade : ∀ q ∈ (decomposed session.supply).queries ++ session.asked, q.MadeFor transaction.graph := by
    intro q hq
    rcases List.mem_append.mp hq with hq | hq
    · exact ⟨_, ⟨[], rfl⟩, decomposed_of_mem_queries hd hq⟩
    · rcases List.mem_append.mp hq with hq | hq
      · exact Session.madeFor_of_mem_queriesOf hq
      · cases hq
  have hcoherent := hasked.coherent ⟨_, rfl⟩ compiledFor hmade
  rw [List.append_assoc] at hcoherent
  exact Session.exists_same_answers compiledFor rfl
    (fun p hp => (hregular'.freshFor compiledFor).bodies p hp) hsteps hd hcoherent hregular
    (unhindered_of_isOk hfree) hd' hregular' (unhindered_of_isOk hfree')

end Subtypes

/-! ## Quoted strings -/

namespace QuotedString

open Reasoner

/-- A reasoner without rules, asked for attributes. -/
def setting : Setting where
  transaction := { name := "", graph }
  config := {}
  rules := {}

/-- The first pattern was resolved. -/
def session : Session :=
  (Session.start setting {}).afterResolve setting single

def found (k : Knowledge) (t : Supply) : List Answer :=
  (resolve setting double).resultOr k t []

/-- The second pattern is looked up with the program of the first one, which has its text, and so has an
answer that it has not for a reasoner that has resolved nothing yet. -/
theorem not_same_answers : ¬ ∀ (s : Setting) (c : Conjunction) (σ : Session) (as as' : List Answer)
    (k k' : Knowledge) (t u v v' : Supply), s.transaction.graph.Reachable → s.transaction.isOpen = true →
    s.config.validate = .ok s.config → s.rules.CompiledFor s.transaction.graph →
    Relation.ReflTransGen (Session.Step s) (Session.start s t) σ →
    Unhindered s c σ.knowledge σ.supply → Unhindered s c s.untaught u →
    (resolve s c).Gives σ.knowledge σ.supply as k v → (resolve s c).Gives s.untaught u as' k' v' →
    ∀ b, (∃ a ∈ as, a.binding = b) ↔ ∃ a ∈ as', a.binding = b := by
  intro h
  obtain ⟨hearlier, hok, hfree, hok', hfree', hfound, hnone⟩ :
      setting.Regular single [] {} ∧
      (((resolve setting double).run.run session.knowledge).run session.supply).1.1.isOk = true ∧
      (((resolveFreely setting double).run.run session.knowledge).run session.supply).1.1.isOk = true ∧
      (((resolve setting double).run.run setting.untaught).run {}).1.1.isOk = true ∧
      (((resolveFreely setting double).run.run setting.untaught).run {}).1.1.isOk = true ∧
      (found session.knowledge session.supply).map Answer.binding = [.ofList [(.named "x", ⟨"V5"⟩)]] ∧
      (found setting.untaught {}).isEmpty = true := by
    decide +kernel
  have hsteps : Relation.ReflTransGen (Session.Step setting) (Session.start setting {}) session :=
    .single (Session.step_afterResolve (hearlier.freshFor .empty))
  have hgives : (resolve setting double).Gives session.knowledge session.supply
    (found session.knowledge session.supply) _ _ := Resolve.gives_resultOr hok []
  have hgives' : (resolve setting double).Gives setting.untaught {} (found setting.untaught {}) _ _ :=
    Resolve.gives_resultOr hok' []
  have hsame := h setting double session _ _ _ _ {} {} _ _ ⟨_, rfl⟩ rfl rfl .empty hsteps
    (unhindered_of_isOk hfree) (unhindered_of_isOk hfree') hgives hgives'
  obtain ⟨a, ha, -⟩ := (hsame _).mp (List.mem_map.mp (hfound ▸ List.mem_singleton_self _))
  rw [List.isEmpty_iff.mp hnone] at ha
  cases ha

end QuotedString

end GraphInference
