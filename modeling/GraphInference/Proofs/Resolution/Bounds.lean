import GraphInference.Proofs.Query.Class
import GraphInference.Proofs.Resolution.Steps

/-!
# Bounds of resolution

However recursive its rules are, a resolution ends. A stream applies its rules in a bounded number of
rounds, and a measure of the steps that are left (`AnswerStream.stepsLeft`) falls with every step. The
streams that are open at once, each one opened for the body of a rule that the one outside it applies,
form a `AnswerStream.Chain`: the queries on the path of a stream are those of the streams outside it,
no two of them are equivalent and there are no more than the recursion depth. So the numbers that the
definitions recurse on decide nothing: a stream that is drained comes to its end, and the resolver of a
body drains the streams of its queries (`AnswerStream.resolution_bounded`).
-/

namespace GraphInference

theorem Config.pos_of_validate {c : Config} (h : c.validate = .ok c) :
    0 < c.maxRecursionDepth ∧ 0 < c.maxFixpointIterations := by
  unfold validate at h
  split at h
  · cases h
  · split at h
    · cases h
    · omega

namespace AnswerStream

open Resolve

variable {resolve : Resolver} {s : Setting} {st st' start : AnswerStream} {k k' : Knowledge}
  {t t' : Supply} {n m : Nat}

/-- The stream is in a terminal stage or has failed. -/
def Ended (st : AnswerStream) : Prop :=
  st.failed = true ∨ st.stage.isTerminal = true

instance : Decidable st.Ended :=
  inferInstanceAs (Decidable (_ ∨ _))

/-! ## Runs of one stream -/

/-- What a stream becomes by `n` steps, a failing one included. Pending answers may be taken at any
time, and a transaction that is found closed makes the stream fail. -/
inductive Runs (s : Setting) (start : AnswerStream) : Nat → AnswerStream → Prop where
  | start : Runs s start 0 start
  | take {n : Nat} {st : AnswerStream} {a : Answer} {pending : List Answer} (h : Runs s start n st)
    (hpending : st.pending = a :: pending) : Runs s start n { st with pending }
  | close {n : Nat} {st : AnswerStream} (h : Runs s start n st) (hrunning : ¬ st.Ended)
    (hclosed : s.transaction.isOpen = false) : Runs s start n { st with failed := true }
  | step {n : Nat} {st st' : AnswerStream} {k k' : Knowledge} {t t' : Supply} (h : Runs s start n st)
    (hrunning : ¬ st.Ended) (hstep : (step (bodyResolver s st) s st).Gives k t st' k' t') :
    Runs s start (n + 1) st'
  | fail {n : Nat} {st : AnswerStream} {k k' : Knowledge} {t t' : Supply} {e : InferenceError}
    (h : Runs s start n st) (hrunning : ¬ st.Ended)
    (hfail : ((AnswerStream.step (bodyResolver s st) s st).run.run k).run t = ((.error e, k'), t')) :
    Runs s start (n + 1) { st with failed := true }

/-- The number of steps that the bounds leave to a stream. -/
def stepsLeft (s : Setting) (st : AnswerStream) : Nat :=
  let inRound := (s.rules.applicable st.query.central).length + 1
  match st.stage with
  | .unresolved => 2 + s.config.maxFixpointIterations * inRound
  | .lookupAttempted => 1 + s.config.maxFixpointIterations * inRound
  | .needsRuleExpansion =>
    st.rulesLeft.length + 1 + (s.config.maxFixpointIterations - (st.round + 1)) * inRound
  | _ => 0

/-- The rounds of a stream are within their bound, and it expands rules that apply to a query that is
not cut. -/
structure Within (s : Setting) (st : AnswerStream) : Prop where
  round : st.round ≤ s.config.maxFixpointIterations
  unstarted : st.stage = .unresolved ∨ st.stage = .lookupAttempted → st.round = 0
  expanding : st.stage = .needsRuleExpansion → st.round < s.config.maxFixpointIterations ∧
    st.rules = s.rules.applicable st.query.central
  uncut : st.stage = .lookupAttempted ∨ st.stage = .needsRuleExpansion → ¬ st.Cut s

theorem cut_iff_of_eq (hquery : st'.query = st.query) (hpath : st'.path = st.path) :
    st'.Cut s ↔ st.Cut s := by
  rw [Cut, Cut, hquery, hpath]

theorem within_of_isTerminal (hround : st.round ≤ s.config.maxFixpointIterations)
    (hstage : st.stage.isTerminal = true) : st.Within s := by
  refine ⟨hround, ?_, ?_, ?_⟩
  · rintro (h | h) <;> rw [h] at hstage <;> cases hstage
  · intro h
    rw [h] at hstage
    cases hstage
  · rintro (h | h) <;> rw [h] at hstage <;> cases hstage

/-- A step stays within the bounds. -/
theorem Within.step (hfix : 0 < s.config.maxFixpointIterations) (h : st.Within s)
    (hstep : Steps resolve s st k t st' k' t') : st'.Within s := by
  have hcut := @cut_iff_of_eq s st st' hstep.query_eq hstep.path_eq
  cases hstep with
  | cut hstage _ | unruled hstage _ =>
    exact within_of_isTerminal (by simpa using h.round) rfl
  | lookedUp hstage huncut =>
    exact ⟨by simpa using h.round, fun _ => by simpa using h.unstarted (.inl hstage),
      fun h => (nomatch h), fun _ => mt hcut.mp huncut⟩
  | ruled hstage _ _ =>
    have hround : st.round = 0 := h.unstarted (.inr hstage)
    exact ⟨h.round, fun _ => hround, fun _ => ⟨hround ▸ hfix, rfl⟩,
      fun _ => mt hcut.mp (h.uncut (.inl hstage))⟩
  | applied hstage hleft =>
    obtain ⟨hround, hrules⟩ := h.expanding hstage
    refine ⟨by simpa using h.round, fun hstage' => ?_, fun _ => by simpa using ⟨hround, hrules⟩,
      fun _ => mt hcut.mp (h.uncut (.inr hstage))⟩
    rw [stage_emitAll, hstage] at hstage'
    rcases hstage' with hstage' | hstage' <;> cases hstage'
  | repeated hstage _ _ _ hround =>
    refine ⟨hround.le, fun hstage' => ?_, fun _ => ⟨hround, (h.expanding hstage).2⟩,
      fun _ => mt hcut.mp (h.uncut (.inr hstage))⟩
    rw [hstage] at hstage'
    rcases hstage' with hstage' | hstage' <;> cases hstage'
  | finished hstage =>
    exact within_of_isTerminal (h.expanding hstage).1 rfl
  | ended => exact h

/-- A stream in a stage that is not terminal has steps left. -/
theorem stepsLeft_pos (h : ¬ st.Ended) : 0 < stepsLeft s st := by
  have hstage : ¬ st.stage.isTerminal = true := fun hstage => h (.inr hstage)
  unfold stepsLeft
  cases hst : st.stage with
  | unresolved | lookupAttempted | needsRuleExpansion => dsimp only; omega
  | resolvedByLookup | resolvedByRule | exhausted => exact absurd (by rw [hst]; rfl) hstage

/-- Every step is one of those that were left. -/
theorem stepsLeft_lt (h : st.Within s) (hfix : 0 < s.config.maxFixpointIterations)
    (hrunning : ¬ st.Ended) (hstep : Steps resolve s st k t st' k' t') :
    stepsLeft s st' < stepsLeft s st := by
  have hquery := hstep.query_eq
  have hpos := @stepsLeft_pos s st hrunning
  cases hstep with
  | cut | unruled | finished => exact hpos
  | lookedUp hstage => simp [stepsLeft, hstage]
  | ruled hstage =>
    -- The first round is one of the rounds that the look-up left.
    have hrounds : ∀ inRound : Nat, inRound + (s.config.maxFixpointIterations - 1) * inRound =
        s.config.maxFixpointIterations * inRound := fun inRound => by
      obtain ⟨i, hi⟩ := Nat.exists_eq_succ_of_ne_zero hfix.ne'
      rw [hi, Nat.succ_sub_one, Nat.succ_mul, Nat.add_comm]
    have hround : st.round = 0 := h.unstarted (.inr hstage)
    have := hrounds ((s.rules.applicable st.query.central).length + 1)
    simp only [stepsLeft, hstage, hround, Nat.zero_add]
    omega
  | applied hstage hleft => simp [stepsLeft, hstage, hleft]
  | repeated hstage hleft _ _ hround =>
    obtain ⟨-, hrules⟩ := h.expanding hstage
    have hleftRounds : s.config.maxFixpointIterations - (st.round + 1) =
        s.config.maxFixpointIterations - (st.round + 1 + 1) + 1 := by omega
    simp only [stepsLeft, hstage, hleft, hrules, List.length_nil, hleftRounds, Nat.succ_mul]
    omega
  | ended hstage => exact absurd (.inr hstage) hrunning

/-- What holds of a stream that has run `n` steps since it was opened. -/
structure RunWithin (s : Setting) (start : AnswerStream) (n : Nat) (st : AnswerStream) : Prop where
  within : st.Within s
  query_eq : st.query = start.query
  path_eq : st.path = start.path
  steps : n ≤ stepsLeft s start
  stepsLeft : ¬ st.Ended → n + st.stepsLeft s ≤ start.stepsLeft s

theorem within_start (q : AtomicQuery) (path : ResolutionPath) :
    ({ query := q, path } : AnswerStream).Within s :=
  ⟨Nat.zero_le _, fun _ => rfl, fun h => (nomatch h), fun h => h.elim (nomatch ·) (nomatch ·)⟩

/-- A run stays within the bounds. -/
theorem runWithin_of_runs (hfix : 0 < s.config.maxFixpointIterations) (hstart : start.Within s)
    (h : Runs s start n st) : RunWithin s start n st := by
  induction h with
  | start => exact ⟨hstart, rfl, rfl, Nat.zero_le _, fun _ => by omega⟩
  | take _ _ ih =>
    exact ⟨⟨ih.within.round, ih.within.unstarted, ih.within.expanding, ih.within.uncut⟩,
      ih.query_eq, ih.path_eq, ih.steps, ih.stepsLeft⟩
  | close _ _ _ ih =>
    exact ⟨⟨ih.within.round, ih.within.unstarted, ih.within.expanding, ih.within.uncut⟩,
      ih.query_eq, ih.path_eq, ih.steps, fun hrunning => absurd (.inl rfl) hrunning⟩
  | step _ hrunning hstep ih =>
    have hsteps := steps_of_gives hstep
    have hleft := ih.stepsLeft hrunning
    have hlt := stepsLeft_lt ih.within hfix hrunning hsteps
    exact ⟨ih.within.step hfix hsteps, hsteps.query_eq.trans ih.query_eq,
      hsteps.path_eq.trans ih.path_eq, by omega, fun _ => by omega⟩
  | @fail n st _ _ _ _ _ _ hrunning _ ih =>
    have hleft := ih.stepsLeft hrunning
    have hpos := @stepsLeft_pos s st hrunning
    exact ⟨⟨ih.within.round, ih.within.unstarted, ih.within.expanding, ih.within.uncut⟩,
      ih.query_eq, ih.path_eq, by omega, fun hrunning => absurd (.inl rfl) hrunning⟩

/-! ## Runs to the end -/

theorem bodyResolver_eq (h : st'.path = st.path) : bodyResolver s st' = bodyResolver s st := by
  rw [bodyResolver, bodyResolver, h]

/-- The bound for steps is enough for a stream at any time. -/
theorem stepsLeft_le_stepBound (q : AtomicQuery) (path : ResolutionPath) :
    stepsLeft s { query := q, path } ≤ stepBound s := by
  have hlen : (s.rules.applicable q.central).length ≤ s.rules.size := List.length_filterMap_le _ _
  have := Nat.mul_le_mul_left s.config.maxFixpointIterations (Nat.add_le_add_right hlen 1)
  simp only [stepsLeft, stepBound]
  omega

theorem finishWithin_of_ended (h : st.Ended) : finishWithin resolve s n st = pure st := by
  rw [finishWithin.eq_def]
  exact if_pos h

theorem finishWithin_of_closed (h : ¬ st.Ended) (hclosed : s.transaction.isOpen = false) :
    finishWithin resolve s n st = throw st.interrupted := by
  rw [finishWithin.eq_def]
  exact (if_neg h).trans (if_pos (by simp [hclosed]))

theorem finishWithin_succ (h : ¬ st.Ended) (hopen : s.transaction.isOpen = true) :
    finishWithin resolve s (n + 1) st = step resolve s st >>= finishWithin resolve s n := by
  rw [finishWithin.eq_def]
  exact (if_neg h).trans (if_neg (by simp [hopen]))

/-- A stream that is finished has run to its end. -/
theorem ended_of_gives_finishWithin (hfix : 0 < s.config.maxFixpointIterations)
    (hstart : start.Within s) (hrun : Runs s start n st) (hm : ¬ st.Ended → stepsLeft s st ≤ m)
    (h : (finishWithin (bodyResolver s start) s m st).Gives k t st' k' t') :
    (∃ n', Runs s start n' st') ∧ st'.Ended := by
  induction m using Nat.strong_induction_on generalizing n st k t with
  | _ m ih =>
    by_cases hended : st.Ended
    · rw [finishWithin_of_ended hended] at h
      obtain ⟨rfl, -, -⟩ := gives_pure.mp h
      exact ⟨⟨n, hrun⟩, hended⟩
    cases hopen : s.transaction.isOpen with
    | false =>
      rw [finishWithin_of_closed hended hopen] at h
      exact absurd h not_gives_throw
    | true =>
      have hpos := @stepsLeft_pos s st hended
      have hleft := hm hended
      obtain ⟨m, rfl⟩ := Nat.exists_eq_succ_of_ne_zero (by omega : m ≠ 0)
      rw [finishWithin_succ hended hopen] at h
      obtain ⟨mid, k₁, t₁, hstep, h⟩ := gives_bind.mp h
      have hwithin := runWithin_of_runs hfix hstart hrun
      have hlt := stepsLeft_lt hwithin.within hfix hended (steps_of_gives hstep)
      rw [← bodyResolver_eq hwithin.path_eq] at hstep
      exact ih m (Nat.lt_succ_self m) (hrun.step hended hstep) (fun _ => by omega) h

/-- More steps than are left make no difference. -/
theorem finishWithin_eq (hfix : 0 < s.config.maxFixpointIterations) (h : st.Within s)
    (hn : ¬ st.Ended → stepsLeft s st ≤ n) (hm : ¬ st.Ended → stepsLeft s st ≤ m) :
    finishWithin resolve s n st = finishWithin resolve s m st := by
  induction n using Nat.strong_induction_on generalizing m st with
  | _ n ih =>
    by_cases hended : st.Ended
    · rw [finishWithin_of_ended hended, finishWithin_of_ended hended]
    cases hopen : s.transaction.isOpen with
    | false => rw [finishWithin_of_closed hended hopen, finishWithin_of_closed hended hopen]
    | true =>
      have hpos := @stepsLeft_pos s st hended
      have hn := hn hended
      have hm := hm hended
      obtain ⟨n, rfl⟩ := Nat.exists_eq_succ_of_ne_zero (by omega : n ≠ 0)
      obtain ⟨m, rfl⟩ := Nat.exists_eq_succ_of_ne_zero (by omega : m ≠ 0)
      rw [finishWithin_succ hended hopen, finishWithin_succ hended hopen]
      refine bind_congr_of_gives fun k t st' k' t' hstep => ?_
      have hsteps := steps_of_gives hstep
      have hlt := stepsLeft_lt h hfix hended hsteps
      exact ih n (Nat.lt_succ_self n) (h.step hfix hsteps) (fun _ => by omega) fun _ => by omega

theorem nextWithin_of_pending {a : Answer} {pending : List Answer} (h : st.pending = a :: pending) :
    nextWithin resolve s n st = pure (some (.ok a), { st with pending }) := by
  rw [nextWithin.eq_def]
  dsimp only
  rw [h]

theorem nextWithin_of_ended (hpending : st.pending = []) (h : st.Ended) :
    nextWithin resolve s n st = pure (none, st) := by
  rw [nextWithin.eq_def]
  dsimp only
  rw [hpending]
  exact if_pos h

theorem nextWithin_of_closed (hpending : st.pending = []) (h : ¬ st.Ended)
    (hclosed : s.transaction.isOpen = false) :
    nextWithin resolve s n st = pure (some (.error st.interrupted), { st with failed := true }) := by
  rw [nextWithin.eq_def]
  dsimp only
  rw [hpending]
  exact (if_neg h).trans (if_pos (by simp [hclosed]))

/-- With a round to spare a stream makes a step and goes on. -/
theorem nextWithin_succ (hpending : st.pending = []) (h : ¬ st.Ended)
    (hopen : s.transaction.isOpen = true) : nextWithin resolve s (n + 1) st = (do
      match ← (step resolve s st).run with
      | .ok st' => nextWithin resolve s n st'
      | .error e => return (some (.error e), { st with failed := true })) := by
  rw [nextWithin.eq_def]
  dsimp only
  rw [hpending]
  exact (if_neg h).trans (if_neg (by simp [hopen]))

theorem run_nextWithin_succ (hpending : st.pending = []) (h : ¬ st.Ended)
    (hopen : s.transaction.isOpen = true) (k : Knowledge) (t : Supply) :
    ((nextWithin resolve s (n + 1) st).run k).run t =
      match ((step resolve s st).run.run k).run t with
      | ((.ok st', k'), t') => ((nextWithin resolve s n st').run k').run t'
      | ((.error e, k'), t') => (((some (.error e), { st with failed := true }), k'), t') := by
  rw [nextWithin_succ hpending h hopen, StateT.run_bind, StateT.run_bind]
  rcases ((step resolve s st).run.run k).run t with ⟨⟨e | mid, l⟩, u⟩
  · rfl
  · rfl

/-- A stream that is asked for what comes next runs on, and there is nothing only at its end. -/
theorem runs_of_nextWithin (hfix : 0 < s.config.maxFixpointIterations) (hstart : start.Within s)
    (hrun : Runs s start n st) (hm : ¬ st.Ended → stepsLeft s st ≤ m)
    {r : Option (Except InferenceError Answer)}
    (h : ((nextWithin (bodyResolver s start) s m st).run k).run t = (((r, st'), k'), t')) :
    (∃ n', Runs s start n' st') ∧ (r = none → st'.Ended) := by
  induction m using Nat.strong_induction_on generalizing n st k t with
  | _ m ih =>
    rcases hpending : st.pending with _ | ⟨a, pending⟩
    case cons =>
      rw [nextWithin_of_pending hpending] at h
      cases h
      exact ⟨⟨n, hrun.take hpending⟩, fun h => nomatch h⟩
    by_cases hended : st.Ended
    · rw [nextWithin_of_ended hpending hended] at h
      cases h
      exact ⟨⟨n, hrun⟩, fun _ => hended⟩
    cases hopen : s.transaction.isOpen with
    | false =>
      rw [nextWithin_of_closed hpending hended hopen] at h
      cases h
      exact ⟨⟨n, hrun.close hended hopen⟩, fun h => nomatch h⟩
    | true =>
      have hpos := @stepsLeft_pos s st hended
      have hleft := hm hended
      obtain ⟨m, rfl⟩ := Nat.exists_eq_succ_of_ne_zero (by omega : m ≠ 0)
      have hwithin := runWithin_of_runs hfix hstart hrun
      rw [run_nextWithin_succ hpending hended hopen] at h
      rcases hstep : ((step (bodyResolver s start) s st).run.run k).run t with ⟨⟨e | mid, l⟩, u⟩
      · rw [hstep] at h
        cases h
        rw [← bodyResolver_eq hwithin.path_eq] at hstep
        exact ⟨⟨n + 1, hrun.fail hended hstep⟩, fun h => nomatch h⟩
      · rw [hstep] at h
        have hlt := stepsLeft_lt hwithin.within hfix hended (steps_of_gives hstep)
        rw [← bodyResolver_eq hwithin.path_eq] at hstep
        exact ih m (Nat.lt_succ_self m) (hrun.step hended hstep) (fun _ => by omega) h

/-! ## Nested streams -/

/-- The streams that are open at once, the innermost first: each after some run, and all but the
outermost opened for the body of the rule that the next one applies. -/
inductive Chain (s : Setting) : List AnswerStream → Prop where
  | outermost {q : AtomicQuery} {n : Nat} {st : AnswerStream}
    (hrun : Runs s { query := q, path := [] } n st) : Chain s [st]
  | nested {st st' : AnswerStream} {outer : List AnswerStream} {id : RuleId} {u : Unifier}
    {rulesLeft : List (RuleId × Unifier)} {r : CompiledRule} {b : AtomicQuery} {i : QueryId} {n : Nat}
    (h : Chain s (st :: outer)) (hrunning : ¬ st.Ended) (hstage : st.stage = .needsRuleExpansion)
    (hleft : st.rulesLeft = (id, u) :: rulesLeft) (hr : s.rules.get? id = some r) (hb : b ∈ r.body)
    (hrun : Runs s { query := b.renumber i, path := st.query :: st.path } n st') :
    Chain s (st' :: st :: outer)

section Chain

variable {outer : List AnswerStream}

/-- A stream of a chain has run since it was opened. -/
theorem Chain.exists_runs (h : Chain s (st :: outer)) :
    ∃ q path n, Runs s { query := q, path } n st := by
  cases h with
  | outermost hrun => exact ⟨_, _, _, hrun⟩
  | nested _ _ _ _ _ _ hrun => exact ⟨_, _, _, hrun⟩

/-- The path of a stream is made up of the queries of the streams outside it. -/
theorem Chain.path_eq (hfix : 0 < s.config.maxFixpointIterations) (h : Chain s (st :: outer)) :
    st.path = outer.map query := by
  induction outer generalizing st with
  | nil =>
    cases h with
    | outermost hrun => exact (runWithin_of_runs hfix (within_start _ _) hrun).path_eq
  | cons st₁ outer ih =>
    cases h with
    | nested h _ _ _ _ _ hrun =>
      rw [(runWithin_of_runs hfix (within_start _ _) hrun).path_eq, ih h, List.map_cons]

/-- No two queries on the path of a stream are equivalent, and they are no more than the recursion
depth. -/
theorem Chain.path_bounded (hfix : 0 < s.config.maxFixpointIterations) (h : Chain s (st :: outer)) :
    st.path.Pairwise (fun q r => q.isEquivalent r = false ∧ r.isEquivalent q = false) ∧
      st.path.length ≤ s.config.maxRecursionDepth := by
  induction outer generalizing st with
  | nil => rw [h.path_eq hfix]; exact ⟨.nil, Nat.zero_le _⟩
  | cons st₁ outer ih =>
    cases h with
    | nested h _ hstage _ _ _ hrun =>
      rw [(runWithin_of_runs hfix (within_start _ _) hrun).path_eq]
      obtain ⟨hpairwise, -⟩ := ih h
      -- The stream outside expands a rule, so it was not cut.
      obtain ⟨q, path, n, hrun₁⟩ := h.exists_runs
      have huncut : ¬ st₁.Cut s :=
        (runWithin_of_runs hfix (within_start q path) hrun₁).within.uncut (.inr hstage)
      refine ⟨List.pairwise_cons.mpr ⟨fun r hr => ?_, hpairwise⟩, ?_⟩
      · have hoff : ¬ r.isEquivalent st₁.query = true := fun hmeets =>
          huncut (.inl (List.any_eq_true.mpr ⟨r, hr, hmeets⟩))
        exact ⟨Bool.eq_false_iff.mpr (mt AtomicQuery.isEquivalent_symm hoff), Bool.eq_false_iff.mpr hoff⟩
      · have hlt : ¬ s.config.maxRecursionDepth ≤ st₁.path.length := fun hdeep => huncut (.inr hdeep)
        rw [List.length_cons]
        omega

end Chain

/-! ## Draining -/

theorem joinBody_congr {resolve' : Resolver} {path : ResolutionPath}
    (h : ∀ q, resolve path q = resolve' path q) (rows : List JoinRow) (body : List AtomicQuery) :
    joinBody resolve path rows body = joinBody resolve' path rows body := by
  induction body generalizing rows with
  | nil => rfl
  | cons q body ih => simp only [joinBody, h, ih]

/-- A step resolves nothing but queries under the one that it expands. -/
theorem step_congr {resolve' : Resolver}
    (h : ∀ q, resolve (st.query :: st.path) q = resolve' (st.query :: st.path) q) :
    step resolve s st = step resolve' s st := by
  unfold step applyRule
  simp only [joinBody_congr h]

theorem finishWithin_congr {resolve' : Resolver}
    (h : ∀ q, resolve (st.query :: st.path) q = resolve' (st.query :: st.path) q) :
    finishWithin resolve s n st = finishWithin resolve' s n st := by
  induction n generalizing st with
  | zero => rw [finishWithin.eq_def, finishWithin.eq_def]
  | succ n ih =>
    by_cases hended : st.Ended
    · rw [finishWithin_of_ended hended, finishWithin_of_ended hended]
    cases hopen : s.transaction.isOpen with
    | false => rw [finishWithin_of_closed hended hopen, finishWithin_of_closed hended hopen]
    | true =>
      rw [finishWithin_succ hended hopen, finishWithin_succ hended hopen, step_congr h]
      refine bind_congr_of_gives fun k t st' k' t' hstep => ih fun q => ?_
      have hsteps := steps_of_gives hstep
      rw [hsteps.query_eq, hsteps.path_eq, h]

/-- A stream that is cut resolves nothing. -/
theorem finishWithin_congr_of_cut {resolve' : Resolver} (hstage : st.stage = .unresolved)
    (hcut : st.Cut s) : finishWithin resolve s n st = finishWithin resolve' s n st := by
  cases n with
  | zero => rw [finishWithin.eq_def, finishWithin.eq_def]
  | succ n =>
    by_cases hended : st.Ended
    · rw [finishWithin_of_ended hended, finishWithin_of_ended hended]
    cases hopen : s.transaction.isOpen with
    | false => rw [finishWithin_of_closed hended hopen, finishWithin_of_closed hended hopen]
    | true =>
      have hstep : step resolve s st = step resolve' s st := by
        unfold step
        rw [hstage]
      rw [finishWithin_succ hended hopen, finishWithin_succ hended hopen, hstep]
      refine bind_congr_of_gives fun k t st' k' t' hgives => ?_
      have hended' : st'.Ended := by
        cases steps_of_gives hgives with
        | cut | unruled | finished => exact .inr rfl
        | lookedUp _ huncut => exact absurd hcut huncut
        | ruled h | applied h | repeated h => rw [hstage] at h; cases h
        | ended h => exact .inr h
      rw [finishWithin_of_ended hended', finishWithin_of_ended hended']

/-- The resolver of a body drains a stream for each query. -/
theorem bodyResolver_eq_drain (s : Setting) (st : AnswerStream) (q : AtomicQuery) :
    bodyResolver s st (st.query :: st.path) q = drain s { query := q, path := st.query :: st.path } := by
  unfold bodyResolver drain drainWith
  cases hdepth : s.config.maxRecursionDepth - (st.path.length + 1) with
  | zero =>
    have hcut : ({ query := q, path := st.query :: st.path } : AnswerStream).Cut s := by
      refine .inr ?_
      show s.config.maxRecursionDepth ≤ st.path.length + 1
      omega
    rw [resolveWithin, drainWith, finishWithin_congr_of_cut rfl hcut]
  | succ depth =>
    have hrest : s.config.maxRecursionDepth - ((st.query :: st.path).length + 1) = depth := by
      rw [List.length_cons]
      omega
    rw [resolveWithin, drainWith, bodyResolver, hrest]

/-- To drain a stream is to finish it, draining a stream for each query of a body. -/
theorem drain_eq_drainWith (s : Setting) (st : AnswerStream) :
    drain s st = drainWith (fun path q => drain s { query := q, path }) s st := by
  have hfinish : finishWithin (bodyResolver s st) s (stepBound s) st =
      finishWithin (fun path q => drain s { query := q, path }) s (stepBound s) st :=
    finishWithin_congr (bodyResolver_eq_drain s st)
  rw [drain, drainWith, hfinish, drainWith]

/-- Resolution stays within its bounds: those of the path along every chain of streams, those of the
rounds and of the steps in every run of a stream. A stream that is drained therefore comes to its end,
however many more steps it were given, and so does one that is asked for its answers one by one. -/
theorem resolution_bounded (hvalid : s.config.validate = .ok s.config) :
    (∀ st outer, Chain s (st :: outer) → st.path = outer.map query ∧
      st.path.Pairwise (fun q r => q.isEquivalent r = false ∧ r.isEquivalent q = false) ∧
      st.path.length ≤ s.config.maxRecursionDepth) ∧
    ∀ q path n st, Runs s { query := q, path } n st →
      (st.round ≤ s.config.maxFixpointIterations ∧
        (st.stage = .needsRuleExpansion → st.round < s.config.maxFixpointIterations)) ∧
      (n ≤ 2 + s.config.maxFixpointIterations * ((s.rules.applicable q.central).length + 1) ∧
        (n = 2 + s.config.maxFixpointIterations * ((s.rules.applicable q.central).length + 1) →
          st.Ended)) ∧
      (∀ m, stepBound s ≤ m → finishWithin (bodyResolver s st) s m st =
        finishWithin (bodyResolver s st) s (stepBound s) st) ∧
      (∀ k t st' k' t', (finishWithin (bodyResolver s st) s (stepBound s) st).Gives k t st' k' t' →
        st'.Ended) ∧
      (∀ k t st' k' t', ((next s st).run k).run t = (((none, st'), k'), t') → st'.Ended) ∧
      drain s st = drainWith (fun path q => drain s { query := q, path }) s st := by
  obtain ⟨-, hfix⟩ := Config.pos_of_validate hvalid
  refine ⟨fun st outer h => ⟨h.path_eq hfix, h.path_bounded hfix⟩, fun q path n st hrun => ?_⟩
  have hstart := @within_start s q path
  have hwithin := runWithin_of_runs hfix hstart hrun
  have hbound : ¬ st.Ended → stepsLeft s st ≤ stepBound s := fun hrunning => by
    have := @stepsLeft_le_stepBound s q path
    have := hwithin.stepsLeft hrunning
    omega
  have hresolver := @bodyResolver_eq s _ _ hwithin.path_eq
  refine ⟨⟨hwithin.within.round, fun hstage => (hwithin.within.expanding hstage).1⟩,
    ⟨hwithin.steps, fun hn => ?_⟩, fun m hm => ?_, fun k t st' k' t' h => ?_,
    fun k t st' k' t' h => ?_, drain_eq_drainWith s st⟩
  · by_contra hrunning
    have hleft := hwithin.stepsLeft hrunning
    have hpos := @stepsLeft_pos s st hrunning
    simp only [stepsLeft] at hleft hpos
    omega
  · exact finishWithin_eq hfix hwithin.within (fun h => (hbound h).trans hm) hbound
  · rw [hresolver] at h
    exact (ended_of_gives_finishWithin hfix hstart hrun hbound h).2
  · unfold next at h
    rw [hresolver] at h
    exact (runs_of_nextWithin hfix hstart hrun hbound h).2 rfl

end AnswerStream

/-! ## A symmetric rule -/

namespace Friendship

def transaction : Transaction where
  name := ""
  graph := [.relationType ⟨"friendship"⟩ [⟨"friend"⟩]].foldl Graph.perform {}

/-- `(friend: $v, friend: $w) isa friendship;` -/
def friends (v w : String) (anchor : Nat) : Conjunction :=
  ⟨[⟨.generated anchor, [.relation [⟨some ⟨"friend"⟩, .named v⟩, ⟨some ⟨"friend"⟩, .named w⟩],
    .isa (.label ⟨"friendship"⟩)]⟩]⟩

/-- Friends are friends the other way round. -/
def rule : Rule where
  label := "symmetric-friendship"
  body := friends "x" "y" 0
  head := friends "y" "x" 1

def setting : Setting where
  transaction := transaction
  config := {}
  rules := ((RuleSet.add {} transaction rule).resultOr { vars := 2 } (default, {})).2

def query : AtomicQuery :=
  ((Decomposition.ofConjunction transaction (friends "a" "b" 2)).resultOr { vars := 9 }
    ⟨⟨[]⟩, []⟩).queries.headD default

/-- The rule depends on itself, but no path is longer than 16, and 66 steps are enough for a stream of
friends. -/
theorem resolution_bounded_friends : setting.rules.isRecursive ⟨0⟩ = true ∧
    (∀ st outer, AnswerStream.Chain setting (st :: outer) → st.path.length ≤ 16) ∧
    ∀ st, AnswerStream.Runs setting { query := query, path := [] } 66 st → st.Ended := by
  have hlen : (setting.rules.applicable query.central).length = 1 := by decide +kernel
  obtain ⟨hchain, hruns⟩ := AnswerStream.resolution_bounded (s := setting) rfl
  refine ⟨by decide +kernel, fun st outer h => (hchain st outer h).2.2, fun st hrun => ?_⟩
  obtain ⟨-, hsteps, -⟩ := hruns query [] 66 st hrun
  exact hsteps.2 (by rw [hlen]; rfl)

end Friendship

end GraphInference
