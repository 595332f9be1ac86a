import GraphInference.Proofs.Resolution.Failure

/-!
# Streams that are asked again and again

A stream is asked for its next answer at a moment (`Moment`): the transaction may have changed since it was
asked before and more may be known. What one call does is a relation without a bound on the steps
(`AnswerStream.Responds`), and what every call keeps is kept by all calls, one after the other. The answers
that were yielded and those that are pending are the answers that the stream has found, in order, each as it
was when its binding was new (`AnswerStream.Delivers`). From this and from the stages that a stream comes
through follows the discipline of streams: `AnswerStream.stream_discipline`.
-/

namespace GraphInference

open Resolve

/-! ## Answers and stages -/

namespace Answer

variable {a b c : Answer}

/-- The answer `b` is `a`, with further explanations perhaps. -/
structure IsExtendedBy (a b : Answer) : Prop where
  id : b.id = a.id
  binding : b.binding = a.binding
  explanation : b.explanation = a.explanation
  alternatives : ∃ further, b.alternatives = a.alternatives ++ further

theorem IsExtendedBy.refl (a : Answer) : a.IsExtendedBy a :=
  ⟨rfl, rfl, rfl, [], (List.append_nil _).symm⟩

theorem IsExtendedBy.trans (h : a.IsExtendedBy b) (h' : b.IsExtendedBy c) : a.IsExtendedBy c := by
  obtain ⟨further, hb⟩ := h.alternatives
  obtain ⟨more, hc⟩ := h'.alternatives
  exact ⟨h'.id.trans h.id, h'.binding.trans h.binding, h'.explanation.trans h.explanation,
    further ++ more, by rw [hc, hb, List.append_assoc]⟩

theorem isExtendedBy_addExplanation (a : Answer) (e : Explanation) :
    a.IsExtendedBy (a.addExplanation e) := by
  unfold addExplanation
  dsimp only
  split
  · exact .refl a
  · exact ⟨rfl, rfl, rfl, [e], rfl⟩

theorem isExtendedBy_foldl_addExplanation (a : Answer) (es : List Explanation) :
    a.IsExtendedBy (es.foldl addExplanation a) := by
  induction es generalizing a with
  | nil => exact .refl a
  | cons e es ih => exact (isExtendedBy_addExplanation a e).trans (ih _)

end Answer

namespace Stage

/-- The stages that may come after a stage. -/
def successors : Stage → List Stage
  | unresolved => [lookupAttempted, exhausted]
  | lookupAttempted => [resolvedByLookup, needsRuleExpansion]
  | needsRuleExpansion => [resolvedByRule]
  | resolvedByLookup | resolvedByRule | exhausted => []

/-- A stream goes on in its stage or comes into one of those that may come after it. -/
def GoesTo (a b : Stage) : Prop :=
  b = a ∨ b ∈ a.successors

/-- The stages go from `a` to `b`, one after the other. -/
def Leads (a : Stage) (stages : List Stage) (b : Stage) : Prop :=
  List.IsChain GoesTo (a :: stages) ∧ stages.getLastD a = b

theorem leads_nil (a : Stage) : a.Leads [] a :=
  ⟨.singleton a, rfl⟩

theorem Leads.cons {a b c : Stage} {stages : List Stage} (h : a.GoesTo b) (h' : b.Leads stages c) :
    a.Leads (b :: stages) c :=
  ⟨.cons_cons h h'.1, List.getLastD_cons.trans h'.2⟩

theorem Leads.append {a b c : Stage} {stages later : List Stage} (h : a.Leads stages b)
    (h' : b.Leads later c) : a.Leads (stages ++ later) c := by
  induction stages generalizing a with
  | nil =>
    obtain ⟨-, rfl⟩ := h
    exact h'
  | cons d stages ih =>
    obtain ⟨hchain, hlast⟩ := h
    exact .cons hchain.rel (ih ⟨hchain.tail, List.getLastD_cons.symm.trans hlast⟩)

end Stage

/-! ## One call -/

namespace AnswerStream

variable {resolve : Resolver} {s : Setting} {st st' : AnswerStream} {k k' : Knowledge} {t t' : Supply}
  {n m : Nat} {r : Option (Except InferenceError Answer)} {stages : List Stage}

/-- What comes next, with the stage after every step on the way. -/
def nextVisiting (resolve : Resolver) (s : Setting) : Nat → AnswerStream →
    Work ((Option (Except InferenceError Answer) × AnswerStream) × List Stage)
  | n, st =>
    match st.pending with
    | a :: pending => return ((some (.ok a), { st with pending }), [])
    | [] =>
      if st.failed ∨ st.stage.isTerminal then return ((none, st), [])
      else if ¬ s.transaction.isOpen then
        return ((some (.error st.interrupted), { st with failed := true }), [])
      else
        match n with
        | 0 => return ((none, st), [])
        | n + 1 => do
          match ← (step resolve s st).run with
          | .ok st => do
            let (r, stages) ← nextVisiting resolve s n st
            return (r, st.stage :: stages)
          | .error e => return ((some (.error e), { st with failed := true }), [])

/-- To look at the stages changes nothing. -/
theorem fst_map_nextVisiting (resolve : Resolver) (s : Setting) (n : Nat) (st : AnswerStream) :
    Prod.fst <$> nextVisiting resolve s n st = nextWithin resolve s n st := by
  induction n generalizing st with
  | zero =>
    rw [nextVisiting.eq_def, nextWithin.eq_def]
    dsimp only
    cases st.pending with
    | cons a pending => rfl
    | nil =>
      dsimp only
      split
      · rfl
      · split <;> rfl
  | succ n ih =>
    rw [nextVisiting.eq_def, nextWithin.eq_def]
    dsimp only
    cases st.pending with
    | cons a pending => rfl
    | nil =>
      dsimp only
      split
      · rfl
      · split
        · rfl
        · rw [map_bind]
          refine bind_congr fun x => ?_
          cases x with
          | error e => rfl
          | ok st' =>
            show Prod.fst <$> (do
              let x ← nextVisiting resolve s n st'
              return (x.1, st'.stage :: x.2)) = nextWithin resolve s n st'
            rw [← ih st', map_bind]
            exact (bind_congr fun x => map_pure _ _).trans (bind_pure_comp _ _)

/-- What a call does to a stream, with the stage after every step on the way. -/
inductive Responds (resolve : Resolver) (s : Setting) : AnswerStream → List Stage →
    Option (Except InferenceError Answer) → AnswerStream → Prop where
  | yields {st : AnswerStream} {a : Answer} {pending : List Answer} (hpending : st.pending = a :: pending) :
    Responds resolve s st [] (some (.ok a)) { st with pending }
  | ends {st : AnswerStream} (hpending : st.pending = []) (hended : st.Ended) :
    Responds resolve s st [] none st
  | interrupted {st : AnswerStream} (hpending : st.pending = []) (hrunning : ¬ st.Ended)
    (hclosed : s.transaction.isOpen = false) :
    Responds resolve s st [] (some (.error st.interrupted)) { st with failed := true }
  | fails {st : AnswerStream} {e : InferenceError} {k k' : Knowledge} {t t' : Supply}
    (hpending : st.pending = []) (hrunning : ¬ st.Ended) (hopen : s.transaction.isOpen = true)
    (hfail : (step resolve s st).Fails k t e k' t') :
    Responds resolve s st [] (some (.error e)) { st with failed := true }
  | steps {st mid st' : AnswerStream} {stages : List Stage} {r : Option (Except InferenceError Answer)}
    {k k' : Knowledge} {t t' : Supply} (hpending : st.pending = []) (hrunning : ¬ st.Ended)
    (hopen : s.transaction.isOpen = true) (hstep : Steps resolve s st k t mid k' t')
    (h : Responds resolve s mid stages r st') : Responds resolve s st (mid.stage :: stages) r st'

theorem responds_of_run_nextVisiting (hfix : 0 < s.config.maxFixpointIterations) (hst : st.Within s)
    (hm : ¬ st.Ended → stepsLeft s st ≤ m)
    (h : ((nextVisiting resolve s m st).run k).run t = ((((r, st'), stages), k'), t')) :
    Responds resolve s st stages r st' := by
  induction m generalizing st k t stages with
  | zero =>
    rw [nextVisiting.eq_def] at h
    dsimp only at h
    split at h
    next hpending => cases h; exact .yields hpending
    next hpending =>
      split at h
      next hended => cases h; exact .ends hpending hended
      next hrunning => exact absurd (hm hrunning) (stepsLeft_pos hrunning).not_ge
  | succ m ih =>
    rw [nextVisiting.eq_def] at h
    dsimp only at h
    split at h
    next hpending => cases h; exact .yields hpending
    next hpending =>
      split at h
      next hended => cases h; exact .ends hpending hended
      next hrunning =>
        split at h
        next hclosed => cases h; exact .interrupted hpending hrunning (Bool.eq_false_iff.mpr hclosed)
        next hopen =>
          have hopen : s.transaction.isOpen = true := not_not.mp hopen
          rw [StateT.run_bind, StateT.run_bind] at h
          rcases hstep : ((step resolve s st).run.run k).run t with ⟨⟨e | mid, l⟩, u⟩
          · rw [hstep] at h
            cases h
            exact .fails hpending hrunning hopen hstep
          · rw [hstep] at h
            have hsteps := steps_of_gives hstep
            have hlt := stepsLeft_lt hst hfix hrunning hsteps
            have hleft := hm hrunning
            rcases hnext : ((nextVisiting resolve s m mid).run l).run u with ⟨⟨⟨⟨r', last⟩, later⟩, l'⟩, u'⟩
            have h : ((((r', last), mid.stage :: later), l'), u') = ((((r, st'), stages), k'), t') := by
              rw [← h]
              show _ = ((do
                let x ← nextVisiting resolve s m mid
                return (x.1, mid.stage :: x.2) : Work _).run l).run u
              rw [StateT.run_bind, StateT.run_bind, hnext]
              rfl
            cases h
            exact .steps hpending hrunning hopen hsteps
              (ih (hst.step hfix hsteps) (fun _ => by omega) hnext)

/-! ## What a call keeps -/

/-- The rounds of a stream are within their bound, and a call may make the steps that are left. -/
structure Bounded (s : Setting) (st : AnswerStream) : Prop where
  within : st.Within s
  stepsLeft : ¬ st.Ended → st.stepsLeft s ≤ stepBound s

theorem bounded_start (s : Setting) (q : AtomicQuery) (path : ResolutionPath) :
    ({ query := q, path } : AnswerStream).Bounded s :=
  ⟨within_start q path, fun _ => stepsLeft_le_stepBound q path⟩

theorem Responds.query_eq (h : Responds resolve s st stages r st') : st'.query = st.query := by
  induction h with
  | yields | ends | interrupted | fails => rfl
  | steps _ _ _ hstep _ ih => exact ih.trans hstep.query_eq

theorem Responds.bounded (hfix : 0 < s.config.maxFixpointIterations)
    (h : Responds resolve s st stages r st') (hst : st.Bounded s) : st'.Bounded s := by
  induction h with
  | yields => exact ⟨⟨hst.1.round, hst.1.unstarted, hst.1.expanding, hst.1.uncut⟩, hst.2⟩
  | ends => exact hst
  | interrupted | fails =>
    exact ⟨⟨hst.1.round, hst.1.unstarted, hst.1.expanding, hst.1.uncut⟩,
      fun hrunning => absurd (.inl rfl) hrunning⟩
  | steps _ hrunning _ hstep _ ih =>
    refine ih ⟨hst.within.step hfix hstep, fun _ => ?_⟩
    exact (stepsLeft_lt hst.within hfix hrunning hstep).le.trans (hst.stepsLeft hrunning)

theorem Steps.goesTo (h : Steps resolve s st k t st' k' t') : st.stage.GoesTo st'.stage := by
  cases h with
  | cut hstage | lookedUp hstage | unruled hstage | ruled hstage | finished hstage =>
    rw [hstage]
    exact .inr (by simp [Stage.successors])
  | applied => exact .inl (by simp)
  | repeated | ended => exact .inl rfl

theorem Responds.leads (h : Responds resolve s st stages r st') : st.stage.Leads stages st'.stage := by
  induction h with
  | yields | ends | interrupted | fails => exact Stage.leads_nil _
  | steps _ _ _ hstep _ ih => exact .cons hstep.goesTo ih

/-- A stream that has nothing to say is at its end. -/
theorem Responds.ended (h : Responds resolve s st stages none st') : st'.pending = [] ∧ st'.Ended := by
  generalize hr : none = r at h
  induction h with
  | yields | interrupted | fails => cases hr
  | ends hpending hended => exact ⟨hpending, hended⟩
  | steps _ _ _ _ _ ih => exact ih hr

/-- A stream has failed when it has told an error. -/
theorem Responds.failed_iff (h : Responds resolve s st stages r st') :
    st'.failed = true ↔ st.failed = true ∨ ∃ e, r = some (.error e) := by
  induction h with
  | yields | ends => simp
  | interrupted | fails => simp
  | steps _ _ _ hstep _ ih => rw [ih, hstep.failed_eq]

/-- After an error nothing is pending. -/
theorem Responds.pending_of_error {e : InferenceError}
    (h : Responds resolve s st stages (some (.error e)) st') : st'.pending = [] := by
  generalize hr : some (Except.error e) = r at h
  induction h with
  | yields | ends => cases hr
  | interrupted hpending | fails hpending => exact hpending
  | steps _ _ _ _ _ ih => exact ih hr

/-! ## What is delivered -/

/-- The answer of a call, if there is one. -/
def answer? : Option (Except InferenceError Answer) → Option Answer
  | some (.ok a) => some a
  | some (.error _) => none
  | none => none

/-- The bindings that the stream has found are different, and its answers are those that were yielded and
those that are pending, in order, with further explanations perhaps. -/
structure Delivers (yielded : List Answer) (st : AnswerStream) : Prop where
  isSet : st.answers.IsSet
  entries : List.Forall₂ Answer.IsExtendedBy (yielded ++ st.pending) st.answers.answers

variable {yielded : List Answer}

theorem delivers_start (q : AtomicQuery) (path : ResolutionPath) :
    Delivers [] { query := q, path } :=
  ⟨List.nodup_nil, .nil⟩

theorem Delivers.emit (h : st.Delivers yielded) (a : Answer) : (st.emit a).Delivers yielded := by
  have hset := h.isSet.insert (a := a)
  unfold AnswerStream.emit
  by_cases hcontains : st.answers.contains a.binding = true
  · -- The binding is there already, and one entry is extended.
    rw [AnswerSet.insert, if_pos hcontains] at hset ⊢
    refine ⟨hset, ?_⟩
    show List.Forall₂ _ (yielded ++ st.pending) (st.answers.answers.map _)
    rw [List.forall₂_map_right_iff]
    refine h.entries.imp fun b c hbc => ?_
    split
    · exact hbc.trans (Answer.isExtendedBy_foldl_addExplanation c _)
    · exact hbc
  · rw [AnswerSet.insert, if_neg hcontains] at hset ⊢
    refine ⟨hset, ?_⟩
    show List.Forall₂ _ (yielded ++ (st.pending ++ [a])) (st.answers.answers ++ [a])
    rw [← List.append_assoc]
    exact List.rel_append h.entries (.cons (.refl a) .nil)

theorem Delivers.emitAll (h : st.Delivers yielded) (as : List Answer) :
    (st.emitAll as).Delivers yielded := by
  induction as generalizing st with
  | nil => exact h
  | cons a as ih => exact ih (h.emit a)

theorem Delivers.step (h : st.Delivers yielded) (hstep : Steps resolve s st k t st' k' t') :
    st'.Delivers yielded := by
  cases hstep with
  | cut | lookedUp =>
    have hemit := h.emitAll
    exact ⟨(hemit _).isSet, (hemit _).entries⟩
  | @applied _ id u rulesLeft _ as =>
    have hrest : ({ st with rulesLeft } : AnswerStream).Delivers yielded := ⟨h.isSet, h.entries⟩
    exact hrest.emitAll as
  | unruled | ruled | repeated | finished => exact ⟨h.isSet, h.entries⟩
  | ended => exact h

theorem Responds.delivers (h : Responds resolve s st stages r st') (hst : st.Delivers yielded) :
    st'.Delivers (yielded ++ (answer? r).toList) := by
  induction h with
  | yields hpending =>
    refine ⟨hst.isSet, ?_⟩
    have hentries := hst.entries
    rw [hpending] at hentries
    rwa [answer?, Option.toList_some, List.append_assoc, List.singleton_append]
  | ends => rwa [answer?, Option.toList_none, List.append_nil]
  | interrupted | fails =>
    rw [answer?, Option.toList_none, List.append_nil]
    exact ⟨hst.isSet, hst.entries⟩
  | steps _ _ _ hstep _ ih => exact ih (hst.step hstep)

end AnswerStream

/-! ## Calls one after another -/

/-- When a stream is asked: the transaction as it stands, what is known and the supply. -/
structure Moment where
  transaction : Transaction
  knowledge : Knowledge
  supply : Supply

/-- The setting as it is at a moment. -/
def Setting.during (s : Setting) (m : Moment) : Setting :=
  { s with transaction := m.transaction }

namespace AnswerStream

variable {s : Setting} {st : AnswerStream} {m : Moment} {ms : List Moment} {yielded : List Answer}

/-- What a stream says at a moment, and the stream after it. -/
def call (s : Setting) (m : Moment) (st : AnswerStream) :
    Option (Except InferenceError Answer) × AnswerStream :=
  (((next (s.during m) st).run m.knowledge).run m.supply).1.1

/-- The stages that a stream comes through when it is asked at a moment. -/
def stagesOfCall (s : Setting) (m : Moment) (st : AnswerStream) : List Stage :=
  (((nextVisiting (bodyResolver (s.during m) st) (s.during m) (stepBound s) st).run m.knowledge).run
    m.supply).1.1.2

/-- What a stream says at moments one after another, and the stream after them. -/
def calls (s : Setting) : List Moment → AnswerStream →
    List (Option (Except InferenceError Answer)) × AnswerStream
  | [], st => ([], st)
  | m :: ms, st => ((call s m st).1 :: (calls s ms (call s m st).2).1, (calls s ms (call s m st).2).2)

/-- The stages that a stream comes through when it is asked at moments one after another. -/
def stagesOfCalls (s : Setting) : List Moment → AnswerStream → List Stage
  | [], _ => []
  | m :: ms, st => stagesOfCall s m st ++ stagesOfCalls s ms (call s m st).2

/-- The bounds do not depend on the transaction. -/
theorem bounded_during_iff : st.Bounded (s.during m) ↔ st.Bounded s :=
  ⟨fun h => ⟨⟨h.1.round, h.1.unstarted, h.1.expanding, h.1.uncut⟩, h.2⟩,
    fun h => ⟨⟨h.1.round, h.1.unstarted, h.1.expanding, h.1.uncut⟩, h.2⟩⟩

/-- Every call does to a stream what a call can do. -/
theorem responds_call (hfix : 0 < s.config.maxFixpointIterations) (hst : st.Bounded s) (m : Moment) :
    Responds (bodyResolver (s.during m) st) (s.during m) st (stagesOfCall s m st) (call s m st).1
      (call s m st).2 := by
  obtain ⟨hwithin, hleft⟩ := bounded_during_iff (m := m).mpr hst
  rcases hrun : ((nextVisiting (bodyResolver (s.during m) st) (s.during m) (stepBound s) st).run
    m.knowledge).run m.supply with ⟨⟨⟨⟨r, st'⟩, stages⟩, k'⟩, t'⟩
  have hcall : call s m st = (r, st') := by
    rw [call, next, ← fst_map_nextVisiting, StateT.run_map, StateT.run_map]
    exact congrArg (fun x => x.1.1.1) hrun
  have hstages : stagesOfCall s m st = stages := congrArg (fun x => x.1.1.2) hrun
  rw [hcall, hstages]
  exact responds_of_run_nextVisiting hfix hwithin hleft hrun

theorem bounded_call (hfix : 0 < s.config.maxFixpointIterations) (hst : st.Bounded s) (m : Moment) :
    (call s m st).2.Bounded s :=
  bounded_during_iff.mp ((responds_call hfix hst m).bounded hfix (bounded_during_iff.mpr hst))

/-- The stages of all calls follow each other. -/
theorem leads_calls (hfix : 0 < s.config.maxFixpointIterations) (hst : st.Bounded s) (ms : List Moment) :
    st.stage.Leads (stagesOfCalls s ms st) (calls s ms st).2.stage := by
  induction ms generalizing st with
  | nil => exact Stage.leads_nil _
  | cons m ms ih => exact (responds_call hfix hst m).leads.append (ih (bounded_call hfix hst m))

/-- What the calls yielded and what is pending are the answers of the stream. -/
theorem Delivers.calls (hfix : 0 < s.config.maxFixpointIterations) (hst : st.Bounded s)
    (h : st.Delivers yielded) (ms : List Moment) :
    (calls s ms st).2.Delivers (yielded ++ (calls s ms st).1.filterMap answer?) := by
  induction ms generalizing st yielded with
  | nil => rwa [AnswerStream.calls, List.filterMap_nil, List.append_nil]
  | cons m ms ih =>
    have hnext := ih (bounded_call hfix hst m) ((responds_call hfix hst m).delivers h)
    rw [List.append_assoc] at hnext
    rw [AnswerStream.calls, List.filterMap_cons]
    cases hr : answer? (call s m st).1 with
    | none => rwa [hr] at hnext
    | some a => rwa [hr] at hnext

/-- A stream at its end says nothing more. -/
theorem calls_of_ended (hpending : st.pending = []) (hended : st.Ended) (ms : List Moment) :
    calls s ms st = (List.replicate ms.length none, st) := by
  induction ms with
  | nil => rfl
  | cons m ms ih =>
    have hcall : call s m st = (none, st) := by
      rw [call, next, nextWithin_of_ended hpending hended]
      rfl
    rw [calls, hcall, ih]
    rfl

/-- A stream that has had nothing to say is at its end. -/
theorem ended_calls (hfix : 0 < s.config.maxFixpointIterations) (hst : st.Bounded s)
    (h : none ∈ (calls s ms st).1) : (calls s ms st).2.pending = [] ∧ (calls s ms st).2.Ended := by
  induction ms generalizing st with
  | nil => cases h
  | cons m ms ih =>
    rcases List.mem_cons.mp h with hnone | hlater
    · obtain ⟨hpending, hended⟩ := (hnone ▸ responds_call hfix hst m).ended
      rw [calls, calls_of_ended hpending hended]
      exact ⟨hpending, hended⟩
    · exact ih (bounded_call hfix hst m) hlater

/-- A stream has failed when it has told an error. -/
theorem failed_calls_iff (hfix : 0 < s.config.maxFixpointIterations) (hst : st.Bounded s) :
    (calls s ms st).2.failed = true ↔ st.failed = true ∨ ∃ e, some (.error e) ∈ (calls s ms st).1 := by
  induction ms generalizing st with
  | nil => simp [calls]
  | cons m ms ih =>
    rw [calls, ih (bounded_call hfix hst m), (responds_call hfix hst m).failed_iff, or_assoc]
    simp only [List.mem_cons, exists_or, eq_comm]

/-! ## The discipline of streams -/

theorem binding_eq_of_forall₂ {as bs : List Answer} (h : List.Forall₂ Answer.IsExtendedBy as bs) :
    as.map Answer.binding = bs.map Answer.binding :=
  List.forall₂_eq_eq_eq ▸ (List.forall₂_map_left_iff.mpr (List.forall₂_map_right_iff.mpr
    (h.imp fun _ _ hab => hab.binding.symm)))

/-- However often a stream is asked, and whatever becomes of the graph and of what is known between two
calls: the bindings that were yielded are different and are the first ones of its answers, the others are
the pending ones, and each of its answers is the one that was yielded or is pending, with further
explanations perhaps. Its stages follow each other as they may. When it has had nothing to say it has yielded
every one of its answers, and it is in a terminal stage if it has told no error. -/
theorem stream_discipline (hvalid : s.config.validate = .ok s.config) (q : AtomicQuery)
    (path : ResolutionPath) (ms : List Moment) :
    let start : AnswerStream := { query := q, path }
    let items := (calls s ms start).1
    let st := (calls s ms start).2
    let yielded := items.filterMap answer?
    (yielded.map Answer.binding).Nodup ∧
      yielded.map Answer.binding = (st.answers.answers.map Answer.binding).take yielded.length ∧
      st.pending.map Answer.binding = (st.answers.answers.map Answer.binding).drop yielded.length ∧
      List.Forall₂ Answer.IsExtendedBy (yielded ++ st.pending) st.answers.answers ∧
      Stage.unresolved.Leads (stagesOfCalls s ms start) st.stage ∧
      (none ∈ items → st.pending = [] ∧ yielded.length = st.answers.answers.length ∧
        ((∀ e, some (.error e) ∉ items) → st.stage.isTerminal = true)) := by
  obtain ⟨-, hfix⟩ := Config.pos_of_validate hvalid
  have hstart := bounded_start s q path
  intro start items st yielded
  have hdelivers : st.Delivers yielded := (delivers_start q path).calls hfix hstart ms
  have hbindings := binding_eq_of_forall₂ hdelivers.entries
  rw [List.map_append] at hbindings
  have hset : (st.answers.answers.map Answer.binding).Nodup := hdelivers.isSet
  rw [← hbindings] at hset ⊢
  have hlength : (yielded.map Answer.binding).length = yielded.length := List.length_map _
  refine ⟨(List.nodup_append.mp hset).1, ?_, ?_, hdelivers.entries, leads_calls hfix hstart ms,
    fun hnone => ?_⟩
  · rw [← hlength, List.take_left]
  · rw [← hlength, List.drop_left]
  · obtain ⟨hpending, hended⟩ : st.pending = [] ∧ st.Ended := ended_calls hfix hstart hnone
    refine ⟨hpending, ?_, fun hclean => hended.resolve_left fun hfailed => ?_⟩
    · have hentries := hdelivers.entries.length_eq
      rwa [hpending, List.append_nil] at hentries
    · rcases (failed_calls_iff hfix hstart).mp hfailed with hfailed | ⟨e, he⟩
      · cases hfailed
      · exact hclean e he

end AnswerStream

/-! ## Two students -/

namespace TwoStudents

open AnswerStream

/-- Two students, who are persons as well. -/
def transaction : Transaction where
  name := ""
  graph := [.entityType ⟨"person"⟩, .entityType ⟨"student"⟩, .supertype ⟨"student"⟩ ⟨"person"⟩,
    .entity ⟨"student"⟩, .entity ⟨"student"⟩].foldl Graph.perform {}

/-- `$y isa student; => $y isa person;` -/
def rule : Rule where
  label := "student-is-person"
  body := ⟨[⟨.named "y", [.isa (.label ⟨"student"⟩)]⟩]⟩
  head := ⟨[⟨.named "y", [.isa (.label ⟨"person"⟩)]⟩]⟩

def setting : Setting where
  transaction := transaction
  config := {}
  rules := ((RuleSet.add {} transaction rule).resultOr {} (default, {})).2

/-- `$x isa person;` -/
def query : AtomicQuery :=
  ((Decomposition.ofConjunction transaction ⟨[⟨.named "x", [.isa (.label ⟨"person"⟩)]⟩]⟩).resultOr
    { vars := 9 } ⟨⟨[]⟩, []⟩).queries.headD default

def moment : Moment :=
  ⟨transaction, { programs := .ofCapacity 1 }, { vars := 18 }⟩

/-- The stream of persons, asked three times. -/
def asked : List (Option (Except InferenceError Answer)) × AnswerStream :=
  calls setting (List.replicate 3 moment) { query, path := [] }

/-- Both students are found in the graph and yielded, and there is nothing else. Meanwhile the rule has found
them again, so that the answers of the stream are the ones it yielded with one more explanation each. -/
theorem stream_discipline_students :
    (asked.1.filterMap answer?).map Answer.binding =
        [.ofList [(.named "x", ⟨"V3"⟩)], .ofList [(.named "x", ⟨"V4"⟩)]] ∧
      asked.2.answers.answers.map (fun a => a.alternatives.length) = [1, 1] ∧
      List.Forall₂ Answer.IsExtendedBy (asked.1.filterMap answer?) asked.2.answers.answers ∧
      Stage.unresolved.Leads [.lookupAttempted, .needsRuleExpansion, .needsRuleExpansion, .resolvedByRule]
        asked.2.stage := by
  obtain ⟨hbindings, hnone, halternatives, hstages⟩ :
      (asked.1.filterMap answer?).map Answer.binding =
        [.ofList [(.named "x", ⟨"V3"⟩)], .ofList [(.named "x", ⟨"V4"⟩)]] ∧
      asked.1.any Option.isNone = true ∧ asked.2.answers.answers.map (fun a => a.alternatives.length) = [1, 1] ∧
      stagesOfCalls setting (List.replicate 3 moment) { query, path := [] } =
        [.lookupAttempted, .needsRuleExpansion, .needsRuleExpansion, .resolvedByRule] := by
    decide +kernel
  obtain ⟨-, -, -, hentries, hleads, hend⟩ :=
    stream_discipline (s := setting) rfl query [] (List.replicate 3 moment)
  obtain ⟨r, hr, hnone⟩ := List.any_eq_true.mp hnone
  obtain ⟨hpending, -⟩ := hend (Option.isNone_iff_eq_none.mp hnone ▸ hr)
  rw [hpending, List.append_nil] at hentries
  rw [hstages] at hleads
  exact ⟨hbindings, halternatives, hentries, hleads⟩

end TwoStudents

end GraphInference
