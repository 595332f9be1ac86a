import GraphInference.Proofs.Resolution.Calls

/-!
# Streams of a closed transaction

What a stream says when it is asked again and again is a list of answers, one error at the most, and nothing
after that. Once its transaction is closed it finds no more: what it still says are the answers that were
pending (`AnswerStream.remaining`) and, unless it was at its end, that it was interrupted. The transaction may
be closed between any two calls: `AnswerStream.cancellation`.
-/

namespace GraphInference

/-- The moment with its transaction closed. -/
def Moment.close (m : Moment) : Moment :=
  { m with transaction := m.transaction.close }

namespace AnswerStream

variable {s : Setting} {st : AnswerStream} {ms : List Moment}

/-- The answers, then the errors, then nothing for `n` times. -/
def sayings (answers : List Answer) (errors : List InferenceError) (n : Nat) :
    List (Option (Except InferenceError Answer)) :=
  answers.map (fun a => some (.ok a)) ++ (errors.map (fun e => some (.error e)) ++ List.replicate n none)

@[simp] theorem sayings_cons (a : Answer) (answers : List Answer) (errors : List InferenceError) (n : Nat) :
    sayings (a :: answers) errors n = some (.ok a) :: sayings answers errors n := rfl

@[simp] theorem sayings_nil_cons (e : InferenceError) (errors : List InferenceError) (n : Nat) :
    sayings [] (e :: errors) n = some (.error e) :: sayings [] errors n := rfl

@[simp] theorem sayings_nil_nil (n : Nat) : sayings [] [] n = List.replicate n none := rfl

theorem take_sayings_succ (answers : List Answer) (errors : List InferenceError) (n : Nat) :
    (sayings answers errors (n + 1)).take n = (sayings answers errors n).take n := by
  have hsucc : sayings answers errors (n + 1) = sayings answers errors n ++ [none] := by
    simp [sayings, List.replicate_succ']
  have hlength : n ≤ (sayings answers errors n).length := by
    simp [sayings]
    omega
  rw [hsucc, List.take_append_of_le_length hlength]

/-- The error that a stream has left to tell when its transaction is closed. -/
def interruption (st : AnswerStream) : List InferenceError :=
  if st.Ended then [] else [st.interrupted]

theorem call_of_pending {a : Answer} {pending : List Answer} (h : st.pending = a :: pending) (m : Moment) :
    call s m st = (some (.ok a), { st with pending }) := by
  unfold call next
  rw [nextWithin_of_pending h]
  rfl

theorem call_close (hpending : st.pending = []) (h : ¬ st.Ended) (m : Moment) :
    call s m.close st = (some (.error st.interrupted), { st with failed := true }) := by
  unfold call next
  rw [nextWithin_of_closed hpending h rfl]
  rfl

theorem calls_append (before after : List Moment) :
    calls s (before ++ after) st =
      ((calls s before st).1 ++ (calls s after (calls s before st).2).1,
        (calls s after (calls s before st).2).2) := by
  induction before generalizing st with
  | nil => rfl
  | cons m before ih =>
    rw [List.cons_append, calls, ih]
    rfl

/-- After its transaction is closed a stream tells what is pending and that it was interrupted, and its
answers stay as they are. -/
theorem calls_close (ms : List Moment) :
    (calls s (ms.map Moment.close) st).1 =
        (sayings st.pending st.interruption ms.length).take ms.length ∧
      (calls s (ms.map Moment.close) st).2.answers = st.answers := by
  induction ms generalizing st with
  | nil => exact ⟨rfl, rfl⟩
  | cons m ms ih =>
    rcases hpending : st.pending with _ | ⟨a, pending⟩
    case cons =>
      obtain ⟨hitems, hanswers⟩ := @ih { st with pending }
      rw [List.map_cons, calls, call_of_pending hpending, hitems, List.length_cons, sayings_cons,
        List.take_succ_cons, take_sayings_succ]
      exact ⟨rfl, hanswers⟩
    by_cases hended : st.Ended
    · rw [calls_of_ended hpending hended, interruption, if_pos hended, sayings_nil_nil, List.length_map,
        List.take_of_length_le (List.length_replicate ..).le]
      exact ⟨rfl, rfl⟩
    · have hfailed : ({ st with failed := true } : AnswerStream).Ended := .inl rfl
      rw [List.map_cons, calls, call_close hpending hended,
        @calls_of_ended s { st with failed := true } hpending hfailed, interruption, if_neg hended,
        List.length_cons, sayings_nil_cons, List.take_succ_cons, sayings_nil_nil, List.take_replicate,
        List.length_map, Nat.min_eq_left (Nat.le_succ _)]
      exact ⟨rfl, rfl⟩

/-- What a stream says is answers, one error at the most, and nothing after that. -/
theorem exists_sayings (hfix : 0 < s.config.maxFixpointIterations) (hst : st.Bounded s) (ms : List Moment) :
    ∃ answers errors n, (calls s ms st).1 = sayings answers errors n ∧ errors.length ≤ 1 := by
  induction ms generalizing st with
  | nil => exact ⟨[], [], 0, rfl, Nat.zero_le 1⟩
  | cons m ms ih =>
    have hresponds := responds_call hfix hst m
    rw [calls]
    rcases hr : (call s m st).1 with _ | ⟨e | a⟩
    · rw [hr] at hresponds
      obtain ⟨hpending, hended⟩ := hresponds.ended
      rw [calls_of_ended hpending hended]
      exact ⟨[], [], ms.length + 1, rfl, Nat.zero_le 1⟩
    · have hfailed := hresponds.failed_iff.mpr (.inr ⟨e, hr⟩)
      rw [hr] at hresponds
      rw [calls_of_ended hresponds.pending_of_error (.inl hfailed)]
      exact ⟨[], [e], ms.length, rfl, le_rfl⟩
    · obtain ⟨answers, errors, n, hitems, hone⟩ := ih (bounded_call hfix hst m)
      exact ⟨a :: answers, errors, n, by rw [hitems]; rfl, hone⟩

theorem query_calls (hfix : 0 < s.config.maxFixpointIterations) (hst : st.Bounded s) (ms : List Moment) :
    (calls s ms st).2.query = st.query := by
  induction ms generalizing st with
  | nil => rfl
  | cons m ms ih => exact (ih (bounded_call hfix hst m)).trans (responds_call hfix hst m).query_eq

/-- The transaction of a stream may be closed between any two calls. After that the stream yields the answers
that are pending, in order; then it tells once that it was interrupted, unless it is in a terminal stage or
has told an error before; then it says nothing for ever, and its answers stay as they are. Whatever happens to
a stream, it yields answers, tells one error at the most, and says nothing after that. -/
theorem cancellation (hvalid : s.config.validate = .ok s.config) (q : AtomicQuery) (path : ResolutionPath)
    (before after : List Moment) :
    let start : AnswerStream := { query := q, path }
    let items := (calls s before start).1
    let st := (calls s before start).2
    let all := (calls s (before ++ after.map Moment.close) start).1
    let last := (calls s (before ++ after.map Moment.close) start).2
    let isOver := st.stage.isTerminal = true ∨ ∃ e, some (.error e) ∈ items
    let closed : InferenceError := .transactionClosed ("transaction closed while resolving " ++ q.text)
    (isOver → all = items ++ (sayings st.pending [] after.length).take after.length) ∧
      (¬ isOver → all = items ++ (sayings st.pending [closed] after.length).take after.length) ∧
      last.answers = st.answers ∧
      ∃ answers errors n, items = sayings answers errors n ∧ errors.length ≤ 1 := by
  obtain ⟨-, hfix⟩ := Config.pos_of_validate hvalid
  have hstart := bounded_start s q path
  intro start items st all last isOver closed
  have hover : st.Ended ↔ isOver := by
    have hfailed : st.failed = true ↔ start.failed = true ∨ ∃ e, some (.error e) ∈ items :=
      failed_calls_iff hfix hstart
    rw [or_iff_right Bool.false_ne_true] at hfailed
    rw [Ended, hfailed, or_comm]
  have hclosed : st.interrupted = closed := by
    have hquery : st.query = q := query_calls hfix hstart before
    rw [interrupted, hquery]
  obtain ⟨hitems, hanswers⟩ := @calls_close s st after
  obtain ⟨hall, hlast⟩ : all = items ++ (calls s (after.map Moment.close) st).1 ∧
      last = (calls s (after.map Moment.close) st).2 := Prod.ext_iff.mp (calls_append before _)
  rw [hall, hlast, hitems, interruption, hclosed]
  refine ⟨fun h => ?_, fun h => ?_, hanswers, exists_sayings hfix hstart before⟩
  · rw [if_pos (hover.mpr h)]
  · rw [if_neg (mt hover.mp h)]

end AnswerStream

namespace TwoStudents

open AnswerStream

/-- When the transaction is closed after one answer, the other one is still yielded and then the interruption
is told. The rule is not applied any more. -/
theorem cancellation_students :
    let start : AnswerStream := { query, path := [] }
    let all := calls setting ([moment] ++ [moment, moment, moment].map Moment.close) start
    ∃ a b, a.binding = .ofList [(.named "x", ⟨"V3"⟩)] ∧ b.binding = .ofList [(.named "x", ⟨"V4"⟩)] ∧
      all.1 = [some (.ok a), some (.ok b),
        some (.error (.transactionClosed "transaction closed while resolving $x isa person;")), none] ∧
      all.2.answers = (calls setting [moment] start).2.answers := by
  intro start all
  obtain ⟨hitems, hpending, hstage, htext⟩ :
      (calls setting [moment] start).1.map (fun r => (answer? r).map Answer.binding) =
        [some (.ofList [(.named "x", ⟨"V3"⟩)])] ∧
      (calls setting [moment] start).2.pending.map Answer.binding = [.ofList [(.named "x", ⟨"V4"⟩)]] ∧
      (calls setting [moment] start).2.stage = .lookupAttempted ∧
      "transaction closed while resolving " ++ query.text =
        "transaction closed while resolving $x isa person;" := by
    decide +kernel
  obtain ⟨b, hpending, hb⟩ := List.map_eq_singleton_iff.mp hpending
  obtain ⟨r, hitems, hr⟩ := List.map_eq_singleton_iff.mp hitems
  obtain ⟨a, hr, ha⟩ := Option.map_eq_some_iff.mp hr
  obtain rfl : r = some (.ok a) := by
    rcases r with _ | ⟨e | c⟩
    · cases hr
    · cases hr
    · rw [Option.some.inj hr]
  obtain ⟨-, hrunning, hanswers, -⟩ :=
    cancellation (s := setting) rfl query [] [moment] [moment, moment, moment]
  rw [hitems, hstage, hpending, htext] at hrunning
  exact ⟨a, b, ha, hb, hrunning (by simp [Stage.isTerminal]), hanswers⟩

end TwoStudents

end GraphInference
