import Pyka.Broker.Node

/-!
# Streams and appends on the event loop

`BrokerServicer.Consume` and `Store.append` as the event loop runs them: many
at a time, each from one `await` to the next without another in between, while
worker threads do the reads and writes. An append's task may be cancelled
while its thread goes on.

`LiveTail.exec` says what one such step does; the steps come in any order.

## Where a stream can be

The source is a generator with a loop in it, and its `await`s and `yield`s are
where others have their turn. So a stream is its local variables and one of
its `Phase`s: waiting for the thread that reads a batch, going on with a batch
that was read, in the middle of yielding it, parked until an event is set, or
at one of its two ends. What lies between two of these is one step, and it is
written as the source has it: `again` is the head of the loop, where a stream
that follows subscribes before it asks for a batch; `afterBatch` is what comes
after the last record of one. What a stream has yielded is kept in `out`, and
no step reads it.

## Where an append can be

Its job waits for a worker thread; a thread has taken it; the thread is back,
with a record in the log; and the event loop has notified those who wait. The
last two are apart because the notification is sent on the event loop, after
the `await`: in between, a reader may find the record, and the task of the
append may be cancelled. A job that no thread has taken yet is dropped when
its task is cancelled. One that is running is not: its record is written, and
nobody is notified.

## Closing

The tail is closed by a step of its own, at any moment. That is what
`Store.close` does first. What else is stopped, and in which order, is in
`Broker.Process`.
-/

namespace Pyka

open Struct (Bytes)

namespace LiveTail

/-! ## Streams

`Consume` as it runs on the event loop. Each function is what is done between
two places at which another may come in. -/

/-- Where a `Consume` stands. `waiter` is the event it subscribed to, which
it does only when it follows; `limit` the size of the batch it asked for. -/
inductive Phase
  /-- Awaiting the batch from its thread. -/
  | reading (waiter : Option ℕ) (limit : ℤ)
  /-- The thread is back with the batch. -/
  | fetched (waiter : Option ℕ) (limit : ℤ) (res : Except Failure (List Record))
  /-- Amid `for record in batch: yield …`; `rest` is still to be yielded. -/
  | yielding (waiter : Option ℕ) (limit : ℤ) (fetched rest : List Record)
  /-- Awaiting the event, or that time is up. -/
  | parked (waiter : ℕ)
  | returned
  | aborted (failure : Failure)
  deriving DecidableEq

/-- A `Consume`: its variables, what it has yielded so far, and where it
stands. -/
structure Stream where
  request : ConsumeRequest
  offset : ℤ
  remaining : Option ℤ
  out : List Record
  phase : Phase

namespace Stream

/-- The size of the next batch: `BATCH`, or what is left of the number asked
for, if that is less. -/
def limit (st : Stream) : ℤ :=
  match st.remaining with
  | none => batch
  | some remaining => min batch remaining

/-- **From the top of the loop to the batch**: subscribe before reading. -/
def again (st : Stream) (tail : Tail) : Stream × Tail :=
  if st.request.follow then
    let (waiter, tail) := tail.subscribe st.request.topic st.request.partition
    ({ st with phase := .reading (some waiter) st.limit }, tail)
  else ({ st with phase := .reading none st.limit }, tail)

/-- **A request for a stream**, up to its first batch. -/
def start (request : ConsumeRequest) (tail : Tail) : Stream × Tail :=
  let remaining :=
    if 0 < request.maxRecords ∧ request.follow = false then some request.maxRecords else none
  again ⟨request, request.offset, remaining, [], .returned⟩ tail

/-- **From the last record of a batch** to the next batch, the end, or the
wait. Without an event to wait for the stream does not follow. -/
def afterBatch (st : Stream) (tail : Tail) (waiter : Option ℕ) (limit : ℤ)
    (fetched : List Record) : Stream × Tail :=
  let offset := (fetched.getLast?.map fun r => r.offset + 1).getD st.offset
  let st := { st with offset, remaining := st.remaining.map (· - (fetched.length : ℤ)) }
  if st.remaining.any (· ≤ 0) then ({ st with phase := .returned }, tail)
  else if (fetched.length : ℤ) = limit then st.again tail
  else
    match waiter with
    | none => ({ st with phase := .returned }, tail)
    | some waiter =>
      if tail.closed then ({ st with phase := .returned }, tail)
      else ({ st with phase := .parked waiter }, tail)

/-- **Yield the next record** of a batch, or go on after the last. -/
def advance (st : Stream) (tail : Tail) (waiter : Option ℕ) (limit : ℤ)
    (fetched : List Record) : List Record → Stream × Tail
  | [] => st.afterBatch tail waiter limit fetched
  | r :: rest =>
    ({ st with out := st.out ++ [r], phase := .yielding waiter limit fetched rest }, tail)

/-- **After the wait**, whichever way it ended: the event was set, or
`POLL_SECONDS` have passed. A tail that is closed ends the stream. -/
def awake (st : Stream) (tail : Tail) : Stream × Tail :=
  if tail.closed then ({ st with phase := .returned }, tail) else st.again tail

end Stream

/-! ## Appends

`Store.append` as it runs: a job for a worker thread, and behind it, on the
event loop, the notification. -/

/-- Where a `Store.append` stands. Whether its task was cancelled is kept
beside (`Append`). -/
inductive AppendPhase
  /-- Its job waits for a worker thread. -/
  | queued
  /-- A thread has taken the job. -/
  | running
  /-- The thread is back: the record is in the log. -/
  | written (partition offset : ℤ)
  /-- The followers have been notified, and the call has returned. -/
  | notified (partition offset : ℤ)
  /-- The thread raised. -/
  | failed (e : PyError)
  /-- Cancelled before a thread took the job. -/
  | dropped
  deriving DecidableEq

/-- The thread is back, with a place for the record or with what was raised. -/
def AppendPhase.after : Except PyError (ℤ × ℤ) → AppendPhase
  | .ok (partition, offset) => .written partition offset
  | .error e => .failed e

/-- A call of `Store.append`, with what it was asked to append. -/
structure Append where
  name : String
  key : Option Bytes
  value : Option Bytes
  timestamp : Option ℤ
  partition : Option ℤ
  phase : AppendPhase
  /-- `CancelledError` was raised in the task that awaits the thread. -/
  cancelled : Bool

/-! ## Steps

All that can happen next on a broker, one thing at a time. An act that is not
possible in a state has no step from it. -/

/-- A store on its data root, and the calls on it: those that have ended stay
in the lists. -/
structure State where
  store : Store
  root : Root
  streams : List Stream
  appends : List Append

/-- **What can happen next.** -/
inductive Act
  | consume (request : ConsumeRequest)
  /-- A thread reads the batch of a stream. -/
  | fetch (i : ℕ)
  /-- The event loop goes on with a stream. -/
  | resume (i : ℕ)
  /-- The event a stream waits for is set. -/
  | wake (i : ℕ)
  /-- `POLL_SECONDS` have passed. -/
  | timeout (i : ℕ)
  | append (name : String) (key value : Option Bytes) (timestamp partition : Option ℤ)
  /-- A thread takes the job of an append. -/
  | take (j : ℕ)
  /-- The thread appends. -/
  | write (j : ℕ) (clock : ℤ) (elapsed : ℚ)
  /-- The event loop goes on with an append. -/
  | notify (j : ℕ)
  /-- The task of an append is cancelled at its `await`. -/
  | cancel (j : ℕ)
  /-- `Tail.close` -/
  | close

namespace State

/-- A stream, and the tail, after a step. Nothing else of the store changes by
it. -/
def put (s : State) (i : ℕ) (out : Stream × Tail) : State :=
  { s with streams := s.streams.set i out.1, store := { s.store with tail := out.2 } }

/-- An append after a step that changes nothing else. -/
def putAppend (s : State) (j : ℕ) (a : Append) : State := { s with appends := s.appends.set j a }

end State

variable [Crc32]

/-- **One step**, where it is possible. A reading and a writing thread do
their work in one step each; that they may be carried out at the same moment
is the subject of `Storage.Interleaving`. -/
def exec (s : State) : Act → Option State
  | .consume request =>
    let (st, tail) := Stream.start request s.store.tail
    some { s with streams := s.streams ++ [st], store := { s.store with tail } }
  | .fetch i => do
    let st ← s.streams[i]?
    match st.phase with
    | .reading waiter limit =>
      let (res, store, v) := Handler.read s.store (.of s.root) st.request st.offset limit
      some { s with streams := s.streams.set i { st with phase := .fetched waiter limit res },
                    store, root := v.root }
    | _ => none
  | .resume i => do
    let st ← s.streams[i]?
    match st.phase with
    | .fetched _ _ (.error failure) =>
      some (s.put i ({ st with phase := .aborted failure }, s.store.tail))
    | .fetched waiter limit (.ok records) =>
      some (s.put i (st.advance s.store.tail waiter limit records records))
    | .yielding waiter limit fetched rest =>
      some (s.put i (st.advance s.store.tail waiter limit fetched rest))
    | _ => none
  | .wake i => do
    let st ← s.streams[i]?
    match st.phase with
    | .parked waiter =>
      if s.store.tail.isSet waiter then some (s.put i (st.awake s.store.tail)) else none
    | _ => none
  | .timeout i => do
    let st ← s.streams[i]?
    match st.phase with
    | .parked _ => some (s.put i (st.awake s.store.tail))
    | _ => none
  | .append name key value timestamp partition =>
    some { s with appends := s.appends
      ++ [⟨name, key, value, timestamp, partition, .queued, false⟩] }
  | .take j => do
    let a ← s.appends[j]?
    match a.phase with
    | .queued => some (s.putAppend j { a with phase := .running })
    | _ => none
  | .write j clock elapsed => do
    let a ← s.appends[j]?
    match a.phase with
    | .running =>
      let (res, topic, v) :=
        s.store.topic.append (.of s.root) a.name a.key a.value a.timestamp a.partition clock elapsed
      some { s with appends := s.appends.set j { a with phase := .after res },
                    store := { s.store with topic }, root := v.root }
    | _ => none
  | .notify j => do
    let a ← s.appends[j]?
    match a.phase, a.cancelled with
    | .written partition offset, false =>
      some { s with appends := s.appends.set j { a with phase := .notified partition offset },
                    store := { s.store with tail := s.store.tail.notify a.name partition } }
    | _, _ => none
  | .cancel j => do
    let a ← s.appends[j]?
    match a.phase with
    | .queued => some (s.putAppend j { a with phase := .dropped, cancelled := true })
    | .running => some (s.putAppend j { a with cancelled := true })
    | .written _ _ => some (s.putAppend j { a with cancelled := true })
    | .failed _ => some (s.putAppend j { a with cancelled := true })
    | _ => none
  | .close => some { s with store := { s.store with tail := s.store.tail.close } }

/-- **The calls on a broker that has just started**, on any data root it may
find: whatever lives there were before, ended or killed. -/
def system : System State Act where
  start s := ∃ before ring settings, (Node.machine.run .empty before).2.store = none
    ∧ (Node.machine.step (Node.machine.run .empty before).2 (.start ring settings)).2
      = ⟨some s.store, s.root⟩
    ∧ s.streams = [] ∧ s.appends = []
  step s act s' := exec s act = some s'

end LiveTail

end Pyka
