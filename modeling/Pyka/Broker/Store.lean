import Pyka.Broker.Tail
import Pyka.Cluster.Ring
import Pyka.Topic.Topic

/-!
# The store

The one topic registry of a broker, its ring and its tail. `Store.open` opens
every topic on disk before the broker reports ready, and does not report ready
if there are partitions here that the ring gives to others. Nothing else looks
at `ready`: a store that was not opened, or that has orphans, answers what it
is asked, which is what `Broker.Refusal` is about.

## What the store adds to the registry

The registry is told by the ring which partitions are its own, as a predicate
on a topic's name and a partition; the ring's modulo and hashing modes both
come down to that. Each operation hands on to the registry's and carries the
rest along. Two do more: `append` wakes those who wait for the partition,
after the record is in the log and only if it is, and `read` takes a bounded
number of records off the registry's reading.

In the source an operation is carried out in a thread, and what is done behind
it, the waking, back on the event loop. Taken as one step here, it is taken
apart in `Broker.LiveTail` for a stream that must not miss a wake-up, and in
`Broker.Process` for a process that is stopped in between.

## Reading a bounded number

The reading of a log is a generator, so a limit means that what lies behind is
not looked at: an error further on is not raised (`Read.upTo`). A limit that
is not positive is none.
-/

namespace Pyka

open Struct (Bytes)

/-- `Store`; `orphans` maps a topic to its partitions that are here and owned
elsewhere, and `ready` is what the readiness probe reports. -/
structure Store where
  ring : Ring
  topic : Topic
  tail : Tail
  ready : Bool
  allowOrphans : Bool
  orphans : List (String × List ℕ)

/-- `Ring.owns`, for partitions, which are never negative; so the ring does
not refuse to answer, and what is left is a predicate. -/
def Ring.ownsPartition (r : Ring) (topic : String) (p : ℕ) : Bool :=
  match r.owns topic p with
  | .ok b => b
  | .error _ => false

/-- The predicate says what the ring says, in either mode. -/
theorem Ring.ownsPartition_eq (r : Ring) (topic : String) (p : ℕ) :
    r.owns topic p = .ok (r.ownsPartition topic p) := by
  obtain ⟨b, -, -, howns⟩ := r.owns_eq_ok topic (Int.natCast_nonneg p)
  rw [Ring.ownsPartition, howns]

/-- A broker on its own owns everything. -/
theorem Ring.ownsPartition_single {r : Ring} (h : r.brokers = 1) (topic : String) (p : ℕ) :
    r.ownsPartition topic p = true := by
  obtain ⟨b, hb, -, howns⟩ := r.owns_eq_ok topic (Int.natCast_nonneg p)
  have hme := r.me_lt
  rw [Ring.ownsPartition, howns]
  exact decide_eq_true (by omega)

/-- The first `limit` of the records that a read yields, all of them where
`limit` is not positive. -/
def Read.upTo (rd : Read) (limit : ℤ) : Except PyError (List Record) :=
  if 0 < limit ∧ limit ≤ rd.records.length then .ok (rd.records.take limit.toNat)
  else
    match rd.raised with
    | none => .ok rd.records
    | some e => .error e

namespace Store

/-- `Store(...)`: nothing is opened, and it is not ready. -/
def init (path : String) (partitions : ℕ) (syncPolicy : SyncPolicy) (maxSegmentBytes : ℤ)
    (ring : Ring) (allowOrphans : Bool) : Except PyError Store := do
  let topic ← Topic.init path partitions syncPolicy maxSegmentBytes ring.ownsPartition
  return { ring, topic, tail := .init, ready := false, allowOrphans, orphans := [] }

/-- `_find_orphans`: the topics that have a directory here which the ring
gives to others, each with these partitions. -/
def findOrphans (s : Store) (v : Volume) (names : List String) : List (String × List ℕ) :=
  names.filterMap fun name =>
    match s.topic.foreignPartitions v name with
    | [] => none
    | foreign => some (name, foreign)

section Codec

variable [Crc32]

/-- Create every topic of a list, that is open those that are there. The first
that cannot be opened ends the process that is starting. -/
def createAll : List String → Topic → Volume → Except PyError Unit × Topic × Volume
  | [], t, v => (.ok (), t, v)
  | name :: names, t, v =>
    match t.create v name none with
    | (.error e, t, v) => (.error e, t, v)
    | (.ok _, t, v) => createAll names t v

/-- **Recover every topic on disk**, and report ready unless there are
orphans that are not allowed. -/
def «open» (s : Store) (v : Volume) : Except PyError Unit × Store × Volume :=
  let names := Topic.names v
  match createAll names s.topic v with
  | (.error e, topic, v) => (.error e, { s with topic }, v)
  | (.ok (), topic, v) =>
    let s := { s with topic }
    let orphans := s.findOrphans v names
    let s := { s with orphans }
    (.ok (), if orphans ≠ [] ∧ s.allowOrphans = false then s else { s with ready := true }, v)

/-- Release the streams, and close every log: the waiting streams come first,
since the server waits for them to end. -/
def close (s : Store) (v : Volume) : Except PyError Unit × Store × Volume :=
  let (res, topic, v) := s.topic.close v
  (res, { s with ready := false, tail := s.tail.close, topic }, v)

/-! ## Operations

Each is the registry's, with the store around it. -/

/-- Create a topic; nobody is told, on this broker or another. -/
def create (s : Store) (v : Volume) (name : String) (partitions : Option ℕ) :
    Except PyError ℕ × Store × Volume :=
  let (res, topic, v) := s.topic.create v name partitions
  (res, { s with topic }, v)

/-- How many partitions a topic has. -/
def partitionsOf (s : Store) (v : Volume) (name : String) : Except PyError ℕ × Store × Volume :=
  let (res, topic, v) := s.topic.partitionsOf v name
  (res, { s with topic }, v)

/-- Where a key belongs, asked for a redirect. -/
def route (s : Store) (v : Volume) (name : String) (key : Option Bytes) :
    Except PyError ℕ × Store × Volume :=
  let (res, topic, v) := s.topic.route v name key
  (res, { s with topic }, v)

/-- **Append, and wake who waits for the partition.** -/
def append (s : Store) (v : Volume) (name : String) (key value : Option Bytes)
    (timestamp partition : Option ℤ) (clock : ℤ) (elapsed : ℚ) :
    Except PyError (ℤ × ℤ) × Store × Volume :=
  match s.topic.append v name key value timestamp partition clock elapsed with
  | (.error e, topic, v) => (.error e, { s with topic }, v)
  | (.ok (partition, offset), topic, v) =>
    (.ok (partition, offset), { s with topic, tail := s.tail.notify name partition }, v)

/-- **Read a bounded batch**: the reading is carried out to the limit, and is
not kept open between batches. -/
def read (s : Store) (v : Volume) (name : String) (offset : ℤ) (partition : ℤ) (limit : ℤ) :
    Except PyError (List Record) × Store × Volume :=
  let (res, topic, v) := s.topic.readFrom v name offset partition
  (res.bind fun rd => rd.upTo limit, { s with topic }, v)

end Codec

end Store

end Pyka
