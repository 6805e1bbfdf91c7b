import Pyka.Broker.Admin

/-!
# The control plane

What an operator asks over HTTP, beside the records: which topics there are,
how a partition is cut into segments, to start a new segment, to sync. Each of
it is asked of the same store that serves the records, while it does
(`Admin.machine`).

## Answers

The schemas are those of the source, with a field for each of theirs. What is
said of a segment is read off the segment as it is in memory. A body that the
framework turns down, because it asks for fewer than one partition, does not
come to the endpoint; that it asks for one at least is a field of
`CreateTopic`.

Exceptions are mapped to statuses in one place (`Admin.toThread`), except in
the creation of a topic, which has a clause of its own and maps a name that is
no good to the same status.

## Both planes

`Admin.machine` is `Node.machine` with the requests over HTTP among the
others. A roll changes the log that the data plane appends to, since both have
the same object; so it is put back where the registry has it (`putLog`). That
nobody notices is shown in `Broker.ControlSpec`.
-/

namespace Pyka

namespace Admin

/-! ## Schemas

What is asked and answered, field by field. -/

/-- `CreateTopic`: a body that asks for fewer than one partition is turned
down before anything here sees it. -/
structure CreateTopic where
  name : String
  partitions : Option ℕ
  partitions_ge : ∀ n, partitions = some n → 1 ≤ n

/-- What is said of a segment: where it starts and ends, how large it is, and
whether it is sealed. -/
structure SegmentInfo where
  baseOffset : ℤ
  nextOffset : ℤ
  sizeBytes : ℕ
  indexEntries : ℕ
  sealed : Bool
  deriving DecidableEq, Repr

/-- What is said of a partition: the chain of its segments, and what they come
to together. -/
structure PartitionInfo where
  partition : ℤ
  baseOffset : ℤ
  nextOffset : ℤ
  sizeBytes : ℕ
  segments : List SegmentInfo
  deriving DecidableEq, Repr

/-- A topic, and its number of partitions. -/
structure TopicInfo where
  name : String
  partitions : ℕ
  deriving DecidableEq, Repr

/-- What a broker says of itself. -/
structure BrokerInfo where
  brokerId : ℕ
  brokers : ℕ
  ready : Bool
  topics : ℕ
  deriving DecidableEq, Repr

/-- What is said of a segment, read off it. -/
def SegmentInfo.of (s : Segment) : SegmentInfo where
  baseOffset := s.baseOffset
  nextOffset := s.nextOffset
  sizeBytes := s.position
  indexEntries := s.index.entries.length
  sealed := s.closed

/-- **`_partition_info`**: the segments in order, from the first base to the
next offset. -/
def partitionInfo (partition : ℤ) (log : Log) : PartitionInfo :=
  let segments := log.segments.map SegmentInfo.of
  { partition
    baseOffset := (segments.headD (.of log.active)).baseOffset
    nextOffset := log.nextOffset
    sizeBytes := (segments.map SegmentInfo.sizeBytes).sum
    segments }

/-! ## Endpoints

Each asks the store, and maps what it raises. -/

/-- `readyz`: the status, and the body. -/
def readyz (s : Store) : ℕ × Bool := (if s.ready then 200 else 503, s.ready)

/-- Of the topics it counts those on disk, whether they are open or not. -/
def brokerInfo (s : Store) (v : Volume) : BrokerInfo where
  brokerId := s.ring.me
  brokers := s.ring.brokers
  ready := s.ready
  topics := (Topic.names v).length

section Codec

variable [Crc32]

/-- `create_topic`. It has its own `except ValueError`. -/
def createTopic (s : Store) (v : Volume) (body : CreateTopic) :
    Except HttpError TopicInfo × Store × Volume :=
  let (res, s, v) := s.create v body.name body.partitions
  (match res with
    | .ok count => .ok ⟨body.name, count⟩
    | .error e => .error (if e.isValueError then .status 400 e.text else .unhandled e), s, v)

/-- A topic that is there, with its number of partitions. -/
def describeTopic (s : Store) (v : Volume) (name : String) :
    Except HttpError TopicInfo × Store × Volume :=
  let (res, s, v) := s.partitionsOf v name
  ((toThread res).map fun count => ⟨name, count⟩, s, v)

/-- **`describe_partition`**: the segments of a partition. -/
def describePartition (s : Store) (v : Volume) (name : String) (partition : ℤ) :
    Except HttpError PartitionInfo × Store × Volume :=
  let (res, topic, v) := s.topic.get v name partition
  match toThread res with
  | .error e => (.error e, { s with topic }, v)
  | .ok log => (toThread (.ok (partitionInfo partition log)), { s with topic }, v)

/-- A log changes where the registry has it: who asked for it has the same
object. -/
def putLog (t : Topic) (name : String) (p : ℕ) (log : Log) : Topic :=
  match t.opened.lookup name with
  | none => t
  | some topic =>
    match topic.stored.lookup p with
    | none => t
    | some entry => t.setEntry name topic p { entry with log }

/-- **`roll_partition`**: seal the active segment and start a new one. -/
def rollPartition (s : Store) (v : Volume) (name : String) (partition : ℤ) :
    Except HttpError SegmentInfo × Store × Volume :=
  let (res, topic, v) := s.topic.get v name partition
  match toThread res with
  | .error e => (.error e, { s with topic }, v)
  | .ok log =>
    let (res, log, disk) := log.roll (v.disk name partition.toNat)
    (toThread (res.map fun () => .of log.active),
      { s with topic := putLog topic name partition.toNat log }, v.onPart name partition.toNat disk)

/-! ## The control plane beside the data plane

One machine for both, as there is one store. -/

/-- What can be asked over HTTP. -/
inductive Request
  | createTopic (body : CreateTopic)
  | describeTopic (name : String)
  | listTopics
  | brokerInfo
  | readyz
  | describePartition (name : String) (partition : ℤ)
  | syncTopic (name : String)
  | rollPartition (name : String) (partition : ℤ)

/-- The answers, by kind. -/
inductive Reply
  /-- There is nobody to ask. -/
  | idle
  | topic (answer : Except HttpError TopicInfo)
  | names (names : List String)
  | broker (info : BrokerInfo)
  | ready (code : ℕ) (ready : Bool)
  | partition (answer : Except HttpError PartitionInfo)
  | synced (answer : Except HttpError (List (String × String)))
  | segment (answer : Except HttpError SegmentInfo)

/-- Ask a store. -/
def Request.exec (s : Store) (v : Volume) : Request → Reply × Store × Volume
  | .createTopic body =>
    let (res, s, v) := Admin.createTopic s v body
    (.topic res, s, v)
  | .describeTopic name =>
    let (res, s, v) := Admin.describeTopic s v name
    (.topic res, s, v)
  | .listTopics => (.names (Topic.names v), s, v)
  | .brokerInfo => (.broker (Admin.brokerInfo s v), s, v)
  | .readyz => (.ready (Admin.readyz s).1 (Admin.readyz s).2, s, v)
  | .describePartition name partition =>
    let (res, s, v) := Admin.describePartition s v name partition
    (.partition res, s, v)
  | .syncTopic name =>
    let (res, s, v) := Admin.syncTopic s v name
    (.synced res, s, v)
  | .rollPartition name partition =>
    let (res, s, v) := Admin.rollPartition s v name partition
    (.segment res, s, v)

/-- What happens to a broker: to its data plane or its life, or something is
asked over HTTP. -/
inductive Event
  | data (act : Node.Act)
  | control (request : Request)

/-- An answer of one plane or the other. -/
inductive Answer
  | data (answer : Node.Answer)
  | control (reply : Reply)

/-- **Both planes of a broker over its lives.** What is asked over HTTP while
no broker is alive is answered by nobody. -/
def machine : Machine Node Event Answer where
  step n
    | .data act =>
      let (answer, n) := Node.machine.step n act
      (.data answer, n)
    | .control request =>
      match n.store with
      | none => (.control .idle, n)
      | some s =>
        let (reply, s, v) := request.exec s (.of n.root)
        (.control reply, ⟨some s, v.root⟩)

end Codec

end Admin

end Pyka
