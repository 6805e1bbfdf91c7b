import Pyka.Broker.Store

/-!
# The service

What a broker answers to requests: `Produce`, `ProduceStream`, `Metadata`, and
the reads that `Consume` is made of. An exception of the layers below becomes
the status a call is aborted with, or is not handled at all.

## How a call fails

To abort a call is to raise, so nothing behind it is carried out, and the
client sees a code and a text. Which exceptions are caught differs from one
method to another, and the order of the `except` clauses decides, since some
of the classes are subclasses of others: an offset out of range is a
`ValueError`, and so is a text of JSON that cannot be read. What is caught by
none is `Failure.unhandled`; the client sees that as `UNKNOWN`, and the broker
goes on.

The details of a refusal are the texts of the source, since the client shows
them and finds the owner's address in them. `PyError.text` is `str(err)`;
where the interpreter or the operating system makes up the text, it is empty
here.

## Requests

A field of a message that may be missing is an `Option`: `HasField` decides,
and not whether the value is empty. A key of no bytes is a key. In an answer,
a field that was not asked for is missing as well.

The streaming of records back to the client is `Broker.LiveTail`; here are the
batches it is made of.
-/

namespace Pyka

open Struct (Bytes)

/-- One record to be appended. What of key, value, time and partition is
missing is left to the broker, or is what a record may lack. -/
structure ProduceRequest where
  topic : String
  key : Option Bytes
  value : Option Bytes
  timestamp : Option ℤ
  correlationId : Option ℤ
  partition : Option ℤ

/-- Where a record has landed, with the number that the client gave the
request. -/
structure ProduceResponse where
  partition : ℤ
  offset : ℤ
  correlationId : Option ℤ
  deriving DecidableEq, Repr

/-- From where in a partition to read, how many records, and whether to wait
for more at the end. -/
structure ConsumeRequest where
  topic : String
  partition : ℤ
  offset : ℤ
  follow : Bool
  maxRecords : ℤ

/-- The statuses a call is aborted with, of those that gRPC has. -/
inductive StatusCode
  | notFound
  | failedPrecondition
  | outOfRange
  | invalidArgument
  deriving DecidableEq, Repr

/-- How a call fails: aborted, or by an exception nothing catches. -/
inductive Failure
  | abort (code : StatusCode) (details : String)
  | unhandled (e : PyError)
  deriving DecidableEq, Repr

/-- `str(err)`, which is the text an RPC is aborted with. The exceptions that
carry a text of the interpreter's or the operating system's own have none
here. -/
def PyError.text : PyError → String
  | .valueError msg => msg
  | .corruptRecord msg => msg
  | .corruptLog msg => msg
  | .offsetOutOfRange msg => msg
  | .runtimeError msg => msg
  | .unknownTopic name => pyRepr name
  | .partitionNotLocal msg => pyRepr msg
  | .exceptionGroup msg => msg
  | .structError => ""
  | .fileNotFound => ""
  | .osError => ""
  | .jsonDecodeError => ""

/-- `BATCH`, the records fetched at a time: between two batches others have
their turn. -/
def batch : ℕ := 500

namespace Handler

/-- The refusal that names the owner, with its address. A ring that has no
address for it raises. -/
def belongsTo (ring : Ring) (topic : String) (partition : ℤ) : Failure :=
  match do
    let owner ← ring.brokerFor topic partition
    return (owner, ← ring.addressOf owner) with
  | .error e => .unhandled e
  | .ok (owner, address) =>
    .abort .failedPrecondition
      (s!"partition {partition} of {pyRepr topic} belongs to broker {owner} "
      ++ s!"at {address} — refresh metadata")

section Codec

variable [Crc32]

/-- **`_redirect`**: tell the client which broker to talk to. Where the client
has not routed the record, the partitioner is asked again. -/
def redirect (s : Store) (v : Volume) (topic : String) (partition : Option ℤ)
    (key : Option Bytes) : Failure × Store × Volume :=
  match partition with
  | some p => (belongsTo s.ring topic p, s, v)
  | none =>
    match s.route v topic key with
    | (.error e, s, v) => (.unhandled e, s, v)
    | (.ok p, s, v) => (belongsTo s.ring topic p, s, v)

/-- `_append`: the record is stored, or the request is refused. Of what is
caught, a partition of another broker comes first. -/
def append (s : Store) (v : Volume) (request : ProduceRequest) (clock : ℤ) (elapsed : ℚ) :
    Except Failure (ℤ × ℤ) × Store × Volume :=
  match s.append v request.topic request.key request.value request.timestamp request.partition
      clock elapsed with
  | (.ok placed, s, v) => (.ok placed, s, v)
  | (.error (.partitionNotLocal _), s, v) =>
    let (failure, s, v) := redirect s v request.topic request.partition request.key
    (.error failure, s, v)
  | (.error e, s, v) =>
    (.error (if e.isValueError then .abort .invalidArgument e.text else .unhandled e), s, v)

/-- **`Produce`**: append one record, and answer where it landed, with the
number that was given. -/
def produce (s : Store) (v : Volume) (request : ProduceRequest) (clock : ℤ) (elapsed : ℚ) :
    Except Failure ProduceResponse × Store × Volume :=
  let (res, s, v) := append s v request clock elapsed
  (res.map fun placed => ⟨placed.1, placed.2, request.correlationId⟩, s, v)

/-- **`ProduceStream`**: one response for each request, up to the first that
is refused. Each request comes with what the clocks said at it. -/
def produceStream (s : Store) (v : Volume) : List (ProduceRequest × ℤ × ℚ) →
    List ProduceResponse × Option Failure × Store × Volume
  | [] => ([], none, s, v)
  | (request, clock, elapsed) :: requests =>
    match produce s v request clock elapsed with
    | (.error failure, s, v) => ([], some failure, s, v)
    | (.ok response, s, v) =>
      let (responses, failure, s, v) := produceStream s v requests
      (response :: responses, failure, s, v)

/-- **`_read`**: a batch for `Consume`. A topic that is not there is refused,
and not created. -/
def read (s : Store) (v : Volume) (request : ConsumeRequest) (offset : ℤ) (limit : ℤ) :
    Except Failure (List Record) × Store × Volume :=
  match s.read v request.topic offset request.partition limit with
  | (.ok records, s, v) => (.ok records, s, v)
  | (.error (.unknownTopic _), s, v) =>
    (.error (.abort .notFound s!"no topic {pyRepr request.topic}"), s, v)
  | (.error (.partitionNotLocal _), s, v) =>
    (.error (belongsTo s.ring request.topic request.partition), s, v)
  | (.error (.offsetOutOfRange msg), s, v) => (.error (.abort .outOfRange msg), s, v)
  | (.error e, s, v) =>
    (.error (if e.isValueError then .abort .invalidArgument e.text else .unhandled e), s, v)

/-- The owner of every partition, and the owner's address, as the ring of this
broker has it. -/
def partitionMetadata (ring : Ring) (topic : String) (partitions : ℕ) :
    Except PyError (List (ℕ × ℕ × String)) :=
  (List.range partitions).mapM fun (p : ℕ) => do
    let owner ← ring.brokerFor topic p
    return (p, owner, ← ring.addressOf owner)

/-- **`Metadata`** for one topic asked for by name: its partitions, each
with the owner and the owner's address. -/
def metadata (s : Store) (v : Volume) (topic : String) :
    Except Failure (List (ℕ × ℕ × String)) × Store × Volume :=
  match s.partitionsOf v topic with
  | (.error (.unknownTopic _), s, v) =>
    (.error (.abort .notFound s!"no topic {pyRepr topic} on this broker"), s, v)
  | (.error e, s, v) =>
    (.error (if e.isValueError then .abort .invalidArgument e.text else .unhandled e), s, v)
  | (.ok partitions, s, v) =>
    (match partitionMetadata s.ring topic partitions with
      | .error e => .error (.unhandled e)
      | .ok table => .ok table, s, v)

end Codec

end Handler

end Pyka
