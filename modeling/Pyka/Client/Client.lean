import Pyka.Base.Grouping
import Pyka.Broker.LiveTail
import Pyka.Cluster.Cluster

/-!
# The client

`Producer` and `Consumer`: a client asks some broker of the cluster for the
routing of a topic and keeps it, computes the partition of a record itself
with the function the broker uses, and talks to the owner of the partition.

## What is outside

`host` says which broker an address leads to, if any; a call that reaches no
broker that is up ends with `UNAVAILABLE`. Channels are opened and kept by the
client and are not looked at. What is outside the client comes with the
inputs: what the clocks of the broker say at a record, and whether the
deadline of a `send` has passed at an attempt. So a `send` has a list of
attempts, and no answer as long as it is still at it; how long it waits
between two of them does not matter.

## Errors

An exception of gRPC has a status, or says that nobody was there. `send` looks
at it in one place (`Producer.handle`): a refusal by a broker that is not the
owner has the table fetched again, an unreachable one is tried again, a topic
that is not there is raised as such, and anything else is the caller's.
`send_batch` looks at none, so what a stream ends with comes out of it as it
is.

## Records on the wire

A field that is missing and one that is empty are different things for a
record, and `optional` in the schema keeps them apart. A consumer asks whether
a field is set before it reads it; that what comes out is what was stored is
`Consumer.record_toProto`.
-/

namespace Pyka

open Struct (Bytes)

/-! ## Calls

What a call comes to at the client, and what the client raises for it. -/

/-- How a call that is not answered ends at the client: nobody was there, or a
broker said why. -/
inductive RpcError
  | unavailable
  | status (code : StatusCode) (details : String)
  /-- An exception that the broker did not handle. -/
  | unknown (e : PyError)
  deriving DecidableEq, Repr

/-- What a client gets for a failure of the broker. -/
def Failure.toRpc : Failure → RpcError
  | .abort code details => .status code details
  | .unhandled e => .unknown e

/-- The exceptions of the client, and those it lets through. -/
inductive ClientError
  /-- `UnknownTopic` -/
  | unknownTopic (message : String)
  /-- `PykaError`: no bootstrap broker answered; `last` is the last error. -/
  | noBroker (last : Option RpcError)
  /-- `PykaError` with the code and the details of an error. -/
  | refused (err : RpcError)
  /-- `DeliveryFailed` for a record that did not get to a partition in time. -/
  | deliveryFailed (topic : String) (partition : ℕ) (err : RpcError)
      (undelivered : List (String × Option Bytes × Option Bytes))
  /-- A `grpc.RpcError` that nothing catches. -/
  | rpcError (err : RpcError)
  | keyError (partition : ℤ)
  | pyError (e : PyError)
  deriving DecidableEq, Repr

section Calls

variable {cl : Cluster} {α : Type}

/-- **Call the broker at an address.** Only a broker that is up answers; its
node goes on by that, and the others stay as they are. -/
def call (host : String → Option (Fin cl.brokers)) (address : String) (nodes : Cluster.State cl)
    (f : Store → Volume → α × Store × Volume) : Option α × Cluster.State cl :=
  match host address with
  | none => (none, nodes)
  | some i =>
    match (nodes i).store with
    | none => (none, nodes)
    | some s =>
      let (res, s, v) := f s (.of (nodes i).root)
      (some res, Function.update nodes i ⟨some s, v.root⟩)

/-- What a call with one answer ends with. -/
def unary : Option (Except Failure α) → Except RpcError α
  | none => .error .unavailable
  | some (.error failure) => .error failure.toRpc
  | some (.ok answer) => .ok answer

end Calls

/-! ## Routing

A table from partitions to addresses, fetched from a bootstrap address and
kept by topic. -/

/-- `dict[int, str]`: the address of each partition's owner. -/
abbrev Routing := AList fun _ : ℤ => String

/-- `{p.partition: p.address for p in …}`, from what `Metadata` has answered. -/
def Routing.of (table : List (ℕ × ℕ × String)) : Routing :=
  table.foldl (fun routing p => routing.insert p.1 p.2.2) ∅

/-- `len(routing)`: what the client takes for the number of partitions. -/
def Routing.len (routing : Routing) : ℕ := routing.keys.length

/-- `_Connection`, without its channels: where to ask, what was answered, and
the turn of the client's own partitioner. -/
structure Connection where
  bootstrap : List String
  cache : AList fun _ : String => Routing
  partitioner : Partitioner

namespace Connection

/-- `_Connection(bootstrap)`: no table is kept as yet. -/
def init (bootstrap : List String) : Except ClientError Connection := do
  if bootstrap = [] then
    .error (.pyError (.valueError "at least one bootstrap address is required"))
  return ⟨bootstrap, ∅, ⟨0⟩⟩

section Routing

variable [Crc32] {cl : Cluster} (host : String → Option (Fin cl.brokers))

/-- `_fetch_routing`: the first bootstrap address that answers. A broker that
does not have the topic has answered. -/
def fetchRouting (topic : String) (nodes : Cluster.State cl) :
    List String → Option RpcError → Except ClientError Routing × Cluster.State cl
  | [], last => (.error (.noBroker last), nodes)
  | address :: addresses, _ =>
    let (res, nodes) := call host address nodes fun s v => Handler.metadata s v topic
    match unary res with
    | .ok table => (.ok (.of table), nodes)
    | .error (.status .notFound _) => (.error (.unknownTopic s!"no topic {pyRepr topic}"), nodes)
    | .error err => fetchRouting topic nodes addresses (some err)

/-- **`routing`**: fetched once, and again where that is asked for; a table
that was fetched is kept. -/
def routing (c : Connection) (nodes : Cluster.State cl) (topic : String) (refresh : Bool) :
    Except ClientError Routing × Connection × Cluster.State cl :=
  match (if refresh then none else c.cache.lookup topic) with
  | some table => (.ok table, c, nodes)
  | none =>
    match fetchRouting host topic nodes c.bootstrap none with
    | (.error e, nodes) => (.error e, c, nodes)
    | (.ok table, nodes) => (.ok table, { c with cache := c.cache.insert topic table }, nodes)

/-- `await_topic`, with what the clock says about the deadline after each
attempt; it goes on where that ends. -/
def awaitTopic (c : Connection) (nodes : Cluster.State cl) (topic : String) :
    List Bool → Option (Except ClientError Routing) × Connection × Cluster.State cl
  | [] => (none, c, nodes)
  | late :: rest =>
    match c.routing host nodes topic true with
    | (.error (.unknownTopic message), c, nodes) =>
      if late then (some (.error (.unknownTopic message)), c, nodes)
      else c.awaitTopic nodes topic rest
    | (res, c, nodes) => (some res, c, nodes)

/-- **`partition_for`**: by the key or in turn, with the number of entries in
the table. -/
def partitionFor (c : Connection) (nodes : Cluster.State cl) (topic : String) (key : Option Bytes) :
    Except ClientError ℕ × Connection × Cluster.State cl :=
  match c.routing host nodes topic false with
  | (.error e, c, nodes) => (.error e, c, nodes)
  | (.ok table, c, nodes) =>
    let (res, partitioner) := c.partitioner.partitionFor key table.len
    (res.mapError .pyError, { c with partitioner }, nodes)

/-- `self.routing(topic)[partition]`: it raises where the table does not have
the partition. -/
def addressFor (c : Connection) (nodes : Cluster.State cl) (topic : String) (partition : ℤ) :
    Except ClientError String × Connection × Cluster.State cl :=
  match c.routing host nodes topic false with
  | (.error e, c, nodes) => (.error e, c, nodes)
  | (.ok table, c, nodes) =>
    match table.lookup partition with
    | none => (.error (.keyError partition), c, nodes)
    | some address => (.ok address, c, nodes)

end Routing

end Connection

/-! ## Producer

One record until it is delivered, or many over one stream for each broker. -/

namespace Producer

variable [Crc32] {cl : Cluster} (host : String → Option (Fin cl.brokers))

/-- **Where a record is sent, and as what request.** A new attempt does this
again, so a record without a key takes another turn. -/
def prepare (c : Connection) (nodes : Cluster.State cl) (topic : String) (value key : Option Bytes)
    (timestamp : Option ℤ) :
    Except ClientError (ℕ × String × ProduceRequest) × Connection × Cluster.State cl :=
  match c.partitionFor host nodes topic key with
  | (.error e, c, nodes) => (.error e, c, nodes)
  | (.ok partition, c, nodes) =>
    match c.addressFor host nodes topic partition with
    | (.error e, c, nodes) => (.error e, c, nodes)
    | (.ok address, c, nodes) =>
      (.ok (partition, address, ⟨topic, key, value, timestamp, none, some partition⟩), c, nodes)

/-- **`_handle`**: is an error worth a retry? And what is to be done about it
before the next. -/
def handle (c : Connection) (nodes : Cluster.State cl) (topic : String) (err : RpcError) :
    Except ClientError Unit × Connection × Cluster.State cl :=
  match err with
  | .status .failedPrecondition _ =>
    match c.routing host nodes topic true with
    | (.error e, c, nodes) => (.error e, c, nodes)
    | (.ok _, c, nodes) => (.ok (), c, nodes)
  | .unavailable => (.ok (), c, nodes)
  | .status .notFound _ => (.error (.unknownTopic s!"no topic {pyRepr topic}"), c, nodes)
  | err => (.error (.refused err), c, nodes)

/-- What is outside at an attempt: the clock of the broker, the milliseconds
since it synced, and whether the deadline has passed when it is over. -/
structure Attempt where
  clock : ℤ
  elapsed : ℚ
  late : Bool

/-- **`send`**: attempts until one is answered, or an error is raised; it is
still at it after the attempts that are given. -/
def send (c : Connection) (nodes : Cluster.State cl) (topic : String) (value key : Option Bytes)
    (timestamp : Option ℤ) :
    List Attempt → Option (Except ClientError (ℤ × ℤ)) × Connection × Cluster.State cl
  | [] => (none, c, nodes)
  | attempt :: attempts =>
    match prepare host c nodes topic value key timestamp with
    | (.error e, c, nodes) => (some (.error e), c, nodes)
    | (.ok (partition, address, request), c, nodes) =>
      let (res, nodes) := call host address nodes fun s v =>
        Handler.produce s v request attempt.clock attempt.elapsed
      match unary res with
      | .ok response => (some (.ok (response.partition, response.offset)), c, nodes)
      | .error err =>
        match handle host c nodes topic err with
        | (.error e, c, nodes) => (some (.error e), c, nodes)
        | (.ok (), c, nodes) =>
          if attempt.late then
            (some (.error (.deliveryFailed topic partition err [(topic, key, value)])), c, nodes)
          else send c nodes topic value key timestamp attempts

/-- The requests of a batch by address. Each record comes with what the
clocks say at it. -/
def groupBatch (table : Routing) (topic : String)
    (grouped : List (String × List (ProduceRequest × ℤ × ℚ))) (c : Connection)
    (nodes : Cluster.State cl) : List (Option Bytes × Option Bytes × ℤ × ℚ) →
    Except ClientError (List (String × List (ProduceRequest × ℤ × ℚ)))
      × Connection × Cluster.State cl
  | [] => (.ok grouped, c, nodes)
  | (key, value, clocks) :: records =>
    match c.partitionFor host nodes topic key with
    | (.error e, c, nodes) => (.error e, c, nodes)
    | (.ok partition, c, nodes) =>
      match table.lookup (partition : ℤ) with
      | none => (.error (.keyError partition), c, nodes)
      | some address =>
        groupBatch table topic
          (Grouping.add address (⟨topic, key, value, none, none, some partition⟩, clocks) grouped)
          c nodes records

/-- One stream for each address, one after another. The first that ends with
an error ends it, whatever has been acknowledged. -/
def streams : List (String × List (ProduceRequest × ℤ × ℚ)) → Cluster.State cl →
    Except ClientError (List (ℤ × ℤ)) × Cluster.State cl
  | [], nodes => (.ok [], nodes)
  | (address, requests) :: grouped, nodes =>
    let (res, nodes) := call host address nodes fun s v =>
      let (responses, failure, s, v) := Handler.produceStream s v requests
      ((responses, failure), s, v)
    match res with
    | none => (.error (.rpcError .unavailable), nodes)
    | some (_, some failure) => (.error (.rpcError failure.toRpc), nodes)
    | some (responses, none) =>
      match streams grouped nodes with
      | (.error e, nodes) => (.error e, nodes)
      | (.ok results, nodes) =>
        (.ok (responses.map (fun r => (r.partition, r.offset)) ++ results), nodes)

/-- **`send_batch`**: group the records by address, and send each group over a
stream of its own. -/
def sendBatch (c : Connection) (nodes : Cluster.State cl) (topic : String)
    (records : List (Option Bytes × Option Bytes × ℤ × ℚ)) :
    Except ClientError (List (ℤ × ℤ)) × Connection × Cluster.State cl :=
  match c.routing host nodes topic false with
  | (.error e, c, nodes) => (.error e, c, nodes)
  | (.ok table, c, nodes) =>
    match groupBatch host table topic [] c nodes records with
    | (.error e, c, nodes) => (.error e, c, nodes)
    | (.ok grouped, c, nodes) =>
      let (res, nodes) := streams host grouped nodes
      (res, c, nodes)

end Producer

/-! ## Consumer

Reading one partition, as a stream that the broker has for itself to serve. -/

/-- `pb.Record`: a record on the wire, its `optional` fields set or not. -/
structure Message where
  offset : ℤ
  timestamp : ℤ
  key : Option Bytes
  value : Option Bytes

/-- What an `optional` field reads as: unset, it is empty. -/
def fieldValue (field : Option Bytes) : Bytes := field.getD []

/-- `_to_proto` -/
def toProto (r : Record) : Message :=
  let message : Message := ⟨r.offset, r.timestamp, none, none⟩
  let message := match r.key with
    | some key => { message with key := some key }
    | none => message
  match r.value with
  | some value => { message with value := some value }
  | none => message

namespace Consumer

/-- `Record`, as a consumer sees it: with the topic and the partition that it
asked for. -/
structure Record where
  topic : String
  partition : ℤ
  offset : ℤ
  timestamp : ℤ
  key : Option Bytes
  value : Option Bytes
  deriving DecidableEq, Repr

/-- `_record`, which asks whether a field is set before it reads it. -/
def record (topic : String) (partition : ℤ) (message : Message) : Record where
  topic
  partition
  offset := message.offset
  timestamp := message.timestamp
  key := if message.key.isSome then some (fieldValue message.key) else none
  value := if message.value.isSome then some (fieldValue message.value) else none

/-- The wire tells an absent field from an empty one. -/
theorem record_toProto (topic : String) (partition : ℤ) (r : Pyka.Record) :
    record topic partition (toProto r)
      = ⟨topic, partition, r.offset, r.timestamp, r.key, r.value⟩ := by
  obtain ⟨offset, timestamp, key, value⟩ := r
  cases key <;> cases value <;> rfl

end Consumer

section Consume

variable [Crc32]

/-- **A stream that has the broker to itself**, for so many of its steps. -/
def LiveTail.State.drain (s : LiveTail.State) : ℕ → LiveTail.State
  | 0 => s
  | steps + 1 =>
    match LiveTail.exec s (.fetch 0) <|> LiveTail.exec s (.resume 0) with
    | none => s
    | some s => s.drain steps

/-- `Consume`: what has been yielded after so many steps, and the failure if
the stream has ended. -/
def Handler.consume (s : Store) (v : Volume) (request : ConsumeRequest) (steps : ℕ) :
    (List Message × Option (Option Failure)) × Store × Volume :=
  let (st, tail) := LiveTail.Stream.start request s.tail
  let after := LiveTail.State.drain ⟨{ s with tail }, v.root, [st], []⟩ steps
  let st := after.streams.headD st
  let ended := match st.phase with
    | .returned => some none
    | .aborted failure => some (some failure)
    | _ => none
  ((st.out.map toProto, ended), after.store, .of after.root)

variable {cl : Cluster} (host : String → Option (Fin cl.brokers))

/-- What is raised for an error that ends a stream. -/
def Consumer.raised (c : Connection) (nodes : Cluster.State cl) (topic : String) (err : RpcError) :
    ClientError × Connection × Cluster.State cl :=
  match err with
  | .status .notFound _ => (.unknownTopic s!"no topic {pyRepr topic}", c, nodes)
  | .status .failedPrecondition _ =>
    match c.routing host nodes topic true with
    | (.error e, c, nodes) => (e, c, nodes)
    | (.ok _, c, nodes) => (.refused err, c, nodes)
  | err => (.refused err, c, nodes)

/-- **`consume`**: what it has yielded after so many steps of the stream, and
how it has ended if it has. `wait` is for `wait_for_topic`: what the clock
says at each attempt, and nothing where it is not asked for. -/
def Consumer.consume (c : Connection) (nodes : Cluster.State cl) (topic : String)
    (partition offset : ℤ) (follow : Bool) (limit : ℤ) (wait : Option (List Bool)) (steps : ℕ) :
    (List Consumer.Record × Option (Except ClientError Unit)) × Connection × Cluster.State cl :=
  let (waited, c, nodes) : Option (Except ClientError Unit) × Connection × Cluster.State cl :=
    match wait with
    | none => (some (.ok ()), c, nodes)
    | some deadlines =>
      let (res, c, nodes) := c.awaitTopic host nodes topic deadlines
      (res.map fun res => res.map fun _ => (), c, nodes)
  match waited with
  | none => (([], none), c, nodes)
  | some (.error e) => (([], some (.error e)), c, nodes)
  | some (.ok ()) =>
    match c.addressFor host nodes topic partition with
    | (.error e, c, nodes) => (([], some (.error e)), c, nodes)
    | (.ok address, c, nodes) =>
      match call host address nodes fun s v =>
          Handler.consume s v ⟨topic, partition, offset, follow, limit⟩ steps with
      | (none, nodes) =>
        let (e, c, nodes) := raised host c nodes topic .unavailable
        (([], some (.error e)), c, nodes)
      | (some (messages, ended), nodes) =>
        let records := messages.map (Consumer.record topic partition)
        match ended with
        | none => ((records, none), c, nodes)
        | some none => ((records, some (.ok ())), c, nodes)
        | some (some failure) =>
          let (e, c, nodes) := raised host c nodes topic failure.toRpc
          ((records, some (.error e)), c, nodes)

end Consume

end Pyka
