import Pyka.Broker.Node

/-!
# A broker without files

Segments, indexes, caches, directories and recoveries all serve one purpose,
which can be said without them: a broker keeps a number of partitions for each
topic, a list of records for each partition, and the turn of the next record
without a key. `Ledger` is that and no more, and `Ledger.machine` answers
requests from it.

`Node.machine` gives the same answers, whatever it is asked and however often
it is ended and started again (`Node.answers_eq`). So nothing that a `Ledger`
does not have can be told from the answers: not the size of the segments, not
when they are synced, not what is open (`Node.answers_of_sameBut`).

## How the two are related

A node stands for a catalog, and a catalog knows which partitions have a
directory. That is one thing too many: it depends on what was opened when, and
no answer depends on it. Two catalogs are `Alike` when they agree in the rest,
and a node matches a ledger if it stands for a catalog that is alike the
ledger's. Each request is answered alike by alike catalogs (`exec_alike`), and
by the node as by the catalog it stands for (`exec_follows`); together these
make a simulation (`simulates_ledger`), and the rule for runs is that of
`Base.Machine`.

## What a life changes

Starting a broker gives the ledger a ring and settings, and sets the turn to
0, since the partitioner is a new one. It changes neither topics nor records.
What a ring does is decide which partitions are stored here: records that
another broker of the cluster has are not in this ledger.
-/

namespace Pyka

open Struct (Bytes)

namespace Catalog

/-- **The same topics, records and turn**, whatever directories there are. -/
structure Alike (c c' : Catalog) : Prop where
  counts : c'.counts = c.counts
  records : ∀ name p, c'.records name p = c.records name p
  turn : c'.turn = c.turn

namespace Alike

variable {c c' : Catalog} {h : Holder} {name : String} {n : ℕ}

/-- A catalog is like itself. -/
theorem refl (c : Catalog) : c.Alike c := ⟨rfl, fun _ _ => rfl, rfl⟩

/-- What is alike a third by a second is alike. -/
theorem trans {c'' : Catalog} (h₁ : c.Alike c') (h₂ : c'.Alike c'') : c.Alike c'' :=
  ⟨h₂.counts.trans h₁.counts, fun name p => (h₂.records name p).trans (h₁.records name p),
    h₂.turn.trans h₁.turn⟩

/-- Moving both turns keeps two catalogs alike. -/
theorem setTurn (ha : c.Alike c') (turn : ℕ) : Alike { c with turn } { c' with turn } :=
  ⟨ha.counts, ha.records, rfl⟩

/-- Opening makes directories, which do not count. -/
theorem touch (ha : c.Alike c') (h : Holder) (name : String) (n : ℕ) :
    (c.touch h name n).Alike (c'.touch h name n) where
  counts := by rw [counts_touch, counts_touch, ha.counts]
  records name' p := by rw [records_touch, records_touch, ha.records]
  turn := ha.turn

/-- So does adding a record to both. -/
theorem push (ha : c.Alike c') (name : String) (p : ℕ) (r : Record) :
    (c.push name p r).Alike (c'.push name p r) where
  counts := ha.counts
  records name' p' := by simp only [records_push, ha.records]
  turn := ha.turn

/-- Opening gives the same number. -/
theorem openAs (ha : c.Alike c') (h : Holder) (name : String) (partitions : Option ℕ) :
    (c'.openAs h name partitions).1 = (c.openAs h name partitions).1
      ∧ (c.openAs h name partitions).2.Alike (c'.openAs h name partitions).2 := by
  unfold Catalog.openAs
  rw [ha.counts]
  exact ⟨rfl, ha.touch h name _⟩

/-- And so does creating. -/
theorem create (ha : c.Alike c') (h : Holder) (name : String) (partitions : Option ℕ) :
    (c'.create h name partitions).1 = (c.create h name partitions).1
      ∧ (c.create h name partitions).2.Alike (c'.create h name partitions).2 := by
  unfold Catalog.create
  cases validateName name with
  | error e => exact ⟨rfl, ha⟩
  | ok u =>
    obtain ⟨hn, hopen⟩ := ha.openAs h name partitions
    exact ⟨congrArg Except.ok hn, hopen⟩

/-- Asking for a topic gives the same answer. -/
theorem existing (ha : c.Alike c') (h : Holder) (name : String) :
    (c'.existing h name).1 = (c.existing h name).1
      ∧ (c.existing h name).2.Alike (c'.existing h name).2 := by
  unfold Catalog.existing
  rw [ha.counts]
  cases validateName name with
  | error e => exact ⟨rfl, ha⟩
  | ok u =>
    cases c.counts name with
    | none => exact ⟨rfl, ha⟩
    | some n => exact ⟨rfl, ha.touch h name n⟩

/-- A read does, too. -/
theorem readFrom (ha : c.Alike c') (h : Holder) (name : String) (offset partition : ℤ) :
    (c'.readFrom h name offset partition).1 = (c.readFrom h name offset partition).1
      ∧ (c.readFrom h name offset partition).2.Alike (c'.readFrom h name offset partition).2 := by
  obtain ⟨hanswer, hafter⟩ := ha.existing h name
  unfold Catalog.readFrom
  cases he : c.existing h name with
  | mk res c₁ =>
  cases he' : c'.existing h name with
  | mk res' c₁' =>
  rw [he, he'] at hanswer hafter
  cases hanswer
  have hrecords : ∀ p, c₁'.records name p = c₁.records name p := hafter.records name
  exact ⟨by simp only [hrecords], hafter⟩

section Codec

variable [Crc32]

/-- Routing goes by numbers of partitions and the turn. -/
theorem route (ha : c.Alike c') (h : Holder) (name : String) (key : Option Bytes) :
    (c'.route h name key).1 = (c.route h name key).1
      ∧ (c.route h name key).2.Alike (c'.route h name key).2 := by
  obtain ⟨hanswer, hafter⟩ := ha.existing h name
  unfold Catalog.route
  cases he : c.existing h name with
  | mk res c₁ =>
  cases he' : c'.existing h name with
  | mk res' c₁' =>
  rw [he, he'] at hanswer hafter
  cases hanswer
  cases res with
  | error e => exact ⟨rfl, hafter⟩
  | ok n =>
    have hturn : c₁'.turn = c₁.turn := hafter.turn
    refine ⟨by simp only [hturn], ?_⟩
    simp only [hturn]
    exact hafter.setTurn _

/-- An append to a partition goes by the number of its records. -/
theorem appendTo (ha : c.Alike c') (name : String) (p : ℕ) (key value : Option Bytes)
    (timestamp : Option ℤ) (clock : ℤ) :
    (c'.appendTo name p key value timestamp clock).1
      = (c.appendTo name p key value timestamp clock).1
      ∧ (c.appendTo name p key value timestamp clock).2.Alike
        (c'.appendTo name p key value timestamp clock).2 := by
  unfold Catalog.appendTo
  simp only [ha.records]
  cases Record.encode ⟨(c.records name p).length, timestamp.getD clock, key, value⟩ with
  | error e => exact ⟨rfl, ha⟩
  | ok bs => exact ⟨rfl, ha.push name p _⟩

/-- So an append has the same answer, and adds the same record. -/
theorem append (ha : c.Alike c') (h : Holder) (name : String) (key value : Option Bytes)
    (timestamp partition : Option ℤ) (clock : ℤ) :
    (c'.append h name key value timestamp partition clock).1
        = (c.append h name key value timestamp partition clock).1
      ∧ (c.append h name key value timestamp partition clock).2.Alike
        (c'.append h name key value timestamp partition clock).2 := by
  unfold Catalog.append
  cases validateName name with
  | error e => exact ⟨rfl, ha⟩
  | ok u =>
    obtain ⟨hn, hopen⟩ := ha.openAs h name none
    simp only [hn, hopen.turn]
    cases checkPartition h name (c.openAs h name none).1
        (target (c.openAs h name none).2.turn key partition (c.openAs h name none).1).1 with
    | error e => exact ⟨rfl, hopen.setTurn _⟩
    | ok p => exact (hopen.setTurn _).appendTo name p key value timestamp clock

end Codec

end Alike

end Catalog

/-! ## The ledger

What a broker answers, from topics and records. The texts of refusals are the
broker's own, since a client sees them. -/

/-- A broker without files: what the process that runs goes by, if one does,
and what is kept. -/
structure Ledger where
  up : Option (Ring × Holder)
  catalog : Catalog

namespace Ledger

/-- Nothing yet: no process, no topic. -/
def empty : Ledger := ⟨none, .empty⟩

/-- The first `limit` records, all of them where `limit` is not positive. -/
def upTo (limit : ℤ) (records : List Record) : List Record :=
  if 0 < limit ∧ limit ≤ records.length then records.take limit.toNat else records

/-- Who asks for the records of a topic is told what is wrong. -/
def readFailure (ring : Ring) (request : ConsumeRequest) : PyError → Failure
  | .unknownTopic _ => .abort .notFound s!"no topic {pyRepr request.topic}"
  | .partitionNotLocal _ => Handler.belongsTo ring request.topic request.partition
  | .offsetOutOfRange msg => .abort .outOfRange msg
  | e => if e.isValueError then .abort .invalidArgument e.text else .unhandled e

section Codec

variable [Crc32]

/-- A record that another broker is to store: the broker that its partition
belongs to. A record that nobody has routed takes another turn. -/
def redirect (ring : Ring) (h : Holder) (c : Catalog) (request : ProduceRequest) :
    Failure × Catalog :=
  match request.partition with
  | some p => (Handler.belongsTo ring request.topic p, c)
  | none =>
    let (res, c) := c.route h request.topic request.key
    (match res with
      | .error e => .unhandled e
      | .ok p => Handler.belongsTo ring request.topic p, c)

/-- **Store a record**, or say why not. -/
def produce (ring : Ring) (h : Holder) (c : Catalog) (request : ProduceRequest) (clock : ℤ) :
    Except Failure ProduceResponse × Catalog :=
  match c.append h request.topic request.key request.value request.timestamp request.partition
      clock with
  | (.ok placed, c) => (.ok ⟨placed.1, placed.2, request.correlationId⟩, c)
  | (.error (.partitionNotLocal _), c) =>
    let (failure, c) := redirect ring h c request
    (.error failure, c)
  | (.error e, c) =>
    (.error (if e.isValueError then .abort .invalidArgument e.text else .unhandled e), c)

/-- **Read a batch**: of the records from the offset on, as many as the limit
allows. -/
def read (ring : Ring) (h : Holder) (c : Catalog) (request : ConsumeRequest) (offset limit : ℤ) :
    Except Failure (List Record) × Catalog :=
  let (res, c) := c.readFrom h request.topic offset request.partition
  (match res with
    | .error e => .error (readFailure ring request e)
    | .ok records => .ok (upTo limit records), c)

/-- **Who holds the partitions of a topic**, as the ring has it. -/
def metadata (ring : Ring) (h : Holder) (c : Catalog) (topic : String) :
    Except Failure (List (ℕ × ℕ × String)) × Catalog :=
  let (res, c) := c.existing h topic
  (match res with
    | .error (.unknownTopic _) =>
      .error (.abort .notFound s!"no topic {pyRepr topic} on this broker")
    | .error e =>
      .error (if e.isValueError then .abort .invalidArgument e.text else .unhandled e)
    | .ok n => (Handler.partitionMetadata ring topic n).mapError .unhandled, c)

/-- Ask a ledger: the same requests as are asked of a node. -/
def exec (ring : Ring) (h : Holder) (c : Catalog) : Node.Request → Node.Answer × Catalog
  | .create name partitions =>
    let (res, c) := c.create h name partitions
    (.count res, c)
  | .partitionsOf name =>
    let (res, c) := c.existing h name
    (.count res, c)
  | .route name key =>
    let (res, c) := c.route h name key
    (.routed res, c)
  | .produce request clock _ =>
    let (res, c) := produce ring h c request clock
    (.produced res, c)
  | .read request offset limit =>
    let (res, c) := read ring h c request offset limit
    (.records res, c)
  | .metadata topic =>
    let (res, c) := metadata ring h c topic
    (.table res, c)

/-- **A ledger over lives.** Starting a process gives it its ring and its
settings, and the turn is 0 again; all else stays. -/
def machine : Machine Ledger Node.Act Node.Answer where
  step l
    | .start ring settings =>
      match l.up with
      | some _ => (.idle, l)
      | none => (.done (.ok ()),
          ⟨some (ring, ⟨ring.ownsPartition, settings.partitions⟩), { l.catalog with turn := 0 }⟩)
    | .ask request =>
      match l.up with
      | none => (.idle, l)
      | some (ring, h) =>
        let (answer, c) := exec ring h l.catalog request
        (answer, ⟨some (ring, h), c⟩)
    | .close =>
      match l.up with
      | none => (.idle, l)
      | some _ => (.done (.ok ()), ⟨none, l.catalog⟩)
    | .kill => (.idle, ⟨none, l.catalog⟩)

end Codec

section Alike

variable [Crc32] {c c' : Catalog} (ring : Ring) (h : Holder)

/-- A redirect says the same for both. -/
theorem redirect_alike (ha : c.Alike c') (request : ProduceRequest) :
    (redirect ring h c' request).1 = (redirect ring h c request).1
      ∧ (redirect ring h c request).2.Alike (redirect ring h c' request).2 := by
  obtain ⟨hanswer, hafter⟩ := ha.route h request.topic request.key
  unfold redirect
  cases request.partition with
  | some p => exact ⟨rfl, ha⟩
  | none => exact ⟨by simp only [hanswer], hafter⟩

/-- Producing does. -/
theorem produce_alike (ha : c.Alike c') (request : ProduceRequest) (clock : ℤ) :
    (produce ring h c' request clock).1 = (produce ring h c request clock).1
      ∧ (produce ring h c request clock).2.Alike (produce ring h c' request clock).2 := by
  obtain ⟨hanswer, hafter⟩ := ha.append h request.topic request.key request.value
    request.timestamp request.partition clock
  unfold produce
  cases hc : c.append h request.topic request.key request.value request.timestamp
      request.partition clock with
  | mk res c₁ =>
  cases hc' : c'.append h request.topic request.key request.value request.timestamp
      request.partition clock with
  | mk res' c₁' =>
  rw [hc, hc'] at hanswer hafter
  cases hanswer
  cases res with
  | ok placed => exact ⟨rfl, hafter⟩
  | error e =>
    cases e with
    | partitionNotLocal msg =>
      obtain ⟨hfailure, hredirected⟩ := redirect_alike ring h hafter request
      exact ⟨congrArg Except.error hfailure, hredirected⟩
    | _ => exact ⟨rfl, hafter⟩

/-- **Directories do not count** for an answer. -/
theorem exec_alike (ha : c.Alike c') (request : Node.Request) :
    (exec ring h c' request).1 = (exec ring h c request).1
      ∧ (exec ring h c request).2.Alike (exec ring h c' request).2 := by
  cases request with
  | create name partitions =>
    obtain ⟨hanswer, hafter⟩ := ha.create h name partitions
    exact ⟨congrArg Node.Answer.count hanswer, hafter⟩
  | partitionsOf name =>
    obtain ⟨hanswer, hafter⟩ := ha.existing h name
    exact ⟨congrArg Node.Answer.count hanswer, hafter⟩
  | route name key =>
    obtain ⟨hanswer, hafter⟩ := ha.route h name key
    exact ⟨congrArg Node.Answer.routed hanswer, hafter⟩
  | produce request clock elapsed =>
    obtain ⟨hanswer, hafter⟩ := produce_alike ring h ha request clock
    exact ⟨congrArg Node.Answer.produced hanswer, hafter⟩
  | read request offset limit =>
    obtain ⟨hanswer, hafter⟩ := ha.readFrom h request.topic offset request.partition
    refine ⟨?_, hafter⟩
    simp only [exec, read, hanswer]
  | metadata topic =>
    obtain ⟨hanswer, hafter⟩ := ha.existing h topic
    refine ⟨?_, hafter⟩
    simp only [exec, metadata, hanswer]

end Alike

end Ledger

/-! ## The broker does what its ledger does

Store and handlers follow the ledger's functions, as they follow the
catalog's; what is new here is what they answer. -/

variable [Crc32]

namespace Topic

/-- Creating topics takes no turn. -/
theorem create_partitioner (t : Topic) (v : Volume) (name : String) (partitions : Option ℕ) :
    (t.create v name partitions).2.1.partitioner = t.partitioner := by
  unfold create openCached openLocked
  cases validateName name with
  | error e => rfl
  | ok u =>
    cases t.opened.lookup name with
    | some topic => rfl
    | none =>
      cases v.readMeta name with
      | error e => rfl
      | ok found =>
        simp only
        split <;> rfl

end Topic

namespace Store

variable {s : Store} {v : Volume} {c : Catalog}

/-- Nor does creating a list of them. -/
theorem createAll_partitioner (names : List String) (t : Topic) (v : Volume) :
    (createAll names t v).2.1.partitioner = t.partitioner := by
  induction names generalizing t v with
  | nil => rfl
  | cons name names ih =>
    have hcreate := t.create_partitioner v name none
    unfold createAll
    cases ht : t.create v name none with
    | mk res rest =>
    rw [ht] at hcreate
    cases res with
    | error e => exact hcreate
    | ok n => exact (ih _ _).trans hcreate

omit [Crc32] in
/-- A new store begins with turn 0. -/
theorem init_partitioner {path : String} {partitions : ℕ} {syncPolicy : SyncPolicy}
    {maxSegmentBytes : ℤ} {ring : Ring} {allowOrphans : Bool}
    (h : init path partitions syncPolicy maxSegmentBytes ring allowOrphans = .ok s) :
    s.topic.partitioner = ⟨0⟩ := by
  unfold init Topic.init at h
  obtain ⟨t, ht, h⟩ := bind_eq_ok.mp h
  obtain ⟨-, -, ht⟩ := bind_eq_ok.mp ht
  cases ht
  cases h
  rfl

/-- And opening it takes none, so a broker starts with turn 0. -/
theorem open_partitioner (s : Store) (v : Volume) :
    (s.open v).2.1.topic.partitioner = s.topic.partitioner := by
  have hcreate := createAll_partitioner (Topic.names v) s.topic v
  unfold Store.open
  cases hgo : createAll (Topic.names v) s.topic v with
  | mk res rest =>
  rw [hgo] at hcreate
  simp only [hgo]
  cases res with
  | error e => exact hcreate
  | ok u =>
    simp only
    split_ifs <;> exact hcreate

end Store

namespace Handler

open Store (Follows)

variable {s : Store} {v : Volume} {c : Catalog}

/-- A redirect says what the ledger says. -/
theorem redirect_follows (h : s.Rep v c) (request : ProduceRequest) :
    Follows s v (redirect s v request.topic request.partition request.key)
      (Ledger.redirect s.ring s.topic.holder c request).1
      (Ledger.redirect s.ring s.topic.holder c request).2 := by
  unfold redirect Ledger.redirect
  cases request.partition with
  | some p => exact h.follows _
  | none =>
    have hf := Store.route_follows h request.topic request.key
    cases hc : c.route s.topic.holder request.topic request.key with
    | mk res c' =>
    rw [hc] at hf
    cases hroute : s.route v request.topic request.key with
    | mk res' rest =>
    obtain ⟨s', v'⟩ := rest
    rw [hroute] at hf
    obtain rfl : res' = res := hf.answer
    have hring : s'.ring = s.ring := hf.ring
    cases res' with
    | error e => exact ⟨rfl, hf.rep, hf.same, hf.holder, hf.always⟩
    | ok p =>
      exact ⟨by simp only [hring], hf.rep, hf.same, hf.holder, hf.always⟩

/-- **Producing** does what the ledger does. -/
theorem produce_follows (h : s.Rep v c) (request : ProduceRequest) (clock : ℤ) (elapsed : ℚ) :
    Follows s v (produce s v request clock elapsed)
      (Ledger.produce s.ring s.topic.holder c request clock).1
      (Ledger.produce s.ring s.topic.holder c request clock).2 := by
  have hf := Store.append_follows h request.topic request.key request.value request.timestamp
    request.partition clock elapsed
  unfold produce append Ledger.produce
  cases hc : c.append s.topic.holder request.topic request.key request.value request.timestamp
      request.partition clock with
  | mk res c' =>
  rw [hc] at hf
  cases happ : s.append v request.topic request.key request.value request.timestamp
      request.partition clock elapsed with
  | mk res' rest =>
  obtain ⟨s', v'⟩ := rest
  rw [happ] at hf
  obtain rfl : res' = res := hf.answer
  cases res' with
  | ok placed => exact ⟨rfl, hf.rep, hf.same, hf.holder, hf.always⟩
  | error e =>
    cases e with
    | partitionNotLocal msg =>
      have hred := redirect_follows (s := s') (v := v') hf.rep request
      have hring : s'.ring = s.ring := hf.ring
      have hholder : s'.topic.holder = s.topic.holder := hf.holder
      rw [hring, hholder] at hred
      have htrans := hf.trans hred
      exact ⟨congrArg Except.error hred.answer, htrans.rep, htrans.same, htrans.holder,
        htrans.always⟩
    | _ => exact ⟨rfl, hf.rep, hf.same, hf.holder, hf.always⟩

/-- **Reading** does what the ledger does. -/
theorem read_follows (h : s.Rep v c) (request : ConsumeRequest) (offset limit : ℤ) :
    Follows s v (read s v request offset limit)
      (Ledger.read s.ring s.topic.holder c request offset limit).1
      (Ledger.read s.ring s.topic.holder c request offset limit).2 := by
  have hf := Store.read_follows h request.topic offset request.partition limit
  unfold read Ledger.read
  cases hc : c.readFrom s.topic.holder request.topic offset request.partition with
  | mk res c' =>
  rw [hc] at hf
  cases hread : s.read v request.topic offset request.partition limit with
  | mk res' rest =>
  obtain ⟨s', v'⟩ := rest
  rw [hread] at hf
  have hring : s'.ring = s.ring := hf.ring
  cases res with
  | ok records =>
    obtain rfl : res' = .ok (Ledger.upTo limit records) := hf.answer
    exact ⟨rfl, hf.rep, hf.same, hf.holder, hf.always⟩
  | error e =>
    obtain rfl : res' = .error e := hf.answer
    cases e with
    | partitionNotLocal msg =>
      exact ⟨by simp only [Ledger.readFailure, hring], hf.rep, hf.same, hf.holder, hf.always⟩
    | _ => exact ⟨rfl, hf.rep, hf.same, hf.holder, hf.always⟩

/-- **`Metadata`** says what the ledger says. -/
theorem metadata_follows (h : s.Rep v c) (topic : String) :
    Follows s v (metadata s v topic) (Ledger.metadata s.ring s.topic.holder c topic).1
      (Ledger.metadata s.ring s.topic.holder c topic).2 := by
  have hf := Store.partitionsOf_follows h topic
  unfold metadata Ledger.metadata
  cases hc : c.existing s.topic.holder topic with
  | mk res c' =>
  rw [hc] at hf
  cases hparts : s.partitionsOf v topic with
  | mk res' rest =>
  obtain ⟨s', v'⟩ := rest
  rw [hparts] at hf
  obtain rfl : res' = res := hf.answer
  have hring : s'.ring = s.ring := hf.ring
  cases res' with
  | error e => cases e <;> exact ⟨rfl, hf.rep, hf.same, hf.holder, hf.always⟩
  | ok n =>
    refine ⟨?_, hf.rep, hf.same, hf.holder, hf.always⟩
    simp only [hring]
    cases partitionMetadata s.ring topic n <;> rfl

end Handler

namespace Node

/-- **Every request** is answered as the ledger answers it. -/
theorem exec_follows {s : Store} {v : Volume} {c : Catalog} (h : s.Rep v c) (request : Request) :
    Store.Follows s v (request.exec s v) (Ledger.exec s.ring s.topic.holder c request).1
      (Ledger.exec s.ring s.topic.holder c request).2 := by
  cases request with
  | create name partitions =>
    have hf := Store.create_follows h name partitions
    exact ⟨congrArg Answer.count hf.answer, hf.rep, hf.same, hf.holder, hf.always⟩
  | partitionsOf name =>
    have hf := Store.partitionsOf_follows h name
    exact ⟨congrArg Answer.count hf.answer, hf.rep, hf.same, hf.holder, hf.always⟩
  | route name key =>
    have hf := Store.route_follows h name key
    exact ⟨congrArg Answer.routed hf.answer, hf.rep, hf.same, hf.holder, hf.always⟩
  | produce request clock elapsed =>
    have hf := Handler.produce_follows h request clock elapsed
    exact ⟨congrArg Answer.produced hf.answer, hf.rep, hf.same, hf.holder, hf.always⟩
  | read request offset limit =>
    have hf := Handler.read_follows h request offset limit
    exact ⟨congrArg Answer.records hf.answer, hf.rep, hf.same, hf.holder, hf.always⟩
  | metadata topic =>
    have hf := Handler.metadata_follows h topic
    exact ⟨congrArg Answer.table hf.answer, hf.rep, hf.same, hf.holder, hf.always⟩

/-- A process goes by what the ledger says it goes by. -/
def GoesBy : Option Store → Option (Ring × Holder) → Prop :=
  Option.Rel fun s up => s.ring = up.1 ∧ s.topic.holder = up.2

/-- **A broker and its ledger**: what is on disk, and what the process goes
by, are as the ledger has them. -/
def Matches (n : Node) (l : Ledger) : Prop :=
  ∃ c, n.Good c ∧ c.Alike l.catalog ∧ GoesBy n.store l.up

/-- An empty disk matches an empty ledger. -/
theorem matches_empty : empty.Matches .empty := ⟨.empty, stores_empty, .refl _, .none⟩

/-- **Starting**: the turn is 0. -/
theorem start_matches {root : Root} {c : Catalog} {l : Ledger} (hroot : root.Stores c)
    (ha : c.Alike l.catalog) (ring : Ring) (settings : Settings) :
    ∃ n : Node, machine.step ⟨none, root⟩ (.start ring settings) = (.done (.ok ()), n)
      ∧ n.Matches ⟨some (ring, ⟨ring.ownsPartition, settings.partitions⟩),
          { l.catalog with turn := 0 }⟩ := by
  obtain ⟨s, v', c', hstep, hgood, ⟨hring, hholder, -⟩, hcounts, hset, -⟩ :=
    start_spec hroot ring settings
  have hturn : c'.turn = 0 := by
    have hrep : s.Rep (.of v'.root) c' := hgood.rep rfl
    obtain ⟨t, hinit, -⟩ := Store.init_rep hroot settings.path settings.syncPolicy ring
      settings.allowOrphans settings.partitions_pos settings.maxSegmentBytes.2
    have hstore : some s = some ((Store.open ⟨ring, t, .init, false, settings.allowOrphans, []⟩
        (.of root)).2.1) := by
      have hstarted := congrArg (fun out => out.2.store) hstep
      simp only [machine, hinit] at hstarted
      exact hstarted.symm
    cases hstore
    rw [← hrep.topic.turn, Store.open_partitioner, Store.init_partitioner hinit]
  refine ⟨_, hstep, c', hgood, ⟨?_, fun name p => ?_, hturn.symm⟩, .some ⟨hring, hholder⟩⟩
  · exact ha.counts.trans hcounts.symm
  · exact (ha.records name p).trans (hset.records name p).symm

/-- **A broker does what its ledger does**, at every step. -/
theorem simulates_ledger : machine.Simulates Ledger.machine Matches := by
  have hstep : ∀ {n l}, Matches n l → ∀ act, (machine.step n act).1 = (Ledger.machine.step l act).1
      ∧ Matches (machine.step n act).2 (Ledger.machine.step l act).2 := by
    rintro ⟨store, root⟩ ⟨up, lc⟩ ⟨c, hgood, ha, hup⟩ act
    cases hup with
    | none =>
      cases act with
      | start ring settings =>
        obtain ⟨n, hstep, hmatches⟩ := start_matches (l := ⟨none, lc⟩) hgood ha ring settings
        rw [hstep]
        exact ⟨rfl, hmatches⟩
      | ask request => exact ⟨rfl, c, hgood, ha, .none⟩
      | close => exact ⟨rfl, c, hgood, ha, .none⟩
      | kill => exact ⟨rfl, c, hgood, ha, .none⟩
    | @some s up hgoes =>
      obtain ⟨ring, h⟩ := up
      obtain ⟨rfl, rfl⟩ := hgoes
      cases act with
      | start ring settings => exact ⟨rfl, c, hgood, ha, .some ⟨rfl, rfl⟩⟩
      | ask request =>
        have hf := exec_follows hgood request
        obtain ⟨hanswer, hafter⟩ := Ledger.exec_alike s.ring s.topic.holder ha request
        exact ⟨hf.answer.trans hanswer.symm, _, ⟨hf.rep.topic.of, hf.rep.owns⟩, hafter,
          .some ⟨hf.ring, hf.holder⟩⟩
      | close =>
        obtain ⟨v', hstep, hgood'⟩ := close_spec hgood
        rw [hstep]
        exact ⟨rfl, c, hgood', ha, .none⟩
      | kill => exact ⟨rfl, c, kill_spec hgood, ha, .none⟩
  exact ⟨fun h act => (hstep h act).1, fun h act => (hstep h act).2⟩

/-- **A broker is its ledger.** Whatever happens to a broker over all its
lives, its answers are those of a ledger to which the same happens, and what
it has on disk is what the ledger has. -/
theorem answers_eq (acts : List Act) :
    (machine.run empty acts).1 = (Ledger.machine.run .empty acts).1
      ∧ (∀ name, (machine.run empty acts).2.root.metaFile name
        = ((Ledger.machine.run .empty acts).2.catalog.counts name).map TopicJson.dumps)
      ∧ ∀ name p, (machine.run empty acts).2.root.records name p
        = (Ledger.machine.run .empty acts).2.catalog.records name p := by
  obtain ⟨hanswers, c, hgood, ha, -⟩ := simulates_ledger.run matches_empty acts
  refine ⟨hanswers, fun name => ?_, fun name p => ?_⟩
  · rw [hgood.stores.metaFile, ha.counts]
  · rw [hgood.stores.records_eq, ha.records]

/-! ## What cannot be told from the answers

Two brokers with one ledger cannot be told apart. What differs between them is
what a ledger does not have. -/

omit [Crc32] in
/-- **The same for whoever asks**: where the data is, when it is synced, how
long a segment gets and whether orphans are allowed may differ, and so may the
time since the last sync. -/
inductive Act.SameBut : Act → Act → Prop
  | start {ring : Ring} {settings settings' : Settings}
      (h : settings'.partitions = settings.partitions) :
      SameBut (.start ring settings) (.start ring settings')
  | produce {request : ProduceRequest} {clock : ℤ} {elapsed elapsed' : ℚ} :
      SameBut (.ask (.produce request clock elapsed)) (.ask (.produce request clock elapsed'))
  | same {act : Act} : SameBut act act

/-- A ledger does not tell them apart. -/
theorem Act.SameBut.step_eq {act act' : Act} (h : act.SameBut act') (l : Ledger) :
    Ledger.machine.step l act' = Ledger.machine.step l act := by
  cases h with
  | @start ring settings settings' h =>
    obtain ⟨up, c⟩ := l
    cases up with
    | none => simp only [Ledger.machine, h]
    | some up => rfl
  | produce => rfl
  | same => rfl

/-- **Segments, syncs and paths are invisible.** Two brokers that go through
the same, but for where they keep their data, how long they let a segment get,
when they sync and whether they allow orphans, give the same answers and have
the same records. -/
theorem answers_of_sameBut {acts acts' : List Act} (h : List.Forall₂ Act.SameBut acts acts') :
    (machine.run empty acts').1 = (machine.run empty acts).1
      ∧ ∀ name p, (machine.run empty acts').2.root.records name p
        = (machine.run empty acts).2.root.records name p := by
  have hrun : ∀ l, Ledger.machine.run l acts' = Ledger.machine.run l acts := by
    induction h with
    | nil => exact fun _ => rfl
    | @cons act act' acts acts' hact _ ih =>
      intro l
      simp only [Machine.run, hact.step_eq, ih]
  obtain ⟨hanswers, -, hrecords⟩ := answers_eq acts
  obtain ⟨hanswers', -, hrecords'⟩ := answers_eq acts'
  rw [hrun] at hanswers' hrecords'
  exact ⟨hanswers'.trans hanswers.symm,
    fun name p => (hrecords' name p).trans (hrecords name p).symm⟩

omit [Crc32] in
/-- A broker that rolls at every record and syncs each, and one that does
neither. -/
theorem answers_of_sameBut_one : let _ := Crc32.zlib
    let ring : Ring := ⟨1, 0, fun b => .ok s!"pyka-{b}", .modulo, Nat.one_pos⟩
    let settings : Settings := ⟨"data", 2, .never, ⟨2 ^ 30, default_max_segment_bytes⟩, false,
      Nat.two_pos⟩
    let settings' : Settings :=
      ⟨"/var/lib/pyka", 2, .everyRecord, ⟨1, by decide⟩, true, Nat.two_pos⟩
    let rest : List Act := [.ask (.produce ⟨"orders", none, some [97], some 5, none, none⟩ 7 0),
      .ask (.read ⟨"orders", 0, 0, false, 0⟩ 0 500)]
    (machine.run empty (.start ring settings' :: rest)).1
      = (machine.run empty (.start ring settings :: rest)).1 := by
  intro _ ring settings settings' rest
  have hsame : List.Forall₂ Act.SameBut (.start ring settings :: rest)
      (.start ring settings' :: rest) :=
    .cons (.start rfl) (.cons .same (.cons .same .nil))
  exact (answers_of_sameBut hsame).1

end Node

end Pyka
