import Pyka.Broker.Ledger
import Pyka.Broker.Redirect
import Pyka.Cluster.Cluster

/-!
# A cluster is one broker

A client that creates its topics on every broker, and from then on sends
everything about a partition to the broker the ring gives it to, cannot tell
how many brokers there are: each answer is the one that a broker on its own
would give, which owns every partition (`Cluster.one_broker`).

What the brokers have between them is one catalog, of which each holds the
partitions that are its own (`Cluster.Shares`). Creating a topic is the one
step that all of them take; it is also what keeps the rest from going wrong,
since a record for a topic that nobody created makes it known to one broker
only.

## What such a client does

`Op` are its operations, each with what it is for the cluster and what it is
for the one broker. A creation is as many requests as there are brokers, of
which each gives the answer of the one; the rest are one request. Records come
with their partition: one that the broker would have to route goes by the turn
of that broker's own partitioner, and the turns of a cluster are not those of
one broker. Which partition a key belongs to may be asked of any broker, as
may how many partitions there are. In between a broker may end and start
again, in any of its settings.

## How it is shown

With ledgers in the place of brokers (`Broker.Ledger`), so that no file and no
directory comes in. Two catalogs that agree on a partition answer the same
about it, if it is stored by both (`Catalog.AgreeOn`); refusals by the ring do
not come up, since the client goes by it. The refinement from the cluster to
its ledgers is that of one node, beside itself as often as there are brokers
(`simulates_ledgers`).
-/

namespace Pyka

open Struct (Bytes)

namespace Catalog

/-- **Two catalogs agree on a partition**, and on how many each topic has. -/
structure AgreeOn (name : String) (p : ℕ) (c c' : Catalog) : Prop where
  counts : c'.counts = c.counts
  records : c'.records name p = c.records name p

variable {c c' : Catalog} {h h' : Holder} {name : String} {n p : ℕ}

/-- Opening a topic does so for both. -/
theorem AgreeOn.touch (ha : AgreeOn name p c c') (n : ℕ) :
    AgreeOn name p (c.touch h name n) (c'.touch h' name n) where
  counts := by rw [counts_touch, counts_touch, ha.counts]
  records := by rw [records_touch, records_touch, ha.records]

/-- Where a partition is stored, it is asked for the same. -/
theorem checkPartition_of_owns (ho : h.owns name p = true) (ho' : h'.owns name p = true) :
    checkPartition h' name n p = checkPartition h name n p := by
  unfold checkPartition
  simp only [Int.toNat_natCast, ho, ho']

/-- **Reading a partition** where it is stored. -/
theorem AgreeOn.readFrom (ha : AgreeOn name p c c') (h h' : Holder) (ho : h.owns name p = true)
    (ho' : h'.owns name p = true) (offset : ℤ) :
    (c'.readFrom h' name offset p).1 = (c.readFrom h name offset p).1 := by
  unfold Catalog.readFrom Catalog.existing
  rw [ha.counts]
  cases validateName name with
  | error e => rfl
  | ok u =>
    cases c.counts name with
    | none => rfl
    | some n =>
      simp only [Except.bind]
      rw [checkPartition_of_owns ho ho']
      cases hcheck : checkPartition h name n p with
      | error e => rfl
      | ok q =>
        obtain ⟨hq, -, -⟩ := checkPartition_eq_ok.mp hcheck
        cases Int.ofNat.inj hq
        simp only [records_touch, ha.records]

/-- Where a partition is stored, it is not asked for elsewhere. -/
theorem checkPartition_ne_partitionNotLocal (ho : h.owns name p = true) {msg : String} :
    checkPartition h name n p ≠ .error (.partitionNotLocal msg) := by
  unfold checkPartition raiseIf
  rw [Int.toNat_natCast, ho]
  by_cases hr : 0 ≤ (p : ℤ) ∧ (p : ℤ) < n
  · rw [if_neg (not_not.mpr hr)]
    exact fun h => by cases h
  · rw [if_pos hr]
    exact fun h => by cases h

/-- So a read of it is not refused as another broker's. -/
theorem readFrom_ne_partitionNotLocal (ho : h.owns name p = true) {offset : ℤ} {msg : String} :
    (c.readFrom h name offset p).1 ≠ .error (.partitionNotLocal msg) := by
  unfold Catalog.readFrom
  cases he : c.existing h name with
  | mk res c₁ =>
  intro hread
  cases res with
  | error e =>
    cases Except.error.inj hread
    rcases existing_cases he with ⟨e, herr, -, hname | ⟨-, -, hunknown⟩⟩ | ⟨n, -, -, hok, -⟩
    · cases herr
      cases validateName_error hname
    · cases herr
      cases hunknown
    · cases hok
  | ok n =>
    have hlocal : checkPartition h name n p ≠ .error (.partitionNotLocal msg) :=
      checkPartition_ne_partitionNotLocal ho
    simp only [Except.bind] at hread
    cases hcheck : checkPartition h name n p with
    | error e =>
      rw [hcheck] at hread hlocal
      exact hlocal (congrArg Except.error (Except.error.inj hread))
    | ok q =>
      rw [hcheck] at hread
      by_cases hoff : offset < 0
      · simp only [if_pos hoff] at hread
        cases hread
      · simp only [if_neg hoff] at hread
        cases hread

section Codec

variable [Crc32]

/-- An append to it has the same answer, and adds the same record. -/
theorem AgreeOn.appendTo (ha : AgreeOn name p c c') (key value : Option Bytes)
    (timestamp : Option ℤ) (clock : ℤ) :
    (c'.appendTo name p key value timestamp clock).1
      = (c.appendTo name p key value timestamp clock).1
      ∧ AgreeOn name p (c.appendTo name p key value timestamp clock).2
        (c'.appendTo name p key value timestamp clock).2 := by
  unfold Catalog.appendTo
  simp only [ha.records]
  cases Record.encode ⟨(c.records name p).length, timestamp.getD clock, key, value⟩ with
  | error e => exact ⟨rfl, ha⟩
  | ok bs =>
    refine ⟨rfl, ha.counts, ?_⟩
    rw [records_push, records_push, if_pos ⟨rfl, rfl⟩, if_pos ⟨rfl, rfl⟩, ha.records]

/-- **Appending to a partition** where it is stored, of a topic that is
there. -/
theorem AgreeOn.append (ha : AgreeOn name p c c') (h h' : Holder) (ho : h.owns name p = true)
    (ho' : h'.owns name p = true) (hknown : validateName name = .ok () → (c.counts name).isSome)
    (key value : Option Bytes) (timestamp : Option ℤ) (clock : ℤ) :
    (c'.append h' name key value timestamp (some p) clock).1
        = (c.append h name key value timestamp (some p) clock).1
      ∧ AgreeOn name p (c.append h name key value timestamp (some p) clock).2
        (c'.append h' name key value timestamp (some p) clock).2 := by
  unfold Catalog.append Catalog.openAs
  rw [ha.counts]
  cases hname : validateName name with
  | error e => exact ⟨rfl, ha⟩
  | ok u =>
    obtain ⟨n, hn⟩ := Option.isSome_iff_exists.mp (hknown hname)
    simp only [hn, Option.getD_some, target]
    rw [checkPartition_of_owns ho ho']
    have htouch : AgreeOn name p (c.touch h name n) (c'.touch h' name n) := ha.touch n
    cases hcheck : checkPartition h name n p with
    | error e => exact ⟨rfl, htouch.counts, htouch.records⟩
    | ok q =>
      obtain ⟨hq, -, -⟩ := checkPartition_eq_ok.mp hcheck
      cases Int.ofNat.inj hq
      exact htouch.appendTo key value timestamp clock

/-- An append to it is not refused as another broker's, either. -/
theorem append_ne_partitionNotLocal (ho : h.owns name p = true) {key value : Option Bytes}
    {timestamp : Option ℤ} {clock : ℤ} {msg : String} :
    (c.append h name key value timestamp (some p) clock).1 ≠ .error (.partitionNotLocal msg) := by
  intro happ
  cases hc : c.append h name key value timestamp (some p) clock with
  | mk answer c' =>
  rw [hc] at happ
  obtain rfl : answer = .error (.partitionNotLocal msg) := happ
  rcases append_cases hc with ⟨e, hname, he, -⟩ | ⟨n, c₁, -, -, happ⟩
  · cases he
    cases validateName_error hname
  · rcases happ with ⟨e, hcheck, he, -⟩ | ⟨p, r, -, -, -, -, ⟨e, henc, he, -⟩ | ⟨-, he, -⟩⟩
    · cases he
      exact checkPartition_ne_partitionNotLocal ho hcheck
    · cases he
      rcases Record.encode_error henc with he | ⟨_, he⟩ <;> cases he
    · cases he

/-- **An append to a topic that is there** changes no number of partitions,
and the records of one partition only. -/
theorem append_frame (h : Holder) (p : ℕ)
    (hknown : validateName name = .ok () → (c.counts name).isSome)
    (key value : Option Bytes) (timestamp : Option ℤ) (clock : ℤ) :
    (c.append h name key value timestamp (some p) clock).2.counts = c.counts
      ∧ ∀ name' p', ¬(name' = name ∧ p' = p) →
        (c.append h name key value timestamp (some p) clock).2.records name' p'
          = c.records name' p' := by
  cases happ : c.append h name key value timestamp (some p) clock with
  | mk answer c' =>
  refine ⟨(append_counts happ).trans ?_, fun name' p' hne => ?_⟩
  · unfold counted
    cases hname : validateName name with
    | error e => rfl
    | ok u =>
      obtain ⟨n, hn⟩ := Option.isSome_iff_exists.mp (hknown hname)
      simp only [hn, Option.getD_some]
      rw [← hn, Function.update_eq_self]
  · rcases append_outcome happ with ⟨e, -, hset⟩ | ⟨q, r, -, ⟨n, -, htarget⟩, -, -, -, hadds⟩
    · exact hset.records name' p'
    · cases Int.ofNat.inj htarget
      rw [hadds.records, if_neg hne]

end Codec

/-- How many partitions a topic has is the same for all who know the same. -/
theorem existing_congr (h h' : Holder) (name : String) (hc : c'.counts = c.counts) :
    (c'.existing h' name).1 = (c.existing h name).1 := by
  unfold existing
  rw [hc]
  cases validateName name with
  | error e => rfl
  | ok u =>
    cases c.counts name with
    | none => rfl
    | some n => rfl

/-- So is where a key goes. -/
theorem route_congr [Crc32] (h h' : Holder) (name : String) (hc : c'.counts = c.counts)
    (key : Bytes) :
    (c'.route h' name (some key)).1 = (c.route h name (some key)).1 := by
  have hanswer := existing_congr h h' name hc
  unfold route
  cases he : c.existing h name with
  | mk res c₁ =>
  cases he' : c'.existing h' name with
  | mk res' c₁' =>
  rw [he, he'] at hanswer
  cases hanswer
  cases res with
  | error e => rfl
  | ok n => rfl

/-- Asking where a key goes settles nothing new. -/
theorem route_settles [Crc32] (c : Catalog) (h : Holder) (name : String) (key : Option Bytes) :
    c.Settles h (c.route h name key).2 ∧ (c.route h name key).2.counts = c.counts := by
  cases hroute : c.route h name key with
  | mk answer c' => exact ⟨.route hroute, route_counts hroute⟩

/-- Nor does a read. -/
theorem readFrom_settles (c : Catalog) (h : Holder) (name : String) (offset partition : ℤ) :
    c.Settles h (c.readFrom h name offset partition).2
      ∧ (c.readFrom h name offset partition).2.counts = c.counts := by
  cases hread : c.readFrom h name offset partition with
  | mk answer c' => exact ⟨.readFrom hread, readFrom_counts hread⟩

/-- **Creating a topic with a number of its own** comes to the same. -/
theorem create_congr (h h' : Holder) (name : String) (hc : c'.counts = c.counts) (hn : 0 < n) :
    (c'.create h' name (some n)).1 = (c.create h name (some n)).1
      ∧ (c'.create h' name (some n)).2.counts = (c.create h name (some n)).2.counts := by
  have hcount : h'.countOf (some n) = h.countOf (some n) :=
    (if_neg hn.ne').trans (if_neg hn.ne').symm
  refine ⟨?_, ?_⟩
  · unfold create openAs
    rw [hc, hcount]
    cases validateName name <;> rfl
  · calc (c'.create h' name (some n)).2.counts
        = c'.counted h' name (some n) := create_counts rfl
      _ = c.counted h name (some n) := by
        unfold counted
        rw [hc, hcount]
      _ = (c.create h name (some n)).2.counts := (create_counts rfl).symm

end Catalog

namespace Ledger

/-- **An append where the partition is stored** is answered with its place, or
refused for what is wrong with it. -/
theorem produce_of_owns [Crc32] (ring : Ring) {h : Holder} (c : Catalog) {request : ProduceRequest}
    {p : ℕ} (hp : request.partition = some (p : ℤ)) (ho : h.owns request.topic p = true)
    (clock : ℤ) :
    produce ring h c request clock
      = let out :=
        c.append h request.topic request.key request.value request.timestamp (some p) clock
        (match out.1 with
          | .ok placed => .ok ⟨placed.1, placed.2, request.correlationId⟩
          | .error e =>
            .error (if e.isValueError then .abort .invalidArgument e.text else .unhandled e),
              out.2) := by
  have hlocal :
      ∀ msg, (c.append h request.topic request.key request.value request.timestamp (some p)
      clock).1 ≠ .error (.partitionNotLocal msg) :=
    fun _ => Catalog.append_ne_partitionNotLocal ho
  unfold produce
  rw [hp]
  cases happ : c.append h request.topic request.key request.value request.timestamp
    (some p) clock with
  | mk answer c' =>
  rw [happ] at hlocal
  cases answer with
  | ok placed => rfl
  | error e =>
    cases e with
    | partitionNotLocal msg => exact absurd rfl (hlocal msg)
    | _ => rfl

/-- A read where the partition is stored says nothing of the ring. -/
theorem read_congr {ring ring' : Ring} {h h' : Holder} {c c' : Catalog} {request : ConsumeRequest}
    {p : ℕ} (hp : request.partition = p) (ho : h.owns request.topic p = true) {offset : ℤ}
    (hread : (c.readFrom h request.topic offset p).1 = (c'.readFrom h' request.topic offset p).1)
    (limit : ℤ) :
    (read ring h c request offset limit).1 = (read ring' h' c' request offset limit).1 := by
  have hlocal : ∀ msg, (c.readFrom h request.topic offset p).1 ≠ .error (.partitionNotLocal msg) :=
    fun _ => Catalog.readFrom_ne_partitionNotLocal ho
  unfold read
  rw [hp]
  cases hr : c.readFrom h request.topic offset p with
  | mk res c₁ =>
  cases hr' : c'.readFrom h' request.topic offset p with
  | mk res' c₁' =>
  rw [hr, hr'] at hread
  rw [hr] at hlocal
  cases hread
  cases res with
  | ok records => rfl
  | error e =>
    cases e with
    | partitionNotLocal msg => exact absurd rfl (hlocal msg)
    | _ => rfl

end Ledger

/-! ## What a client does

Operations, each for a cluster and for one broker. -/

namespace Cluster

variable {cl : Cluster}

/-- One broker on its own, which owns every partition, by the same placement. -/
def alone (cl : Cluster) : Ring where
  brokers := 1
  me := 0
  address := cl.address
  placement := cl.placement
  me_lt := Nat.one_pos

/-- **What a client does that goes by the ring**: it creates a topic on every
broker, and asks about the records of a partition with the one it belongs to.
How many partitions there are, and which of them a key goes to, it asks any.
In between a broker may end and start again. -/
inductive Op (cl : Cluster)
  | create (name : String) (n : ℕ) (hn : 0 < n)
  | partitionsOf (i : Fin cl.brokers) (name : String)
  | route (i : Fin cl.brokers) (name : String) (key : Bytes)
  | produce (i : Fin cl.brokers) (request : ProduceRequest) (clock : ℤ) (elapsed : ℚ) (p : ℕ)
      (hp : request.partition = some (p : ℤ)) (ho : (cl.ring i).owns request.topic p = .ok true)
  | read (i : Fin cl.brokers) (request : ConsumeRequest) (offset limit : ℤ) (p : ℕ)
      (hp : request.partition = p) (ho : (cl.ring i).owns request.topic p = .ok true)
  | restart (i : Fin cl.brokers) (settings : Settings)

namespace Op

/-- What it is for the cluster. -/
def acts : Op cl → List (Act cl)
  | create name n _ => (List.finRange cl.brokers).map fun i => .ask i (.create name (some n))
  | partitionsOf i name => [.ask i (.partitionsOf name)]
  | route i name key => [.ask i (.route name (some key))]
  | produce i request clock elapsed _ _ _ => [.ask i (.produce request clock elapsed)]
  | read i request offset limit _ _ _ => [.ask i (.read request offset limit)]
  | restart i settings =>
    [⟨i, .kill, fun _ _ h => Node.Act.noConfusion h⟩, .start i settings]

/-- What it is for one broker. -/
def alone : Op cl → List Node.Act
  | create name n _ => [.ask (.create name (some n))]
  | partitionsOf _ name => [.ask (.partitionsOf name)]
  | route _ name key => [.ask (.route name (some key))]
  | produce _ request clock elapsed _ _ _ => [.ask (.produce request clock elapsed)]
  | read _ request offset limit _ _ _ => [.ask (.read request offset limit)]
  | restart _ settings => [.kill, .start cl.alone settings]

/-- What one broker answers is heard from as many as are asked. -/
def told : Op cl → List Node.Answer → List Node.Answer
  | create .., answers => answers.flatMap (List.replicate cl.brokers)
  | _, answers => answers

/-- **Topics are created first**: a record is for one that was. -/
def Created : List String → List (Op cl) → Prop
  | _, [] => True
  | known, create name _ _ :: ops => Created (name :: known) ops
  | known, produce _ request .. :: ops => request.topic ∈ known ∧ Created known ops
  | known, _ :: ops => Created known ops

end Op

/-- Start every broker, each in its own settings. -/
def startAll (settings : Fin cl.brokers → Settings) : List (Act cl) :=
  (List.finRange cl.brokers).map fun i => .start i (settings i)

/-! ## The cluster and the one broker

Ledgers on both sides, and the relation between them, kept by each operation. -/

section Codec

variable [Crc32]

/-- A cluster without files. -/
def ledgers (cl : Cluster) : Machine (Fin cl.brokers → Ledger) (Act cl) Node.Answer :=
  Ledger.machine.beside Act.broker Act.act

/-- **A cluster does what its ledgers do.** -/
theorem simulates_ledgers (cl : Cluster) :
    cl.machine.Simulates cl.ledgers fun nodes ls => ∀ i, (nodes i).Matches (ls i) :=
  Node.simulates_ledger.beside

end Codec

/-- **A cluster shares out what one broker has**: all know the same topics,
and a partition's records are those of its owner. -/
structure Shares (ls : Fin cl.brokers → Ledger) (l : Ledger) : Prop where
  up : ∀ i, ∃ d, (ls i).up = some (cl.ring i, ⟨(cl.ring i).ownsPartition, d⟩)
  alone : ∃ d, l.up = some (cl.alone, ⟨cl.alone.ownsPartition, d⟩)
  counts : ∀ i, (ls i).catalog.counts = l.catalog.counts
  records : ∀ i name p, (cl.ring i).ownsPartition name p = true →
    (ls i).catalog.records name p = l.catalog.records name p

/-- The one broker has every partition. -/
theorem alone_ownsPartition (cl : Cluster) (name : String) (p : ℕ) :
    cl.alone.ownsPartition name p = true :=
  Ring.ownsPartition_single rfl name p

/-- To own a partition is to be given it by the ring. -/
theorem owns_eq_true {i : Fin cl.brokers} {name : String} {p : ℕ} :
    (cl.ring i).owns name p = .ok true ↔ (cl.ring i).ownsPartition name p = true := by
  rw [Ring.ownsPartition_eq]
  exact ⟨Except.ok.inj, congrArg Except.ok⟩

/-- A partition that one broker owns is no other one's. -/
theorem owner_unique {i j : Fin cl.brokers} {name : String} {p : ℕ}
    (hi : (cl.ring i).ownsPartition name p = true) (hj : (cl.ring j).ownsPartition name p = true) :
    i = j :=
  (cl.exists_owner name (Int.natCast_nonneg p)).unique (owns_eq_true.mpr hi) (owns_eq_true.mpr hj)

section Codec

variable [Crc32] {ls : Fin cl.brokers → Ledger} {l : Ledger}

omit [Crc32] in
/-- One broker's catalog changes, and that of the one broker with it. -/
theorem Shares.update (hs : Shares ls l) {i : Fin cl.brokers} {ci c : Catalog}
    {hci : Holder} {hc : Holder}
    (hup : hci.owns = (cl.ring i).ownsPartition) (halone : hc.owns = cl.alone.ownsPartition)
    (hcounts : c.counts = l.catalog.counts) (hcountsi : ci.counts = c.counts)
    (hhere : ∀ name p, (cl.ring i).ownsPartition name p = true →
      ci.records name p = c.records name p)
    (hthere : ∀ name p, (cl.ring i).ownsPartition name p = false →
      c.records name p = l.catalog.records name p) :
    Shares (Function.update ls i ⟨some (cl.ring i, hci), ci⟩) ⟨some (cl.alone, hc), c⟩ where
  up j := by
    by_cases hj : j = i
    · subst hj
      rw [Function.update_self]
      exact ⟨hci.defaultPartitions, by rw [← hup]⟩
    · rw [Function.update_of_ne hj]
      exact hs.up j
  alone := ⟨hc.defaultPartitions, by rw [← halone]⟩
  counts j := by
    by_cases hj : j = i
    · subst hj
      rw [Function.update_self]
      exact hcountsi
    · rw [Function.update_of_ne hj]
      exact (hs.counts j).trans hcounts.symm
  records j name p ho := by
    by_cases hj : j = i
    · subst hj
      rw [Function.update_self]
      exact hhere name p ho
    · rw [Function.update_of_ne hj]
      have helse : (cl.ring i).ownsPartition name p = false :=
        Bool.eq_false_iff.mpr fun hi => hj (owner_unique ho hi)
      exact (hs.records j name p ho).trans (hthere name p helse).symm

omit [Crc32] in
/-- Where neither a topic nor a record comes to be, they stay alike. -/
theorem Shares.settle (hs : Shares ls l) {i : Fin cl.brokers} {ci c : Catalog} {hci hc : Holder}
    (hup : hci.owns = (cl.ring i).ownsPartition) (halone : hc.owns = cl.alone.ownsPartition)
    (hi : Catalog.Settles hci (ls i).catalog ci) (hcountsi : ci.counts = (ls i).catalog.counts)
    (h : Catalog.Settles hc l.catalog c) (hcounts : c.counts = l.catalog.counts) :
    Shares (Function.update ls i ⟨some (cl.ring i, hci), ci⟩) ⟨some (cl.alone, hc), c⟩ :=
  hs.update hup halone hcounts (hcountsi.trans ((hs.counts i).trans hcounts.symm))
    (fun name p ho => by rw [hi.records, h.records, hs.records i name p ho])
    fun name p _ => h.records name p

/-- **What an op comes to**: the answers are those of the one broker, heard
from all who are asked, and the cluster still shares out what it has. -/
structure Op.Alike (op : Op cl) (ls : Fin cl.brokers → Ledger) (l : Ledger) : Prop where
  answers : (cl.ledgers.run ls op.acts).1 = op.told (Ledger.machine.run l op.alone).1
  shares : Shares (cl.ledgers.run ls op.acts).2 (Ledger.machine.run l op.alone).2
  kept : ∀ name, (l.catalog.counts name).isSome →
    ((Ledger.machine.run l op.alone).2.catalog.counts name).isSome

/-- What is asked of one broker of the cluster. -/
theorem run_ask {i : Fin cl.brokers} {d : ℕ}
    (hup : (ls i).up = some (cl.ring i, ⟨(cl.ring i).ownsPartition, d⟩)) (request : Node.Request) :
    cl.ledgers.run ls [.ask i request]
      = ([(Ledger.exec (cl.ring i) ⟨(cl.ring i).ownsPartition, d⟩ (ls i).catalog request).1],
        Function.update ls i ⟨some (cl.ring i, ⟨(cl.ring i).ownsPartition, d⟩),
          (Ledger.exec (cl.ring i) ⟨(cl.ring i).ownsPartition, d⟩ (ls i).catalog request).2⟩) := by
  have hstep : Ledger.machine.step (ls i) (.ask request)
      = ((Ledger.exec (cl.ring i) ⟨(cl.ring i).ownsPartition, d⟩ (ls i).catalog request).1,
        ⟨some (cl.ring i, ⟨(cl.ring i).ownsPartition, d⟩),
          (Ledger.exec (cl.ring i) ⟨(cl.ring i).ownsPartition, d⟩ (ls i).catalog request).2⟩) := by
    simp only [Ledger.machine, hup]
  show ([(Ledger.machine.step (ls i) (.ask request)).1],
    Function.update ls i (Ledger.machine.step (ls i) (.ask request)).2) = _
  rw [hstep]

/-- What is asked of the one broker. -/
theorem run_ask_alone {d : ℕ} (hup : l.up = some (cl.alone, ⟨cl.alone.ownsPartition, d⟩))
    (request : Node.Request) :
    Ledger.machine.run l [.ask request]
      = ([(Ledger.exec cl.alone ⟨cl.alone.ownsPartition, d⟩ l.catalog request).1],
        ⟨some (cl.alone, ⟨cl.alone.ownsPartition, d⟩),
          (Ledger.exec cl.alone ⟨cl.alone.ownsPartition, d⟩ l.catalog request).2⟩) := by
  simp only [Machine.run, Ledger.machine, hup]

/-- **Asking one broker what any can answer**: it knows the same topics. -/
theorem Shares.ask (hs : Shares ls l) {op : Op cl} {i : Fin cl.brokers} {request : Node.Request}
    (hacts : op.acts = [.ask i request]) (halone : op.alone = [.ask request])
    (htold : ∀ answers, op.told answers = answers)
    (hsettles : ∀ (ring : Ring) h c, Catalog.Settles h c (Ledger.exec ring h c request).2
      ∧ (Ledger.exec ring h c request).2.counts = c.counts)
    (hanswer : ∀ d d',
      (Ledger.exec (cl.ring i) ⟨(cl.ring i).ownsPartition, d⟩ (ls i).catalog request).1
      = (Ledger.exec cl.alone ⟨cl.alone.ownsPartition, d'⟩ l.catalog request).1) :
    op.Alike ls l := by
  obtain ⟨d, hup⟩ := hs.up i
  obtain ⟨d', hup'⟩ := hs.alone
  obtain ⟨hset, hcounts⟩ := hsettles (cl.ring i) ⟨(cl.ring i).ownsPartition, d⟩ (ls i).catalog
  obtain ⟨hset', hcounts'⟩ := hsettles cl.alone ⟨cl.alone.ownsPartition, d'⟩ l.catalog
  refine ⟨?_, ?_, fun name hname => ?_⟩
  · rw [hacts, halone, htold, run_ask hup, run_ask_alone hup', hanswer d d']
  · rw [hacts, halone, run_ask hup, run_ask_alone hup']
    exact hs.settle rfl rfl hset hcounts hset' hcounts'
  · rw [halone, run_ask_alone hup']
    exact (congrArg (fun counts => (counts name).isSome) hcounts').mpr hname

/-- **Producing to the owner**: the record goes behind the same records. -/
theorem Shares.produce (hs : Shares ls l) {i : Fin cl.brokers} {request : ProduceRequest}
    (clock : ℤ) (elapsed : ℚ) {p : ℕ} (hp : request.partition = some (p : ℤ))
    (ho : (cl.ring i).owns request.topic p = .ok true)
    (hknown : validateName request.topic = .ok () → (l.catalog.counts request.topic).isSome) :
    Op.Alike (.produce i request clock elapsed p hp ho) ls l := by
  obtain ⟨d, hup⟩ := hs.up i
  obtain ⟨d', hup'⟩ := hs.alone
  have howns := owns_eq_true.mp ho
  have hknowni : validateName request.topic = .ok () →
      ((ls i).catalog.counts request.topic).isSome := by rwa [hs.counts i]
  have hagree : Catalog.AgreeOn request.topic p (ls i).catalog l.catalog :=
    ⟨(hs.counts i).symm, (hs.records i _ _ howns).symm⟩
  have howns' := alone_ownsPartition cl request.topic p
  obtain ⟨hanswer, hafter⟩ := hagree.append ⟨(cl.ring i).ownsPartition, d⟩
    ⟨cl.alone.ownsPartition, d'⟩ howns howns' hknowni request.key request.value request.timestamp
    clock
  obtain ⟨hcounts, hframe⟩ := Catalog.append_frame ⟨cl.alone.ownsPartition, d'⟩ p hknown request.key
    request.value request.timestamp clock
  obtain ⟨hcountsi, hframei⟩ := Catalog.append_frame ⟨(cl.ring i).ownsPartition, d⟩ p hknowni
    request.key request.value request.timestamp clock
  have hexec := Ledger.produce_of_owns (cl.ring i) (h := ⟨(cl.ring i).ownsPartition, d⟩)
    (ls i).catalog hp howns clock
  have hexec' := Ledger.produce_of_owns cl.alone (h := ⟨cl.alone.ownsPartition, d'⟩) l.catalog hp
    howns' clock
  refine ⟨?_, ?_, fun name hname => ?_⟩
  · show (cl.ledgers.run ls [.ask i _]).1 = (Ledger.machine.run l [.ask _]).1
    rw [run_ask hup, run_ask_alone hup']
    simp only [Ledger.exec, hexec, hexec', hanswer]
  · show Shares (cl.ledgers.run ls [.ask i _]).2 (Ledger.machine.run l [.ask _]).2
    rw [run_ask hup, run_ask_alone hup']
    simp only [Ledger.exec, hexec, hexec']
    refine hs.update rfl rfl hcounts hafter.counts.symm (fun name q hq => ?_) fun name q hq => ?_
    · by_cases hplace : name = request.topic ∧ q = p
      · rw [hplace.1, hplace.2]
        exact hafter.records.symm
      · rw [hframei name q hplace, hframe name q hplace]
        exact hs.records i name q hq
    · refine hframe name q fun hplace => ?_
      rw [hplace.1, hplace.2, howns] at hq
      cases hq
  · show ((Ledger.machine.run l [.ask _]).2.catalog.counts name).isSome
    rw [run_ask_alone hup']
    simp only [Ledger.exec, hexec', hcounts]
    exact hname

/-- **Creating a topic on every broker**, after which all know it, with one
number of partitions. -/
theorem Shares.create (hs : Shares ls l) (name : String) {n : ℕ} (hn : 0 < n) :
    Op.Alike (.create name n hn) ls l
      ∧ (validateName name = .ok () →
        ((Ledger.machine.run l (Op.alone (.create name n hn : Op cl))).2.catalog.counts
          name).isSome) := by
  obtain ⟨d', hup'⟩ := hs.alone
  choose d hup using hs.up
  have hnodup : (((List.finRange cl.brokers).map
      (fun i => Act.ask i (.create name (some n)))).map Act.broker).Nodup := by
    rw [List.map_map]
    exact (List.map_id _).symm ▸ List.nodup_finRange cl.brokers
  obtain ⟨hanswers, heach, -⟩ := Ledger.machine.run_beside Act.broker Act.act ls hnodup
  have hstep : ∀ i, Ledger.machine.step (ls i) (.ask (.create name (some n)))
      = (.count ((ls i).catalog.create ⟨(cl.ring i).ownsPartition, d i⟩ name (some n)).1,
        ⟨some (cl.ring i, ⟨(cl.ring i).ownsPartition, d i⟩),
          ((ls i).catalog.create ⟨(cl.ring i).ownsPartition, d i⟩ name (some n)).2⟩) := fun i => by
    simp only [Ledger.machine, hup, Ledger.exec]
  have hcongr := fun i => Catalog.create_congr ⟨cl.alone.ownsPartition, d'⟩
    ⟨(cl.ring i).ownsPartition, d i⟩ name (hs.counts i) hn
  have hafter : ∀ i, (cl.ledgers.run ls (Op.acts (.create name n hn))).2 i
      = (Ledger.machine.step (ls i) (.ask (.create name (some n)))).2 := fun i =>
    heach _ (List.mem_map_of_mem (List.mem_finRange i))
  have hset : l.catalog.Settles ⟨cl.alone.ownsPartition, d'⟩
      (l.catalog.create ⟨cl.alone.ownsPartition, d'⟩ name (some n)).2 := .create rfl
  refine ⟨⟨?_, ?_, fun name' hname' => ?_⟩, fun hname => ?_⟩
  · show (cl.ledgers.run ls (Op.acts (.create name n hn))).1
      = (Ledger.machine.run l [.ask _]).1.flatMap (List.replicate cl.brokers)
    refine hanswers.trans ?_
    rw [run_ask_alone hup', List.map_map, List.flatMap_singleton]
    refine (List.map_congr_left fun i _ => ?_).trans
      ((List.map_const' ..).trans (by rw [List.length_finRange]))
    show (Ledger.machine.step (ls i) (.ask (.create name (some n)))).1 = _
    rw [hstep i]
    exact congrArg Node.Answer.count (hcongr i).1
  · show Shares _ (Ledger.machine.run l [.ask _]).2
    rw [run_ask_alone hup']
    refine ⟨fun i => ⟨d i, ?_⟩, ⟨d', rfl⟩, fun i => ?_, fun i name' p ho => ?_⟩
    · rw [hafter, hstep]
    · rw [hafter, hstep]
      exact (hcongr i).2
    · rw [hafter, hstep]
      have hseti : (ls i).catalog.Settles ⟨(cl.ring i).ownsPartition, d i⟩
          ((ls i).catalog.create ⟨(cl.ring i).ownsPartition, d i⟩ name (some n)).2 := .create rfl
      exact (hseti.records name' p).trans ((hs.records i name' p ho).trans
        (hset.records name' p).symm)
  · show ((Ledger.machine.run l [.ask _]).2.catalog.counts name').isSome
    rw [run_ask_alone hup']
    obtain ⟨m, hm⟩ := Option.isSome_iff_exists.mp hname'
    exact Option.isSome_iff_exists.mpr ⟨m, hset.counts hm⟩
  · show ((Ledger.machine.run l [.ask _]).2.catalog.counts name).isSome
    rw [run_ask_alone hup']
    have hcounts : (l.catalog.create ⟨cl.alone.ownsPartition, d'⟩ name (some n)).2.counts
        = l.catalog.counted ⟨cl.alone.ownsPartition, d'⟩ name (some n) := Catalog.create_counts rfl
    show ((l.catalog.create ⟨cl.alone.ownsPartition, d'⟩ name (some n)).2.counts name).isSome
    rw [hcounts, Catalog.counted_self hname]
    rfl

/-- **A broker ends and starts again**: its turn is the first again, which no
operation goes by. -/
theorem Shares.restart (hs : Shares ls l) (i : Fin cl.brokers) (settings : Settings) :
    Op.Alike (.restart i settings) ls l := by
  have hrun : cl.ledgers.run ls (Op.acts (.restart i settings))
      = ([.idle, .done (.ok ())], Function.update ls i
        ⟨some (cl.ring i, ⟨(cl.ring i).ownsPartition, settings.partitions⟩),
          { (ls i).catalog with turn := 0 }⟩) := by
    simp only [Op.acts, Act.start, Machine.run, ledgers, Machine.beside, Ledger.machine,
      Function.update_self, Function.update_idem]
  refine ⟨by rw [hrun]; rfl, ?_, fun name hname => hname⟩
  rw [hrun]
  exact hs.settle rfl rfl (.refl _ _ 0) rfl (.refl _ _ 0) rfl

/-- **One op after the other**, by induction; the topics that were created are
known on the way. -/
theorem Shares.run (hs : Shares ls l) (known : List String)
    (hknown : ∀ name ∈ known, validateName name = .ok () → (l.catalog.counts name).isSome)
    {ops : List (Op cl)} (hops : Op.Created known ops) :
    ((cl.ledgers.many Op.acts).run ls ops).1
        = List.zipWith Op.told ops ((Ledger.machine.many Op.alone).run l ops).1
      ∧ Shares ((cl.ledgers.many Op.acts).run ls ops).2
        ((Ledger.machine.many Op.alone).run l ops).2 := by
  induction ops generalizing ls l known with
  | nil => exact ⟨rfl, hs⟩
  | cons op ops ih =>
    -- what is left after the first op
    have hrest : ∀ known', Op.Alike op ls l → Op.Created known' ops →
        (∀ name ∈ known', validateName name = .ok () →
          ((Ledger.machine.run l op.alone).2.catalog.counts name).isSome) →
        ((cl.ledgers.many Op.acts).run ls (op :: ops)).1
            = List.zipWith Op.told (op :: ops) ((Ledger.machine.many Op.alone).run l (op :: ops)).1
          ∧ Shares ((cl.ledgers.many Op.acts).run ls (op :: ops)).2
            ((Ledger.machine.many Op.alone).run l (op :: ops)).2 := by
      intro known' halike hops' hknown'
      obtain ⟨hanswers, hshares⟩ := ih halike.shares known' hknown' hops'
      refine ⟨?_, hshares⟩
      show (cl.ledgers.run ls op.acts).1 :: _ = op.told (Ledger.machine.run l op.alone).1 :: _
      rw [halike.answers]
      exact congrArg (List.cons _) hanswers
    have hkept : Op.Alike op ls l → ∀ name ∈ known, validateName name = .ok () →
        ((Ledger.machine.run l op.alone).2.catalog.counts name).isSome :=
      fun halike name hmem hname => halike.kept name (hknown name hmem hname)
    cases op with
    | create name n hn =>
      obtain ⟨halike, hmade⟩ := hs.create name hn
      refine hrest (name :: known) halike hops fun name' hmem hname => ?_
      rcases List.mem_cons.mp hmem with rfl | hmem
      · exact hmade hname
      · exact hkept halike name' hmem hname
    | partitionsOf i name =>
      have halike : Op.Alike (.partitionsOf i name) ls l := hs.ask rfl rfl (fun _ => rfl)
        (fun _ _ _ => ⟨.existing rfl, Catalog.existing_counts rfl⟩)
        fun _ _ => congrArg Node.Answer.count (Catalog.existing_congr _ _ name (hs.counts i))
      exact hrest known halike hops (hkept halike)
    | route i name key =>
      have halike : Op.Alike (.route i name key) ls l := hs.ask rfl rfl (fun _ => rfl)
        (fun _ _ _ => Catalog.route_settles _ _ name (some key))
        fun _ _ => congrArg Node.Answer.routed (Catalog.route_congr _ _ name (hs.counts i) key)
      exact hrest known halike hops (hkept halike)
    | produce i request clock elapsed p hp ho =>
      have halike := hs.produce clock elapsed hp ho (hknown request.topic hops.1)
      exact hrest known halike hops.2 (hkept halike)
    | read i request offset limit p hp ho =>
      have halike : Op.Alike (.read i request offset limit p hp ho) ls l := hs.ask rfl rfl
        (fun _ => rfl) (fun _ _ _ => Catalog.readFrom_settles _ _ request.topic offset
          request.partition)
        fun d d' => by
          have howns := owns_eq_true.mp ho
          have hagree : Catalog.AgreeOn request.topic p l.catalog (ls i).catalog :=
            ⟨hs.counts i, hs.records i _ _ howns⟩
          have hread := hagree.readFrom ⟨cl.alone.ownsPartition, d'⟩
            ⟨(cl.ring i).ownsPartition, d⟩ (alone_ownsPartition cl _ _) howns offset
          exact congrArg Node.Answer.records (Ledger.read_congr hp howns hread limit)
      exact hrest known halike hops (hkept halike)
    | restart i settings =>
      have halike := hs.restart i settings
      exact hrest known halike hops (hkept halike)

/-- **Every broker has started.** -/
theorem shares_start (settings : Fin cl.brokers → Settings) (settings₁ : Settings) :
    Shares (cl.ledgers.run (fun _ => .empty) (startAll settings)).2
      (Ledger.machine.step .empty (.start cl.alone settings₁)).2 := by
  have hnodup : ((startAll settings).map Act.broker).Nodup := by
    unfold startAll
    rw [List.map_map]
    exact (List.map_id _).symm ▸ List.nodup_finRange cl.brokers
  obtain ⟨-, heach, -⟩ := Ledger.machine.run_beside Act.broker Act.act (fun _ => .empty) hnodup
  have hafter : ∀ i, (cl.ledgers.run (fun _ => .empty) (startAll settings)).2 i
      = ⟨some (cl.ring i, ⟨(cl.ring i).ownsPartition, (settings i).partitions⟩), .empty⟩ := fun i =>
    heach (.start i (settings i)) (List.mem_map_of_mem (List.mem_finRange i))
  refine ⟨fun i => ⟨(settings i).partitions, ?_⟩, ⟨settings₁.partitions, rfl⟩, fun i => ?_,
    fun i name p _ => ?_⟩
  · rw [hafter]
  · rw [hafter]
    rfl
  · rw [hafter]
    rfl

/-- **A cluster is one broker**, to a client that goes by the ring. It creates
its topics on every broker, and sends what is about a partition to the broker
that the ring gives it to, while brokers end and start again. Each answer is
the one that a broker on its own would give, which owns every partition; and
in the end each broker has of its partitions the very records that this one
has. -/
theorem one_broker (cl : Cluster) (settings : Fin cl.brokers → Settings) (settings₁ : Settings)
    (ops : List (Op cl)) (hops : Op.Created [] ops) :
    let nodes := (cl.machine.run State.empty (startAll settings)).2
    let node := (Node.machine.step .empty (.start cl.alone settings₁)).2
    ((cl.machine.many Op.acts).run nodes ops).1
        = List.zipWith Op.told ops ((Node.machine.many Op.alone).run node ops).1
      ∧ ∀ i name (p : ℕ), (cl.ring i).owns name p = .ok true →
        (((cl.machine.many Op.acts).run nodes ops).2 i).root.records name p
          = ((Node.machine.many Op.alone).run node ops).2.root.records name p := by
  intro nodes node
  have hnodes := ((simulates_ledgers cl).run (fun _ => Node.matches_empty) (startAll settings)).2
  have hnode := Node.simulates_ledger.related Node.matches_empty (.start cl.alone settings₁)
  obtain ⟨hanswers, hshares⟩ := (shares_start settings settings₁).run []
    (fun _ hmem => by cases hmem) hops
  obtain ⟨hcluster, hmatches⟩ := ((simulates_ledgers cl).many Op.acts).run hnodes ops
  obtain ⟨hsingle, c₁, hgood₁, ha₁, -⟩ := (Node.simulates_ledger.many Op.alone).run hnode ops
  refine ⟨?_, fun i name p ho => ?_⟩
  · exact hcluster.trans (hanswers.trans (congrArg (List.zipWith Op.told ops) hsingle.symm))
  · obtain ⟨c, hgood, ha, -⟩ := hmatches i
    calc _ = c.records name p := hgood.stores.records_eq name p
      _ = _ := (ha.records name p).symm
      _ = _ := hshares.records i name p (owns_eq_true.mp ho)
      _ = c₁.records name p := ha₁.records name p
      _ = _ := (hgood₁.stores.records_eq name p).symm

omit [Crc32] in
/-- Two brokers that each have a partition, one of which starts again between
the record and the read. -/
theorem one_broker_two : let _ := Crc32.zlib
    let cl : Cluster := ⟨2, fun b => .ok s!"pyka-{b}", .modulo, Nat.two_pos⟩
    let settings : Settings := ⟨"data", 1, .never, ⟨2 ^ 30, default_max_segment_bytes⟩, false,
      Nat.one_pos⟩
    ∃ (h₀ : (cl.ring 0).owns "orders" 0 = .ok true) (h₁ : (cl.ring 1).owns "orders" 1 = .ok true),
      let ops : List (Op cl) := [.create "orders" 2 Nat.two_pos,
        .produce 1 ⟨"orders", none, some [97], some 5, none, some 1⟩ 7 0 1 rfl h₁,
        .produce 0 ⟨"orders", none, some [98], some 6, none, some 0⟩ 7 0 0 rfl h₀,
        .restart 1 settings, .read 1 ⟨"orders", 1, 0, false, 0⟩ 0 500 1 rfl h₁]
      Op.Created [] ops
        ∧ let nodes := (cl.machine.run State.empty (startAll fun _ => settings)).2
          let node := (Node.machine.step .empty (.start cl.alone settings)).2
          ((cl.machine.many Op.acts).run nodes ops).1
            = List.zipWith Op.told ops ((Node.machine.many Op.alone).run node ops).1 := by
  intro _ cl settings
  have h₀ : (cl.ring 0).owns "orders" 0 = .ok true := by decide
  have h₁ : (cl.ring 1).owns "orders" 1 = .ok true := by decide
  refine ⟨h₀, h₁, ?_⟩
  intro ops
  have hops : Op.Created [] ops :=
    ⟨List.mem_cons_self, List.mem_cons_self, trivial⟩
  exact ⟨hops, (one_broker cl (fun _ => settings) settings ops hops).1⟩

end Codec

end Cluster

end Pyka
