import Mathlib.Data.Rat.Defs
import Pyka.Base.Crc32
import Pyka.Storage.Types

/-!
# Partitioner and sync policy

Which partition a record goes to, by its key or in turn, and when a log is
made durable. Both are asked on every append and on no read: a consumer names
the partition it was given.

## Keys

A record that has a key goes where the key's checksum says, modulo the number
of partitions. So all records of a key share a partition and keep their order
in it, in this process and in every later one, as long as the topic has as
many partitions; that a topic never gets another number is shown in
`Topic.Lives`. The checksum is the one that frames are guarded with, here used
for nothing but spreading keys, and it stays a parameter where its values do
not matter.

## Turns

Records without a key are dealt out one after the other. The partitioner keeps
one number for that, the next turn, and it has one number for all topics of a
registry: what is sent to one topic moves the turn of the others. Asking for
the way of a record without a key takes a turn, too, which is how `route` and
`append` can come to different answers (`Broker.Redirect`).

## The policy

When to sync is decided by two bounds, either of which may be missing. The
policy keeps no count and no clock; its caller has both, and so one policy is
shared by every log. `Topic.Syncing` is about what becomes of the caller's
count when two threads append at once.
-/

namespace Pyka

open Struct (Bytes)

/-- `Partitioner`; `next` is the turn of the next record without a key,
whatever the topic. -/
structure Partitioner where
  next : ℕ
  deriving DecidableEq, Repr

/-- The partition of a key: its CRC-32, modulo the number of partitions.
Nothing of the process comes in, so that a restart sends no key elsewhere. -/
def keyPartition [Crc32] (key : Bytes) (partitions : ℕ) : ℕ :=
  (Crc32.crc32 key 0).toNat % partitions

namespace Partitioner

/-- **The partition of a record**, by its key or, without one, in turn. The
turn moves on only where it was used. -/
def partitionFor [Crc32] (pt : Partitioner) (key : Option Bytes) (partitions : ℕ) :
    Except PyError ℕ × Partitioner :=
  if partitions < 1 then
    (.error (.valueError s!"partitions must be >= 1, got {partitions}"), pt)
  else
    match key with
    | none => (.ok (pt.next % partitions), { next := pt.next + 1 })
    | some key => (.ok (keyPartition key partitions), pt)

/-- The partition a record is given, or else the one it is routed to. One that
is given is taken as it is, and checked by the caller. -/
def choose [Crc32] (pt : Partitioner) (key : Option Bytes) (partition : Option ℤ)
    (partitions : ℕ) : Except PyError ℤ × Partitioner :=
  match partition with
  | some p => (.ok p, pt)
  | none =>
    let (res, pt) := pt.partitionFor key partitions
    (res.map Int.ofNat, pt)

/-- The answer is one of the partitions, of a topic that has any: no record
that was routed is refused as out of range. -/
theorem partitionFor_lt [Crc32] (pt : Partitioner) (key : Option Bytes) {partitions : ℕ}
    (h : 0 < partitions) :
    ∃ p < partitions, (pt.partitionFor key partitions).1 = .ok p := by
  unfold partitionFor
  rw [if_neg (by omega)]
  cases key with
  | none => exact ⟨_, Nat.mod_lt _ h, rfl⟩
  | some key => exact ⟨_, Nat.mod_lt _ h, rfl⟩

end Partitioner

/-- `SyncPolicy`: after how many records, and after how many milliseconds; a
bound that is missing never calls for a sync. -/
structure SyncPolicy where
  records : Option ℤ
  millis : Option ℤ
  deriving DecidableEq, Repr

namespace SyncPolicy

/-- **Is it time?** Either bound is enough. The clock is looked at on an
append only, so an idle log does not come to it. -/
def shouldSync (policy : SyncPolicy) (appendsSinceSync : ℕ) (millisSinceSync : ℚ) : Bool :=
  (match policy.records with
    | some n => decide (n ≤ appendsSinceSync)
    | none => false)
  || (match policy.millis with
    | some n => decide ((n : ℚ) ≤ millisSinceSync)
    | none => false)

/-- `SYNC_EVERY_RECORD`: a sync after each record, which is to say that one is
enough. -/
def everyRecord : SyncPolicy := ⟨some 1, none⟩

/-- `SYNC_NEVER`: neither bound, so that a log is synced when it is closed or
someone asks. -/
def never : SyncPolicy := ⟨none, none⟩

end SyncPolicy

end Pyka
