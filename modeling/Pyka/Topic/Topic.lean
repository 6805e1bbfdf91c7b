import Mathlib.Data.String.Basic
import Pyka.Storage.Log
import Pyka.Topic.Partitioner
import Pyka.Topic.Volume

/-!
# The topic registry

Named topics on a data root, each a `topic.json` and a directory for each
partition stored here, and what the process has open of them. `owns` says
which partitions are stored here; it is asked with the topic's name, since one
partition is elsewhere for another topic.

## How a topic comes to be open

A topic is opened by whatever comes to it first: `create`, `append`, which
creates it where need be, or any of the reading operations, which do not. To
open it is to read how many partitions it has and to recover the log of each
that is stored here (`openLocked`); after that it stays in the cache until
`close`. An opening that fails half way leaves no entry in the cache, but what
it did on disk stays done: the `topic.json` that it wrote, and every log that
it recovered before the one that failed.

## How operations are written

An operation takes the registry and the data root and gives back an answer,
the registry and the data root. An exception is an answer like the others, and
what had been done before it was raised is in the other two; so the order in
which things happen is that of the source, line by line. Counts of partitions
are natural numbers, since every caller checks that a count it is given is at
least 1. The clocks an operation reads are arguments of it: `clock` the time
of day, `elapsed` the milliseconds since the partition was last synced.

An operation is one step here. The lock of the source makes the opening of a
topic that in fact; an append is several, and is taken apart in
`Topic.Syncing` and `Topic.Sharing` where it matters that others come in
between.
-/

namespace Pyka

open Struct (Bytes)

/-! ## Names

A name becomes a directory's, so it is checked before anything is done with
it. The texts of the refusals carry the name as `repr` shows it. -/

/-- `repr` of a string: printable characters as they are, others as escapes.
Which characters of Latin-1 are printable is spelled out; past it every
character is taken to be. -/
def pyRepr (s : String) : String :=
  let quote := if '\'' ∈ s.toList ∧ '"' ∉ s.toList then '"' else '\''
  let escape (c : Char) : String :=
    if c = '\\' then "\\\\"
    else if c = quote then "\\" ++ String.ofList [c]
    else if c = '\n' then "\\n"
    else if c = '\r' then "\\r"
    else if c = '\t' then "\\t"
    else if c.toNat < 32 ∨ (127 ≤ c.toNat ∧ c.toNat ≤ 160) ∨ c.toNat = 173 then
      "\\x" ++ String.ofList [Nat.digitChar (c.toNat / 16), Nat.digitChar (c.toNat % 16)]
    else String.ofList [c]
  String.ofList [quote] ++ String.join (s.toList.map escape) ++ String.ofList [quote]

/-- `_MAX_NAME_LENGTH` -/
def maxNameLength : ℕ := 200

/-- `_ALLOWED_NAME_CHARS`: ASCII letters and digits, and a few more. -/
def allowedNameChar (c : Char) : Bool :=
  c.isAlpha || c.isDigit || c = '.' || c = '_' || c = '-'

/-- **Is a name usable as a directory's?** The two names made of allowed
characters that are no names of their own, `.` and `..`, are refused one by
one. -/
def validateName (name : String) : Except PyError Unit := do
  raiseIf (name = "") (.valueError "topic name must not be empty")
  raiseIf (maxNameLength < name.length)
    (.valueError s!"topic name longer than {maxNameLength}: {pyRepr name}")
  raiseIf (name = "." ∨ name = "..") (.valueError s!"reserved topic name: {pyRepr name}")
  raiseIf (¬name.toList.all allowedNameChar) (.valueError s!"invalid topic name: {pyRepr name}")

/-- `_is_valid_name`: the same check, as a question. -/
def isValidName (name : String) : Bool :=
  match validateName name with
  | .ok () => true
  | .error _ => false

theorem isValidName_iff {name : String} : isValidName name = true ↔ validateName name = .ok () := by
  unfold isValidName
  cases validateName name <;> simp

/-- A name is refused with a `ValueError`, which is what the broker looks at
when it chooses a status. -/
theorem validateName_error {name : String} {e : PyError} (h : validateName name = .error e) :
    e.isValueError = true := by
  simp only [validateName, bind_eq_error, raiseIf_eq_error] at h
  rcases h with ⟨-, rfl⟩ | ⟨-, -, ⟨-, rfl⟩ | ⟨-, -, ⟨-, rfl⟩ | ⟨-, -, -, rfl⟩⟩⟩ <;> rfl

/-! ## The registry

What a process has of its topics: the settings it was made with, the turn of
the partitioner, and the topics that are open. -/

/-- `_Partition`: an open log, and how many records it took since the last
sync. When that was is known to the clock alone (`elapsed`). -/
structure Partition where
  log : Log
  appends : ℕ

/-- `_OpenTopic`: how many partitions a topic has in total, over all brokers,
and those stored here. -/
structure OpenTopic where
  partitions : ℕ
  stored : AList (fun _ : ℕ => Partition)

/-- `Topic`; `path` is the root's, `defaultPartitions` what a topic gets that
nobody says a number for, and `opened` the cache. -/
structure Topic where
  path : String
  defaultPartitions : ℕ
  syncPolicy : SyncPolicy
  maxSegmentBytes : ℤ
  owns : String → ℕ → Bool
  partitioner : Partitioner
  opened : AList (fun _ : String => OpenTopic)

namespace Topic

/-- `Topic(...)`: an empty cache, and the first turn. Nothing on disk is
looked at. -/
def init (path : String) (partitions : ℕ) (syncPolicy : SyncPolicy) (maxSegmentBytes : ℤ)
    (owns : String → ℕ → Bool) : Except PyError Topic := do
  raiseIf (partitions < 1) (.valueError s!"partitions must be >= 1, got {partitions}")
  return { path, defaultPartitions := partitions, syncPolicy, maxSegmentBytes, owns,
           partitioner := ⟨0⟩, opened := ∅ }

/-- **The topics on disk**, opened or not, in order. A directory is a topic's
where it has the metadata file; its name alone would not do. -/
def names (v : Volume) : List String :=
  (v.root.keys.filter fun name => isValidName name && (v.root.metaFile name).isSome).insertionSort
    (· ≤ ·)

/-- Is there a topic of this name? Asked of the disk, without opening it, and
for a file that cannot be read the answer is yes. -/
def topicExists (v : Volume) (name : String) : Except PyError Bool := do
  validateName name
  return (v.root.metaFile name).isSome

/-- **Partition directories on disk that are not this instance's.** There is
one only where the cluster had another size, or the data another place. -/
def foreignPartitions (t : Topic) (v : Volume) (name : String) : List ℕ :=
  (v.root.partsOf name).filter fun p => !t.owns name p

section Codec

variable [Crc32]

/-! ### Opening -/

/-- Open the log of a partition: recover what is in its directory, or make an
empty one. -/
def openLog (t : Topic) (name : String) (p : ℕ) (v : Volume) : Except PyError Log × Volume :=
  let (res, disk) := Log.init (v.disk name p) s!"{t.path}/{name}/{p}" t.maxSegmentBytes
  (res, v.onPart name p disk)

/-- Open the logs of partitions, one after the other. Where one fails, those
before it have been recovered on disk and are forgotten. -/
def openLogs (t : Topic) (name : String) : List ℕ → Volume →
    Except PyError (AList (fun _ : ℕ => Partition)) × Volume
  | [], v => (.ok ∅, v)
  | p :: ps, v =>
    match t.openLog name p v with
    | (.error e, v) => (.error e, v)
    | (.ok log, v) =>
      match t.openLogs name ps v with
      | (.error e, v) => (.error e, v)
      | (.ok stored, v) => (.ok (stored.insert p { log, appends := 0 }), v)

/-- How many partitions a new topic gets: `partitions or default`, where a
zero counts as no number, since Python takes it for false. -/
def countOf (t : Topic) (partitions : Option ℕ) : ℕ :=
  match partitions with
  | none => t.defaultPartitions
  | some n => if n = 0 then t.defaultPartitions else n

/-- **`_open_locked`**: read how many partitions the topic has, or decide
it, and open those stored here. -/
def openLocked (t : Topic) (v : Volume) (name : String) (partitions : Option ℕ) :
    Except PyError OpenTopic × Topic × Volume :=
  match v.readMeta name with
  | .error e => (.error e, t, v)
  | .ok found =>
    let count := found.getD (t.countOf partitions)
    let v := if found.isNone then v.writeMeta name count else v
    match t.openLogs name ((List.range count).filter (t.owns name)) v with
    | (.error e, v) => (.error e, t, v)
    | (.ok stored, v) =>
      let topic : OpenTopic := { partitions := count, stored }
      (.ok topic, { t with opened := t.opened.insert name topic }, v)

/-- Take a topic from the cache, or open it. The number that is asked for is
looked at only when the topic is made. -/
def openCached (t : Topic) (v : Volume) (name : String) (partitions : Option ℕ) :
    Except PyError OpenTopic × Topic × Volume :=
  match t.opened.lookup name with
  | some topic => (.ok topic, t, v)
  | none => t.openLocked v name partitions

/-- **Create a topic unless it exists**, and answer with its number of
partitions either way. -/
def create (t : Topic) (v : Volume) (name : String) (partitions : Option ℕ) :
    Except PyError ℕ × Topic × Volume :=
  match validateName name with
  | .error e => (.error e, t, v)
  | .ok () =>
    let (res, t, v) := t.openCached v name partitions
    (res.map OpenTopic.partitions, t, v)

/-- `_topic`: a topic that exists, opened if it was not, or `UnknownTopic`. It
makes no topic, but it makes directories of partitions that are missing. -/
def existing (t : Topic) (v : Volume) (name : String) : Except PyError OpenTopic × Topic × Volume :=
  match validateName name with
  | .error e => (.error e, t, v)
  | .ok () =>
    match t.opened.lookup name with
    | some topic => (.ok topic, t, v)
    | none =>
      match v.readMeta name with
      | .error e => (.error e, t, v)
      | .ok none => (.error (.unknownTopic name), t, v)
      | .ok (some _) => t.openLocked v name none

/-! ### Reading -/

/-- How many partitions the topic has in total, over all brokers: what the
client needs for its own routing. -/
def partitionsOf (t : Topic) (v : Volume) (name : String) : Except PyError ℕ × Topic × Volume :=
  let (res, t, v) := t.existing v name
  (res.map OpenTopic.partitions, t, v)

/-- The partitions stored here, in order: those that the open topic has a log
of. -/
def localPartitions (t : Topic) (v : Volume) (name : String) :
    Except PyError (List ℕ) × Topic × Volume :=
  let (res, t, v) := t.existing v name
  (res.map fun topic => topic.stored.keys.insertionSort (· ≤ ·), t, v)

/-- **`_check_partition`**: out of range and not stored here are two errors.
Answers with the partition, which is what every caller takes next. -/
def checkPartition (name : String) (topic : OpenTopic) (partition : ℤ) :
    Except PyError Partition := do
  raiseIf (¬(0 ≤ partition ∧ partition < topic.partitions))
    (.valueError (s!"topic {pyRepr name} has {topic.partitions} partition(s), "
      ++ s!"asked for {partition}"))
  match topic.stored.lookup partition.toNat with
  | none =>
    .error (.partitionNotLocal s!"partition {partition} of {pyRepr name} is not stored here")
  | some entry => .ok entry

/-- The log of a partition, or the reason why there is none here. -/
def get (t : Topic) (v : Volume) (name : String) (partition : ℤ) :
    Except PyError Log × Topic × Volume :=
  let (res, t, v) := t.existing v name
  (res.bind fun topic => (checkPartition name topic partition).map Partition.log, t, v)

/-- **Records of a partition from an offset on.** What is read is what the
files hold at this moment; the read that goes on beside writers is
`Storage.Interleaving`. -/
def readFrom (t : Topic) (v : Volume) (name : String) (offset : ℤ) (partition : ℤ) :
    Except PyError Read × Topic × Volume :=
  let (res, t, v) := t.get v name partition
  (res.bind fun log => log.readFrom (v.disk name partition.toNat).dir offset, t, v)

/-- **Which partition a key belongs to.** Nothing is created for it; a record
without a key takes a turn of the partitioner all the same. -/
def route (t : Topic) (v : Volume) (name : String) (key : Option Bytes) :
    Except PyError ℕ × Topic × Volume :=
  match t.existing v name with
  | (.error e, t, v) => (.error e, t, v)
  | (.ok topic, t, v) =>
    let (res, partitioner) := t.partitioner.partitionFor key topic.partitions
    (res, { t with partitioner }, v)

/-! ### Writing -/

/-- Keep what became of a partition's entry. In the source the entry is
changed in place, so here it is put back where it was. -/
def setEntry (t : Topic) (name : String) (topic : OpenTopic) (p : ℕ) (entry : Partition) : Topic :=
  { t with opened := t.opened.insert name { topic with stored := topic.stored.insert p entry } }

/-- Append to a partition, and sync it if it is time. An append that fails
leaves the count as it was; a sync that fails leaves the record in the log,
and counted. -/
def appendTo (t : Topic) (v : Volume) (name : String) (topic : OpenTopic) (partition : ℤ)
    (entry : Partition) (key value : Option Bytes) (timestamp : Option ℤ) (clock : ℤ)
    (elapsed : ℚ) : Except PyError (ℤ × ℤ) × Topic × Volume :=
  let p := partition.toNat
  match entry.log.append (v.disk name p) key value timestamp clock with
  | (.error e, log, disk) =>
    (.error e, t.setEntry name topic p { entry with log }, v.onPart name p disk)
  | (.ok offset, log, disk) =>
    let v := v.onPart name p disk
    let entry : Partition := { log, appends := entry.appends + 1 }
    if t.syncPolicy.shouldSync entry.appends elapsed then
      match entry.log.sync (v.disk name p) with
      | (.error e, log, disk) =>
        (.error e, t.setEntry name topic p { entry with log }, v.onPart name p disk)
      | (.ok (), log, disk) =>
        (.ok (partition, offset), t.setEntry name topic p { log, appends := 0 },
          v.onPart name p disk)
    else (.ok (partition, offset), t.setEntry name topic p entry, v)

/-- **Route a record to a partition and append it.** A topic that does not
exist is created, also for a record that is then refused. Answers with the
partition and the offset. -/
def append (t : Topic) (v : Volume) (name : String) (key value : Option Bytes)
    (timestamp : Option ℤ) (partition : Option ℤ) (clock : ℤ) (elapsed : ℚ) :
    Except PyError (ℤ × ℤ) × Topic × Volume :=
  match validateName name with
  | .error e => (.error e, t, v)
  | .ok () =>
    match t.openCached v name none with
    | (.error e, t, v) => (.error e, t, v)
    | (.ok topic, t, v) =>
      let (routed, partitioner) := t.partitioner.choose key partition topic.partitions
      let t := { t with partitioner }
      match routed with
      | .error e => (.error e, t, v)
      | .ok partition =>
        match checkPartition name topic partition with
        | .error e => (.error e, t, v)
        | .ok entry =>
          t.appendTo v name topic partition entry key value timestamp clock elapsed

/-! ### Closing -/

/-- Close the logs of partitions, also where one of them fails: the errors are
collected. -/
def closeParts (name : String) : List (ℕ × Partition) → Volume → List PyError × Volume
  | [], v => ([], v)
  | (p, entry) :: rest, v =>
    let (res, _, disk) := entry.log.close (v.disk name p)
    let (errors, v) := closeParts name rest (v.onPart name p disk)
    (match res with | .error e => e :: errors | .ok () => errors, v)

/-- Close the logs of topics, one topic after the other. -/
def closeTopics : List (String × OpenTopic) → Volume → List PyError × Volume
  | [], v => ([], v)
  | (name, topic) :: rest, v =>
    let (errors, v) := closeParts name (topic.stored.entries.map fun e => (e.1, e.2)) v
    let (errors', v) := closeTopics rest v
    (errors ++ errors', v)

/-- **Close every log**, and forget them, also those that failed to close;
what went wrong is raised together at the end. -/
def close (t : Topic) (v : Volume) : Except PyError Unit × Topic × Volume :=
  let (errors, v) := closeTopics (t.opened.entries.map fun e => (e.1, e.2)) v
  let t := { t with opened := ∅ }
  match errors with
  | [] => (.ok (), t, v)
  | _ => (.error (.exceptionGroup s!"failed to close {t.path}"), t, v)

end Codec

end Topic

end Pyka
