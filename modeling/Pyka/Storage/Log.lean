import Mathlib.Data.List.Sort
import Pyka.Storage.Segment

/-!
# The log

One topic-partition: a chain of segments of which only the last is written to.
`Log.append` stamps the next offset on a record and writes it, rolling to a
new segment where the last one is full; `Log.readFrom` reads across the chain;
`Log.init` opens what a directory holds.

A log always has a last segment, so it is kept as `older` and `active` rather
than as a list.

## Offsets

A caller hands over a key and a value and never an offset. The next offset is
the active segment's, and a new segment is named by it, so that the chain is
continuous by the line that breaks the old segment off. What a directory holds
may be otherwise: opening compares each base with the end of the segment
before it, and raises `CorruptLog` where they differ.

## Reading across the chain

A read begins in the last segment whose base is at or before the offset asked
for and goes through the ones behind it, each from its own base. An offset
behind the end yields nothing, as a consumer that has caught up polls there;
one before the chain starts raises `OffsetOutOfRange`, which is a `ValueError`
of its own class.

## The lock

Every method that changes the log runs in its lock, so here a method is a
function of the state it finds. What other threads see between the steps of a read, and while
an append is writing, is in `Pyka.Storage.Interleaving`; a topic shared by
several threads is in `Pyka.Topic.Sharing`.
-/

namespace Pyka

/-- `xs[start:]`, a negative start counting from the end, as a slice of
Python's does. -/
def sliceFrom {α : Type} (xs : List α) (start : ℤ) : List α :=
  if start < 0 then xs.drop (xs.length + start).toNat else xs.drop start.toNat

/-- A log as the process holds it: the segments that are sealed, and the one
that is written to. -/
structure Log where
  directory : String
  maxSegmentBytes : ℤ
  older : List Segment
  active : Segment
  deriving DecidableEq, Repr

namespace Log

/-- The chain, oldest first. -/
def segments (l : Log) : List Segment := l.older ++ [l.active]

/-- The offset the next record gets, which is the active segment's to say. -/
def nextOffset (l : Log) : ℤ := l.active.nextOffset

/-- The base offset of the chain, before which nothing can be read. -/
def firstBase (l : Log) : ℤ := (l.older.headD l.active).baseOffset

/-- The first place where one segment does not start where the one before
it ends. -/
def chainBreak (directory : String) : List Segment → Option PyError
  | prev :: cur :: segs =>
    if cur.baseOffset ≠ prev.nextOffset then
      some (.corruptLog (s!"segment chain broken in {directory}: "
        ++ s!"{pad20 prev.baseOffset}.log ends at {prev.nextOffset}, "
        ++ s!"next file starts at {cur.baseOffset}"))
    else chainBreak directory (cur :: segs)
  | _ => none

/-- Close segments, one after the other, up to the first that fails: this is
what opening does, where an exception comes out at once. -/
def closeAll : List Segment → Disk → Except PyError Unit × List Segment × Disk
  | [], disk => (.ok (), [], disk)
  | s :: segs, disk =>
    match s.close disk with
    | (.error e, s, disk) => (.error e, s :: segs, disk)
    | (.ok (), s, disk) =>
      let (res, segs, disk) := closeAll segs disk
      (res, s :: segs, disk)

section Codec

variable [Crc32]

/-- Open the segments of a list of base offsets, the oldest first; the last
one apart. -/
def openAll (maxBytes : ℤ) : ℤ → List ℤ → Disk →
    Except PyError (List Segment × Segment) × Disk
  | base, [], disk =>
    match Segment.init disk base maxBytes with
    | (.error e, disk) => (.error e, disk)
    | (.ok s, disk) => (.ok ([], s), disk)
  | base, next :: bases, disk =>
    match Segment.init disk base maxBytes with
    | (.error e, disk) => (.error e, disk)
    | (.ok s, disk) =>
      match openAll maxBytes next bases disk with
      | (.error e, disk) => (.error e, disk)
      | (.ok (older, active), disk) => (.ok (s :: older, active), disk)

/-- The base offsets of a directory's segments in order, the first one apart;
a directory without any gets the base 0. -/
def bases (dir : Dir) : ℤ × List ℤ :=
  match dir.glob.insertionSort (· ≤ ·) with
  | [] => (0, [])
  | base :: bases => (base, bases)

/-- **Open the log of a directory.** The chain has to be continuous; every
segment but the last is sealed. -/
def init (disk : Disk) (directory : String) (maxSegmentBytes : ℤ) :
    Except PyError Log × Disk :=
  let bases := bases disk.dir
  match openAll maxSegmentBytes bases.1 bases.2 disk with
  | (.error e, disk) => (.error e, disk)
  | (.ok (older, active), disk) =>
    match chainBreak directory (older ++ [active]) with
    | some e => (.error e, disk)
    | none =>
      match closeAll older disk with
      | (.error e, _, disk) => (.error e, disk)
      | (.ok (), older, disk) => (.ok { directory, maxSegmentBytes, older, active }, disk)

/-- **Seal the active segment and start a new one.** An empty active segment
is already a new one. -/
def roll (l : Log) (disk : Disk) : Except PyError Unit × Log × Disk :=
  if l.active.position = 0 then (.ok (), l, disk)
  else
    match l.active.close disk with
    | (.error e, active, disk) => (.error e, { l with active }, disk)
    | (.ok (), sealed, disk) =>
      match Segment.init disk sealed.nextOffset l.maxSegmentBytes with
      | (.error e, disk) => (.error e, { l with active := sealed }, disk)
      | (.ok active, disk) => (.ok (), { l with older := l.older ++ [sealed], active }, disk)

/-- **Write a key and a value under the next offset**, and answer with it.
Without a timestamp the record gets the clock's. -/
def append (l : Log) (disk : Disk) (key value : Option Struct.Bytes) (timestamp : Option ℤ)
    (clock : ℤ) : Except PyError ℤ × Log × Disk :=
  let offset := l.nextOffset
  let record : Record := { offset, timestamp := timestamp.getD clock, key, value }
  let rolled := if l.active.hasRoomFor record then (.ok (), l, disk) else l.roll disk
  match rolled with
  | (.error e, l, disk) => (.error e, l, disk)
  | (.ok (), l, disk) =>
    match l.active.append disk record with
    | (.error e, active, disk) => (.error e, { l with active }, disk)
    | (.ok _, active, disk) => (.ok offset, { l with active }, disk)

/-- Make the tail durable; only the tail ever moves, and the others were
synced when they were sealed. -/
def sync (l : Log) (disk : Disk) : Except PyError Unit × Log × Disk :=
  let (res, active, disk) := l.active.sync disk
  (res, { l with active }, disk)

/-- Close segments, one after the other, also where one of them fails: the
errors are collected. -/
def closeEach : List Segment → Disk → List PyError × List Segment × Disk
  | [], disk => ([], [], disk)
  | s :: segs, disk =>
    let (res, s, disk) := s.close disk
    let (errors, segs, disk) := closeEach segs disk
    (match res with | .error e => e :: errors | .ok () => errors, s :: segs, disk)

/-- **Close every segment**, even if one of them fails, and raise what was
collected as one group. -/
def close (l : Log) (disk : Disk) : Except PyError Unit × Log × Disk :=
  let (errors, older, disk) := closeEach l.older disk
  let (res, active, disk) := l.active.close disk
  let l := { l with older, active }
  match errors, res with
  | [], .ok () => (.ok (), l, disk)
  | _, _ => (.error (.exceptionGroup s!"failed to close {l.directory}"), l, disk)

/-- The segments one after the other, each from the offset asked for or its
own base, whichever is later. -/
def readAll (dir : Dir) (offset : ℤ) : List Segment → Read
  | [] => Read.done
  | seg :: segs =>
    match seg.readFrom dir (max offset seg.baseOffset) with
    | .error e => ⟨[], some e⟩
    | .ok ⟨rs, some e⟩ => ⟨rs, some e⟩
    | .ok ⟨rs, none⟩ =>
      let rest := readAll dir offset segs
      ⟨rs ++ rest.records, rest.raised⟩

/-- The segments a read of an offset visits, from the last one whose base is
at or before it. -/
def segmentsFrom (segments : List Segment) (offset : ℤ) : List Segment :=
  let bases := segments.map Segment.baseOffset
  sliceFrom segments ((Bisect.bisectRight bases offset id : ℕ) - 1 : ℤ)

/-- The read of a chain, over the segments as they are when it begins. -/
def iterFrom (l : Log) (dir : Dir) (offset : ℤ) : Read :=
  readAll dir offset (segmentsFrom l.segments offset)

/-- **Records from an offset on**, across segments. Past the end there are
none; before the start is an error. -/
def readFrom (l : Log) (dir : Dir) (offset : ℤ) : Except PyError Read :=
  if offset < l.firstBase then
    .error (.offsetOutOfRange
      s!"offset {offset} is before this log starts ({l.firstBase})")
  else .ok (l.iterFrom dir offset)

end Codec

end Log

end Pyka
