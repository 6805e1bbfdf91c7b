import Pyka.Storage.Index

/-!
# Segments

One `.log` file and its `.index`, named by the offset of the first record.
`Segment.init` opens one, `append` writes a record at its end, `close` seals
it and `readFrom` reads it from an offset on.

## How the methods are written here

A method that changes the segment answers with its result and with the segment
and the disk as they are afterwards, also where it raises: an exception that
leaves a half-changed object behind is part of what a method does. What a
generator yields is a `Read`: the records, and the exception that ended it
where one did. The generator's body runs to its end here; a read that others'
steps come in between of is in `Pyka.Storage.Interleaving`.

The segment keeps its next offset and its position in memory, and moves them
after the bytes are flushed (`Segment.advance`). Where the file has another
length than the segment expects, something else has written to it, and the
segment raises without moving.

## Opening

`recover` reads the whole file with `readOne`, checks that offsets count up
from the base, feeds the index anew and cuts off what is behind the last whole
record. An exception of `readOne`, or a record out of turn, comes out of the
constructor, and the file is then not cut.

## Reading

A read seeks to where the index points and verifies what it finds there: the
first record has to carry the offset the index promised. `CorruptRecord` is
caught at that one place; other exceptions are not.
-/

namespace Pyka

open Struct (Bytes)

/-- A number as Python's `:020d` writes it. -/
def pad20 (z : ℤ) : String :=
  let digits := toString z.natAbs
  if z < 0 then "-" ++ "".pushn '0' (19 - digits.length) ++ digits
  else "".pushn '0' (20 - digits.length) ++ digits

/-- What reading to the end gave: the records, in order, and how it ended. -/
structure Read where
  records : List Record
  raised : Option PyError
  deriving DecidableEq, Repr

namespace Read

/-- Nothing yielded, nothing raised. -/
def done : Read := ⟨[], none⟩

/-- Yield a record first, if it is asked for. -/
def yieldIf (c : Prop) [Decidable c] (r : Record) (rd : Read) : Read :=
  if c then { rd with records := r :: rd.records } else rd

end Read

/-- A segment as the process holds it: `nextOffset` and `position` are where
the next record goes, and `closed` is whether the handle to write with is
given up. -/
structure Segment where
  baseOffset : ℤ
  maxBytes : ℤ
  index : Index
  nextOffset : ℤ
  position : ℕ
  closed : Bool
  deriving DecidableEq, Repr

namespace Segment

/-- The name of the `.log` file, the base offset on twenty digits. -/
def logName (base : ℤ) : String := pad20 base ++ ".log"

section Codec

variable [Crc32]

/-- The scan of `recover`, from a stream standing at `position`. It ends where
`readOne` finds no record, or raises. -/
def recoverLoop (name : String) (f : Stream) (ix : Index) (nextOffset : ℤ) (position : ℕ) :
    Except PyError (ℤ × ℕ × Index) :=
  match _h : Record.readOne f with
  | (.error e, _) => .error e
  | (.ok none, _) => .ok (nextOffset, position, ix)
  | (.ok (some r), f') =>
    if r.offset ≠ nextOffset then .error (.corruptRecord
      (s!"offset gap at byte {position} in {name}: "
        ++ s!"expected {nextOffset}, got {r.offset}"))
    else
      -- `position` is still where this record starts
      match ix.maybeAppend r.offset position with
      | .error e => .error e
      | .ok ix => recoverLoop name f' ix (r.offset + 1) f'.pos
termination_by f.content.length - f.pos
decreasing_by exact Record.readOne_lt _h

/-- **Scan the log**, feeding the index again from it, and cut a torn tail
off: the next offset, the end of the last good record, and the index. -/
def recover (disk : Disk) (base : ℤ) (ix : Index) :
    Except PyError (ℤ × ℕ × Index) × Disk :=
  let disk := disk.onLog base .touch
  let (ix, disk) := ix.clear disk
  match recoverLoop (logName base) ⟨disk.content base, 0⟩ ix base 0 with
  | .error e => (.error e, disk)
  | .ok (nextOffset, position, ix) =>
    (.ok (nextOffset, position, ix),
      if position < (disk.content base).length then disk.onLog base (.truncate position)
      else disk)

/-- Open a segment, with the limits the index sets to its size checked first.
The index is opened, the log scanned, and the handle to write with opened. -/
def init (disk : Disk) (base : ℤ) (maxBytes : ℤ) : Except PyError Segment × Disk :=
  if ¬(0 < maxBytes ∧ maxBytes ≤ maxU32 + 1) then
    (.error (.valueError (s!"max_bytes must be between 1 and {maxU32 + 1} "
      ++ s!"(the u32 limit of an index position), got {maxBytes}")), disk)
  else
    let (ix, disk) := Index.init disk base 4096
    match recover disk base ix with
    | (.error e, disk) => (.error e, disk)
    | (.ok (nextOffset, position, index), disk) =>
      (.ok { baseOffset := base, maxBytes, index, nextOffset, position, closed := false }, disk)

/-- The bytes of the record to be written next, or the refusal to write it:
the offset is checked first, then the record encodes, then the handle has to
be open. -/
def encodeNext (s : Segment) (r : Record) : Except PyError Bytes := do
  raiseIf (r.offset ≠ s.nextOffset) (.valueError s!"expected offset {s.nextOffset}, got {r.offset}")
  let bs ← r.encode
  raiseIf (s.closed = true) (.valueError "write to closed file")
  return bs

/-- **What `append` does once the bytes are flushed**: the segment moves on
behind the record, and the index is fed. Answers with the position the
record starts at. -/
def advance (s : Segment) (disk : Disk) (r : Record) : Except PyError ℕ × Segment :=
  let position := s.position
  let expectedEnd := position + r.size
  let fileEnd := (disk.content s.baseOffset).length
  if fileEnd ≠ expectedEnd then
    (.error (.runtimeError (s!"{logName s.baseOffset}: expected to end at {expectedEnd}, "
      ++ s!"file is at {fileEnd} — another writer?")), s)
  else
    let s := { s with nextOffset := s.nextOffset + 1, position := fileEnd }
    match s.index.maybeAppend r.offset position with
    | .error e => (.error e, s)
    | .ok index => (.ok position, { s with index })

/-- **Write one record**; answers with the position it starts at. The bytes
are flushed before anything in memory moves. -/
def append (s : Segment) (disk : Disk) (r : Record) : Except PyError ℕ × Segment × Disk :=
  match s.encodeNext r with
  | .error e => (.error e, s, disk)
  | .ok bs =>
    let disk := disk.onLog s.baseOffset (.write bs)
    let (res, s) := s.advance disk r
    (res, s, disk)

/-- Make the log durable, and then the index, in that order. -/
def sync (s : Segment) (disk : Disk) : Except PyError Unit × Segment × Disk :=
  if s.closed then (.error (.valueError "flush of closed file"), s, disk)
  else
    let disk := disk.onLog s.baseOffset .fsync
    let (res, index, disk) := s.index.sync disk
    (res, { s with index }, disk)

/-- **Seal the segment**: sync it and give up the handle to write with. -/
def close (s : Segment) (disk : Disk) : Except PyError Unit × Segment × Disk :=
  if s.closed then (.ok (), s, disk)
  else
    match s.sync disk with
    | (.error e, s, disk) => (.error e, s, disk)
    | (.ok (), s, disk) =>
      let (res, index, disk) := s.index.close disk
      (res, { s with closed := true, index }, disk)

/-- Read records off a stream to its end, yielding those at or past an
offset. -/
def scanFrom (f : Stream) (offset : ℤ) : Read :=
  match _h : Record.readOne f with
  | (.error e, _) => ⟨[], some e⟩
  | (.ok none, _) => Read.done
  | (.ok (some r), f') => Read.yieldIf (offset ≤ r.offset) r (scanFrom f' offset)
termination_by f.content.length - f.pos
decreasing_by exact Record.readOne_lt _h

/-- **The read itself.** The first record after the place the index names
has to carry the offset the index promised; otherwise the scan starts over
at byte 0. `CorruptRecord` from that first read convicts the hint and not
the log, and only there. -/
def iterFrom (s : Segment) (dir : Dir) (offset : ℤ) : Read :=
  let hint := s.index.lookup offset
  match dir.logs.lookup s.baseOffset with
  | none => ⟨[], some .fileNotFound⟩
  | some file =>
    let f : Stream := ⟨file.content, 0⟩
    match Record.readOne (f.seek hint.2) with
    | (.error e, _) => if e.isCorruptRecord then scanFrom (f.seek 0) offset else ⟨[], some e⟩
    | (.ok none, _) => scanFrom (f.seek 0) offset
    | (.ok (some r), f') =>
      if r.offset ≠ hint.1 then scanFrom (f.seek 0) offset
      else Read.yieldIf (offset ≤ r.offset) r (scanFrom f' offset)

/-- Records from an offset on. The bound is checked when it is called, before
anything is read. -/
def readFrom (s : Segment) (dir : Dir) (offset : ℤ) : Except PyError Read :=
  if offset < s.baseOffset then
    .error (.valueError s!"offset {offset} is out of range in this segment")
  else .ok (s.iterFrom dir offset)

end Codec

/-- Whether a record may still go in here. An empty segment takes any, so
that no record can roll forever. -/
def hasRoomFor (s : Segment) (r : Record) : Bool :=
  if s.position = 0 then true else decide (((s.position + r.size : ℕ) : ℤ) ≤ s.maxBytes)

end Segment

end Pyka
