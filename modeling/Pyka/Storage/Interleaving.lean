import Pyka.Base.Machine
import Pyka.Storage.Log

/-!
# Reading while others write

`Log.append`, `Log.roll` and `Log.readFrom` taken apart into steps, so that a
read can go on between the steps of a writer. A lock makes writers take turns:
there is one at most that has begun and not finished (`Writer`). The read
takes the lock for its snapshot of the chain only (`Phase.called`); everything
after goes on beside the writers.

The snapshot holds segments by reference, so here it is a list of places in
the chain: to what a segment is, its index included, the read looks when it
gets there. A writer's bytes reach the file in pieces of any size.

## Where the steps are cut

A step is what no other thread can come in between of, or what makes no
difference if one does. Each access to something shared is a step of its own:
the snapshot, asking a segment's index, taking a record off its file. A
writer's steps are the sealing of a segment, the opening of a new one, the
encoding, each piece of a flush, and the moves that follow it. In the source a
read opens its file once for a segment and keeps it open; files are appended
to and never replaced, so it is the file as it is at each step.

## What is counted beside

The records whose append has returned are kept in `State.appended`, and what
of them was there when the iteration took its first step in `State.before`.
Neither is known to the program. `State.before` is set by the step of the
system that takes the first step of a read, from what was appended by then
(`State.mustYield`), so that it does not depend on what the read does.

A writer alone, with nothing between its steps, does what the functions of
`Log` do (`append_alone`, `roll_alone`): the steps are the methods taken
apart, and not another account of them.
-/

namespace Pyka

open Struct (Bytes)

namespace Interleaving

/-- **What the writer that has the lock is about to do.** -/
inductive Writer
  | idle
  /-- To roll, and then to write a record, if it is an append that rolls. -/
  | rolling (next : Option Record)
  /-- To open the new segment; the active one is sealed. -/
  | opening (next : Option Record)
  | appending (r : Record)
  /-- To flush these bytes, the last of a record's. -/
  | writing (r : Record) (left : Bytes)
  deriving DecidableEq

namespace Writer

/-- After a roll. -/
def resume : Option Record → Writer
  | none => idle
  | some r => appending r

/-- The record being written. -/
def inFlight : Writer → List Record
  | writing r _ => [r]
  | _ => []

end Writer

/-- **How far a read has got**; `todo` are the segments of the snapshot it
has not come to. -/
inductive Phase
  | called
  | between (todo : List ℕ)
  /-- The index was asked; the file is to be read where it pointed. -/
  | hinted (seg : ℕ) (hint : ℤ × ℕ) (todo : List ℕ)
  /-- The file is to be read from byte 0. -/
  | rewound (seg : ℕ) (todo : List ℕ)
  | scanning (seg pos : ℕ) (todo : List ℕ)
  | finished
  | raised (e : PyError)
  deriving DecidableEq

/-- One iteration of `readFrom`: what it was asked for, and what it has
yielded so far. -/
structure Reader where
  offset : ℤ
  phase : Phase
  out : List Record

/-- A log over its directory, a writer and a read. -/
structure State where
  log : Log
  disk : Disk
  writer : Writer
  reader : Option Reader
  /-- The records found when the log was opened, and those whose append has
  returned since. -/
  appended : List Record
  /-- Those there were when the read took its first step. -/
  before : List Record

section Codec

variable [Crc32]

namespace State

/-! ## The writer

The steps of the one that has the lock, in the order of the source: an append
that finds no room rolls first, and a roll seals the tail, opens the next
segment, and gives way to the append it was for. -/

/-- **One step of the writer**, flushing `n + 1` bytes where it flushes. -/
def work (s : State) (n : ℕ) : State :=
  match s.writer with
  | .idle => s
  | .rolling next =>
    if s.log.active.position = 0 then { s with writer := .resume next }
    else
      match s.log.active.close s.disk with
      | (.error _, active, disk) =>
        { s with log := { s.log with active }, disk, writer := .idle }
      | (.ok (), active, disk) =>
        { s with log := { s.log with active }, disk, writer := .opening next }
  | .opening next =>
    match Segment.init s.disk s.log.active.nextOffset s.log.maxSegmentBytes with
    | (.error _, disk) => { s with disk, writer := .idle }
    | (.ok active, disk) =>
      { s with log := { s.log with older := s.log.older ++ [s.log.active], active },
               disk, writer := .resume next }
  | .appending r =>
    match s.log.active.encodeNext r with
    | .error _ => { s with writer := .idle }
    | .ok bs => { s with writer := .writing r bs }
  | .writing r [] =>
    match s.log.active.advance s.disk r with
    | (.error _, active) => { s with log := { s.log with active }, writer := .idle }
    | (.ok _, active) =>
      { s with log := { s.log with active }, writer := .idle, appended := s.appended ++ [r] }
  | .writing r left =>
    { s with disk := s.disk.onLog s.log.active.baseOffset (.write (left.take (n + 1))),
             writer := .writing r (left.drop (n + 1)) }

/-! ## The read

An iteration of the generator, step by step. A segment's index and its file
are looked at when the read gets to the segment, and the file again for each
record. -/

/-- The bytes of a segment's file, as they are at the moment. -/
def content (s : State) (base : ℤ) : Bytes :=
  ((s.disk.dir.logs.lookup base).getD File.empty).content

/-- The base offsets of the chain. -/
def bases (s : State) : List ℤ := s.log.segments.map Segment.baseOffset

/-- The places of the segments that a read of an offset visits. -/
def chain (s : State) (offset : ℤ) : List ℕ :=
  sliceFrom (List.range s.bases.length) ((Bisect.bisectRight s.bases offset id : ℕ) - 1 : ℤ)

/-- Take one record off a segment's file: what `readOne` answers, and where
it leaves the file. -/
def readAt (s : State) (base : ℤ) (pos : ℕ) : Except PyError (Option Record) × ℕ :=
  match s.disk.dir.logs.lookup base with
  | none => (.error .fileNotFound, pos)
  | some file =>
    let (res, f) := Record.readOne ⟨file.content, pos⟩
    (res, f.pos)

end State

namespace Reader

/-- Yield a record, if it is asked for, and go on behind it in the same file. -/
def take (rd : Reader) (base : ℤ) (r : Record) (seg pos : ℕ) (todo : List ℕ) : Reader :=
  { rd with phase := .scanning seg pos todo
            out := if max rd.offset base ≤ r.offset then rd.out ++ [r] else rd.out }

/-- Ask a segment's index where to start. -/
def lookUp (rd : Reader) (segment : Segment) (seg : ℕ) (todo : List ℕ) : Reader :=
  let offset := max rd.offset segment.baseOffset
  { rd with phase :=
      if offset < segment.baseOffset then
        .raised (.valueError s!"offset {offset} is out of range in this segment")
      else .hinted seg (segment.index.lookup offset) todo }

/-- What a read does with the answer of `readOne` at the hint: go on from
there, start over at byte `0`, or raise. -/
def verify (rd : Reader) (base : ℤ) (seg : ℕ) (hint : ℤ × ℕ) (todo : List ℕ)
    (answer : Except PyError (Option Record) × ℕ) : Reader :=
  match answer with
  | (.error e, _) =>
    { rd with phase := if e.isCorruptRecord then .rewound seg todo else .raised e }
  | (.ok none, _) => { rd with phase := .rewound seg todo }
  | (.ok (some r), pos) =>
    if r.offset ≠ hint.1 then { rd with phase := .rewound seg todo }
    else rd.take base r seg pos todo

/-- What a scan does with the answer of `readOne`: yield, come to the end of
the segment, or raise. -/
def scan (rd : Reader) (base : ℤ) (seg : ℕ) (todo : List ℕ)
    (answer : Except PyError (Option Record) × ℕ) : Reader :=
  match answer with
  | (.error e, _) => { rd with phase := .raised e }
  | (.ok none, _) => { rd with phase := .between todo }
  | (.ok (some r), pos) => rd.take base r seg pos todo

/-- **One step of a read.** The snapshot waits for the lock. -/
def step (s : State) (rd : Reader) : Option Reader :=
  match rd.phase with
  | .called =>
    if s.writer = .idle then
      some { rd with phase := .between (s.chain rd.offset) }
    else none
  | .between [] => some { rd with phase := .finished }
  | .between (seg :: todo) => do
    let segment ← s.log.segments[seg]?
    return rd.lookUp segment seg todo
  | .hinted seg hint todo => do
    let base ← s.bases[seg]?
    return rd.verify base seg hint todo (s.readAt base hint.2)
  | .rewound seg todo => do
    let base ← s.bases[seg]?
    return rd.scan base seg todo (s.readAt base 0)
  | .scanning seg pos todo => do
    let base ← s.bases[seg]?
    return rd.scan base seg todo (s.readAt base pos)
  | .finished => none
  | .raised _ => none

end Reader

/-! ## The system

One writer at a time, one read, and no order between their steps but that
which the lock makes. -/

/-- What can happen next: a writer begins an append or a roll, or goes on;
`readFrom` is called, or its iteration goes on. -/
inductive Act
  | append (key value : Option Bytes) (timestamp : Option ℤ) (clock : ℤ)
  | roll
  | work (n : ℕ)
  | readFrom (offset : ℤ)
  | read

namespace State

/-- What a read has to yield at least, from the step it is about to take on:
its first step settles that, whatever the read makes of it. -/
def mustYield (s : State) (rd : Reader) : List Record :=
  match rd.phase with
  | .called => s.appended
  | _ => s.before

/-- Take a step, where it can be taken. -/
def step (s : State) : Act → Option State
  | .append key value timestamp clock =>
    if s.writer = .idle then
      let record : Record :=
        { offset := s.log.nextOffset, timestamp := timestamp.getD clock, key, value }
      some { s with writer :=
        if s.log.active.hasRoomFor record then .appending record else .rolling (some record) }
    else none
  | .roll => if s.writer = .idle then some { s with writer := .rolling none } else none
  | .work n => if s.writer = .idle then none else some (s.work n)
  | .readFrom offset =>
    match s.reader with
    | some _ => none
    | none =>
      let phase : Phase :=
        if offset < s.log.firstBase then .raised (.offsetOutOfRange
          s!"offset {offset} is before this log starts ({s.log.firstBase})")
        else .called
      some { s with reader := some { offset, phase, out := [] } }
  | .read => do
    let rd ← s.reader
    let rd' ← rd.step s
    return { s with reader := some rd', before := s.mustYield rd }

end State

/-- **Reading while others write**, from a log just opened. -/
def system : System State Act where
  start s := ∃ disk directory max, Log.init disk directory max = (.ok s.log, s.disk)
    ∧ s.writer = .idle ∧ s.reader = none ∧ s.before = []
    ∧ s.log.readFrom s.disk.dir s.log.firstBase = .ok ⟨s.appended, none⟩
  step s a s' := s.step a = some s'

/-! ## A writer alone

The steps of a writer, one after the other with nothing between them, are
the operations of `Log`. -/

/-- A step of the writer is a step of the system. -/
theorem work_leads {s : State} (h : s.writer ≠ .idle) (n : ℕ) : system.Leads s (s.work n) :=
  .step (show s.step (.work n) = some (s.work n) by rw [State.step, if_neg h])

/-- **The steps of a roll are `Log.roll`.** -/
theorem roll_alone {s : State} {next : Option Record} (hw : s.writer = .rolling next) :
    system.Leads s (match s.log.roll s.disk with
      | (.ok (), log, disk) => { s with log, disk, writer := .resume next }
      | (.error _, log, disk) => { s with log, disk, writer := .idle }) := by
  have hfirst := work_leads (s := s) (by rw [hw]; exact Writer.noConfusion) 0
  unfold Log.roll
  by_cases hempty : s.log.active.position = 0
  · simpa only [State.work, hw, if_pos hempty] using hfirst
  · simp only [State.work, hw, if_neg hempty] at hfirst ⊢
    cases hclose : s.log.active.close s.disk with
    | mk res rest =>
      obtain ⟨active, disk⟩ := rest
      rw [hclose] at hfirst
      cases res with
      | error e => exact hfirst
      | ok u =>
        refine hfirst.trans ?_
        have hsecond := work_leads
          (s := { s with log := { s.log with active }, disk, writer := .opening next })
          Writer.noConfusion 0
        simp only [State.work] at hsecond ⊢
        cases hinit : Segment.init disk active.nextOffset s.log.maxSegmentBytes with
        | mk res disk' =>
          rw [hinit] at hsecond
          cases res with
          | error e => exact hsecond
          | ok active' => exact hsecond

/-- **The steps of a write are `Segment.append`**, here with all bytes
flushed at once. -/
theorem write_alone {s : State} {r : Record} (hw : s.writer = .appending r) :
    system.Leads s (match s.log.active.append s.disk r with
      | (.ok _, active, disk) =>
        { s with log := { s.log with active }, disk, writer := .idle,
                 appended := s.appended ++ [r] }
      | (.error _, active, disk) =>
        { s with log := { s.log with active }, disk, writer := .idle }) := by
  have hfirst := work_leads (s := s) (by rw [hw]; exact Writer.noConfusion) 0
  simp only [State.work, hw] at hfirst
  unfold Segment.append
  cases hencode : s.log.active.encodeNext r with
  | error e =>
    rw [hencode] at hfirst
    exact hfirst
  | ok bs =>
    rw [hencode] at hfirst
    refine hfirst.trans ?_
    have hflush : system.Leads { s with writer := .writing r bs }
        { s with disk := s.disk.onLog s.log.active.baseOffset (.write bs),
                 writer := .writing r [] } := by
      have hne : bs ≠ [] := by
        unfold Segment.encodeNext at hencode
        simp only [bind_eq_ok, pure_eq_ok] at hencode
        obtain ⟨-, -, bs, he, -, -, rfl⟩ := hencode
        obtain ⟨-, rfl⟩ := (Record.encode_eq_ok_iff _ _).mp he
        have hsize := r.size_eq
        rw [← List.length_pos_iff, Record.length_frame]
        omega
      obtain ⟨b, left, rfl⟩ := List.exists_cons_of_ne_nil hne
      have hwork := work_leads (s := { s with writer := .writing r (b :: left) })
        Writer.noConfusion left.length
      simp only [State.work] at hwork
      rwa [List.take_of_length_le (by simp), List.drop_eq_nil_of_le (by simp)] at hwork
    refine hflush.trans ?_
    have hlast := work_leads (s := { s with
      disk := s.disk.onLog s.log.active.baseOffset (.write bs), writer := .writing r [] })
      Writer.noConfusion 0
    simp only [State.work] at hlast ⊢
    cases hadvance : s.log.active.advance
        (s.disk.onLog s.log.active.baseOffset (.write bs)) r with
    | mk res active =>
      rw [hadvance] at hlast
      cases res with
      | error e => exact hlast
      | ok position => exact hlast

/-- **The steps of an append are `Log.append`.** -/
theorem append_alone {s : State} (hidle : s.writer = .idle) (key value : Option Bytes)
    (timestamp : Option ℤ) (clock : ℤ) :
    system.Leads s (match s.log.append s.disk key value timestamp clock with
      | (.ok offset, log, disk) =>
        { s with log, disk, appended := s.appended ++ [⟨offset, timestamp.getD clock, key, value⟩] }
      | (.error _, log, disk) => { s with log, disk }) := by
  obtain ⟨record, hrecord⟩ : ∃ record : Record,
      record = ⟨s.log.nextOffset, timestamp.getD clock, key, value⟩ := ⟨_, rfl⟩
  -- the write, from a state that has room
  have hwrite : ∀ (log : Log) (disk : Disk),
      system.Leads { s with log, disk, writer := .appending record }
        (match log.active.append disk record with
        | (.ok _, active, disk) =>
          { s with log := { log with active }, disk,
                   appended := s.appended
                    ++ [⟨s.log.nextOffset, timestamp.getD clock, key, value⟩] }
        | (.error _, active, disk) => { s with log := { log with active }, disk }) := by
    intro log disk
    rw [← hrecord]
    have h := write_alone (s := { s with log, disk, writer := .appending record }) rfl
    cases happend : log.active.append disk record with
    | mk res rest =>
      rw [happend] at h
      cases res <;> simpa only [← hidle] using h
  obtain ⟨writer, hwriter⟩ : ∃ writer : Writer, writer
      = if s.log.active.hasRoomFor record then .appending record else .rolling (some record) :=
    ⟨_, rfl⟩
  have hbegin : system.Leads s { s with writer } :=
    .step (e := .append key value timestamp clock) (by
      show s.step _ = _
      rw [State.step, if_pos hidle, hwriter, hrecord])
  refine hbegin.trans ?_
  unfold Log.append
  simp only [← hrecord]
  by_cases hroom : s.log.active.hasRoomFor record
  · rw [if_pos hroom] at hwriter ⊢
    subst hwriter
    have h := hwrite s.log s.disk
    cases happend : s.log.active.append s.disk record with
    | mk res rest =>
      simp only [happend] at h ⊢
      cases res <;> exact h
  · rw [if_neg hroom] at hwriter ⊢
    subst hwriter
    have hroll := roll_alone (s := { s with writer := .rolling (some record) }) rfl
    cases hlog : s.log.roll s.disk with
    | mk res rest =>
      obtain ⟨log, disk⟩ := rest
      simp only [hlog] at hroll
      cases res with
      | error e => simpa only [← hidle] using hroll
      | ok u =>
        refine hroll.trans ?_
        have h := hwrite log disk
        cases happend : log.active.append disk record with
        | mk res rest =>
          simp only [happend] at h ⊢
          cases res <;> exact h

end Codec

end Interleaving

end Pyka
