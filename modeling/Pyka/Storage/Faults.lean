import Pyka.Storage.CrashRecovery
import Pyka.Storage.Opening

/-!
# Writes that fail

`Segment.append` hands a record's bytes to a buffered file handle and
flushes it. Where that raises, some of the bytes have reached the file and
neither the segment's next offset nor its position has moved: the bytes stay
behind the last record, and nobody cuts them off before the directory is
opened again. What becomes of the others depends on the handle. It keeps in
its buffer what it could not write, and writes it before anything else the
next time; only of a record that is too large for the buffer, and so is
written past it, the rest is lost. Which of the two happens is left open
here (`Faults.Fault.write`), and so is the size of the buffer.

What is in the file behind the position is `State.left`, what the handle
still has to write `State.pending`. A process that ends takes the second
with it. Until then every write goes behind the one and the other, and
`append` compares the end of the file with the one it expects only after it
has written: the record of the call that failed ends up in the file, the one
of the next call behind it with the same offset, and that call raises.

Opening cuts a part of a record off, and takes a whole one for one that was
appended; so what failed writes leave does no harm as long as it is no more
than one record, under the next offset, and a part of another
(`Segment.Spared`), and a part of a record only where the segment is sealed
over it. Then every record whose append returned is there whenever the
directory is opened, whatever the run (`Faults.acknowledged_survive`). An
append that fails and is tried again leaves two: the directory does not open
any more, and what it held is out of reach (`Faults.retry_buries`,
`Faults.buried`).
-/

namespace Pyka

open Struct (Bytes)
open Record (framing)

variable [Crc32]

/-- **Write out what a handle has kept.** With nothing to write there is no
call on the file. -/
def Disk.flush (disk : Disk) (base : ℤ) (bs : Bytes) : Disk :=
  if bs.isEmpty then disk else disk.onLog base (.write bs)

omit [Crc32] in
/-- The files are the same as after a write of these bytes. -/
@[simp] theorem Disk.view_flush (disk : Disk) (base : ℤ) (bs : Bytes) :
    (disk.flush base bs).view = (disk.onLog base (.write bs)).view := by
  unfold Disk.flush
  cases bs with
  | nil =>
    have hsame : (Call.write []).onFile (disk.view base) = disk.view base := by
      cases disk.view base with
      | none => rfl
      | some f =>
        rw [Call.write_onFile, List.append_nil]
    rw [List.isEmpty_nil, if_pos rfl, Disk.view_onLog, hsame, Function.update_eq_self]
  | cons b bs => rfl

namespace Segment

/-- **`Segment.append`, where the write may fail**, on a handle that has kept
`pending` from writes before. Of these bytes and the record's `n` reach the
file; of the rest the handle keeps what it had, and the record's as well if
it had taken them into its buffer. Answers with what it has kept, too. -/
def appendOr (s : Segment) (pending : Bytes) (disk : Disk) (r : Record)
    (fault : Option (ℕ × Bool)) : Except PyError ℕ × Segment × Bytes × Disk :=
  match s.encodeNext r with
  | .error e => (.error e, s, pending, disk)
  | .ok bs =>
    match fault with
    | none =>
      let disk := disk.onLog s.baseOffset (.write (pending ++ bs))
      let (res, s) := s.advance disk r
      (res, s, [], disk)
    | some (n, kept) =>
      (.error .osError, s, (if kept then pending ++ bs else pending).drop n,
        disk.onLog s.baseOffset (.write ((pending ++ bs).take n)))

/-- Where nothing fails and nothing is kept it is `Segment.append`. -/
theorem appendOr_none (s : Segment) (disk : Disk) (r : Record) :
    s.appendOr [] disk r none
      = ((s.append disk r).1, (s.append disk r).2.1, [], (s.append disk r).2.2) := by
  unfold appendOr append
  cases s.encodeNext r with
  | error e => rfl
  | ok bs => rfl

/-- **`Segment.sync`, where the flush may fail** after `n` bytes. -/
def syncOr (s : Segment) (pending : Bytes) (disk : Disk) (fault : Option ℕ) :
    Except PyError Unit × Segment × Bytes × Disk :=
  if s.closed then (.error (.valueError "flush of closed file"), s, pending, disk)
  else
    match fault with
    | none =>
      let (res, s, disk) := s.sync (disk.flush s.baseOffset pending)
      (res, s, [], disk)
    | some n =>
      (.error .osError, s, pending.drop n, disk.flush s.baseOffset (pending.take n))

/-- **`Segment.close`, where the flush may fail**: it syncs first, and where
that raises the segment stays open. -/
def closeOr (s : Segment) (pending : Bytes) (disk : Disk) (fault : Option ℕ) :
    Except PyError Unit × Segment × Bytes × Disk :=
  if s.closed then (.ok (), s, pending, disk)
  else
    match fault with
    | none =>
      let (res, s, disk) := s.close (disk.flush s.baseOffset pending)
      (res, s, [], disk)
    | some n =>
      (.error .osError, s, pending.drop n, disk.flush s.baseOffset (pending.take n))

end Segment

namespace Faults

/-- **How a call fails.** -/
inductive Fault
  /-- Flushing what the handle has kept raises, after `n` bytes of it. -/
  | flush (n : ℕ)
  /-- Writing a record raises, after `n` bytes of what the handle had kept
  and the record together; does the handle keep the record's rest? -/
  | write (n : ℕ) (kept : Bool)
  deriving DecidableEq, Repr

namespace Fault

/-- The flush that fails, if one does. -/
def inFlush : Option Fault → Option ℕ
  | some (flush n) => some n
  | _ => none

/-- The write that fails, if one does. -/
def inWrite : Option Fault → Option (ℕ × Bool)
  | some (write n kept) => some (n, kept)
  | _ => none

end Fault

end Faults

namespace Log

/-- **`Log.roll`, where the flush may fail.** The new segment has a handle of
its own, which has kept nothing. -/
def rollOr (l : Log) (pending : Bytes) (disk : Disk) (fault : Option ℕ) :
    Except PyError Unit × Log × Bytes × Disk :=
  if l.active.position = 0 then (.ok (), l, pending, disk)
  else
    match l.active.closeOr pending disk fault with
    | (.error e, active, pending, disk) => (.error e, { l with active }, pending, disk)
    | (.ok (), sealed, pending, disk) =>
      match Segment.init disk sealed.nextOffset l.maxSegmentBytes with
      | (.error e, disk) => (.error e, { l with active := sealed }, pending, disk)
      | (.ok active, disk) => (.ok (), { l with older := l.older ++ [sealed], active }, [], disk)

/-- **`Log.append`, where a write or a flush may fail.** -/
def appendOr (l : Log) (pending : Bytes) (disk : Disk) (key value : Option Bytes)
    (timestamp : Option ℤ) (clock : ℤ) (fault : Option Faults.Fault) :
    Except PyError ℤ × Log × Bytes × Disk :=
  let offset := l.nextOffset
  let record : Record := { offset, timestamp := timestamp.getD clock, key, value }
  let rolled := if l.active.hasRoomFor record then (.ok (), l, pending, disk)
    else l.rollOr pending disk (Faults.Fault.inFlush fault)
  match rolled with
  | (.error e, l, pending, disk) => (.error e, l, pending, disk)
  | (.ok (), l, pending, disk) =>
    match l.active.appendOr pending disk record (Faults.Fault.inWrite fault) with
    | (.error e, active, pending, disk) => (.error e, { l with active }, pending, disk)
    | (.ok _, active, pending, disk) => (.ok offset, { l with active }, pending, disk)

/-- **`Log.sync`, where the flush may fail.** -/
def syncOr (l : Log) (pending : Bytes) (disk : Disk) (fault : Option ℕ) :
    Except PyError Unit × Log × Bytes × Disk :=
  let (res, active, pending, disk) := l.active.syncOr pending disk fault
  (res, { l with active }, pending, disk)

/-- **A roll whose flush does not fail** is `Log.roll`, once what the handle
had kept is in the file. -/
theorem rollOr_none {l : Log} (hpos : l.active.position ≠ 0) (hopen : l.active.closed = false)
    (pending : Bytes) (disk : Disk) :
    l.rollOr pending disk none
      = match l.roll (disk.flush l.active.baseOffset pending) with
        | (res, l, disk) => (res, l, [], disk) := by
  unfold rollOr roll Segment.closeOr
  rw [if_neg hpos, if_neg hpos, if_neg (by rw [hopen]; exact Bool.false_ne_true)]
  cases hclose : l.active.close (disk.flush l.active.baseOffset pending) with
  | mk res rest =>
    obtain ⟨s, disk₁⟩ := rest
    cases res with
    | error e => rfl
    | ok u =>
      simp only
      cases hinit : Segment.init disk₁ s.nextOffset l.maxSegmentBytes with
      | mk res disk₂ => cases res <;> rfl

/-- **Where nothing fails and nothing is kept it is `Log.append`.** -/
theorem appendOr_none {l : Log} (hopen : l.active.closed = false) (disk : Disk)
    (key value : Option Bytes) (timestamp : Option ℤ) (clock : ℤ) :
    l.appendOr [] disk key value timestamp clock none
      = match l.append disk key value timestamp clock with
        | (res, l, disk) => (res, l, [], disk) := by
  unfold appendOr append
  simp only [Faults.Fault.inFlush, Faults.Fault.inWrite]
  split_ifs with hroom
  · simp only [Segment.appendOr_none]
    rcases l.active.append disk ⟨l.nextOffset, timestamp.getD clock, key, value⟩ with ⟨res, rest⟩
    cases res <;> rfl
  · have hpos : l.active.position ≠ 0 := fun h0 => hroom (by
      unfold Segment.hasRoomFor
      rw [if_pos h0])
    rw [rollOr_none hpos hopen, show disk.flush l.active.baseOffset [] = disk from rfl]
    cases l.roll disk with
    | mk res rest =>
      obtain ⟨l', disk'⟩ := rest
      cases res with
      | error e => rfl
      | ok u =>
        simp only [Segment.appendOr_none]
        rcases l'.active.append disk' ⟨l.nextOffset, timestamp.getD clock, key, value⟩
          with ⟨res, rest⟩
        cases res <;> rfl

end Log

namespace Faults

/-- A log that runs, what its handle has kept, and the records of the appends
that returned. -/
structure State where
  log : Log
  dir : Dir
  /-- What the active segment's handle has taken and not written. -/
  pending : Bytes
  acknowledged : List Record

/-- **What happens**: an append, a sync, or the process is gone and the
directory is opened again. -/
inductive Act
  | append (key value : Option Bytes) (timestamp : Option ℤ) (clock : ℤ) (fault : Option Fault)
  | sync (fault : Option ℕ)
  | reopen (maxSegmentBytes : SegmentLimit)

namespace State

/-- The record an append would write. -/
def next (s : State) (key value : Option Bytes) (timestamp : Option ℤ) (clock : ℤ) : Record :=
  ⟨s.log.nextOffset, timestamp.getD clock, key, value⟩

/-- **What failed writes left** in the active segment's file: the bytes
behind the position the segment knows of. -/
def left (s : State) : Bytes := (Disk.content (.of s.dir) s.log.active.baseOffset).drop
  s.log.active.position

end State

/-- The bytes that reach the file when a record is written, what the handle
had kept first. -/
def written (pending : Bytes) (r : Record) (fault : Option (ℕ × Bool)) : Bytes :=
  match r.encode with
  | .error _ => []
  | .ok bs => match fault with
    | none => pending ++ bs
    | some (n, _) => (pending ++ bs).take n

/-- The bytes that reach the file when the handle is flushed. -/
def flushed (pending : Bytes) : Option ℕ → Bytes
  | none => pending
  | some n => pending.take n

/-- A write that does not fail puts all of it into the file. -/
theorem written_none {r : Record} (henc : r.Encodable) (pending : Bytes) :
    written pending r none = pending ++ r.frame := by
  unfold written
  rw [Record.encode_of_encodable henc]

/-- One that fails puts the first bytes of it there. -/
theorem written_some {r : Record} (henc : r.Encodable) (pending : Bytes) (n : ℕ) (kept : Bool) :
    written pending r (some (n, kept)) = (pending ++ r.frame).take n := by
  unfold written
  rw [Record.encode_of_encodable henc]

/-- Take a step, where it can be taken. -/
def exec (s : State) : Act → Option State
  | .append key value timestamp clock fault =>
    match s.log.appendOr s.pending (.of s.dir) key value timestamp clock fault with
    | (.error _, log, pending, disk) => some { s with log, pending, dir := disk.dir }
    | (.ok offset, log, pending, disk) =>
      some { log, pending, dir := disk.dir, acknowledged :=
        s.acknowledged ++ [⟨offset, timestamp.getD clock, key, value⟩] }
  | .sync fault =>
    let (_, log, pending, disk) := s.log.syncOr s.pending (.of s.dir) fault
    some { s with log, pending, dir := disk.dir }
  | .reopen max =>
    match Log.init (.of s.dir) s.log.directory max with
    | (.error _, _) => none
    | (.ok log, disk) => some { s with log, pending := [], dir := disk.dir }

/-- **Appends and syncs some of which fail**, from a log that any earlier
life left running. -/
def system : System State Act where
  start s := s.pending = [] ∧ ∃ directory synced,
    (Recovery.system directory).Reachable ⟨some s.log, s.dir, s.acknowledged, synced⟩
  step s act s' := exec s act = some s'

end Faults

/-- **Bytes that may be left behind a segment's records**: a part of a record,
or one whole record under the next offset, which the segment had room for,
and a part of another. -/
def Segment.Spared (s : Segment) (bs : Bytes) : Prop :=
  Record.Torn bs ∨ ∃ r t, bs = Record.frame r ++ t ∧ Record.Torn t ∧ r.Encodable
    ∧ r.offset = s.nextOffset ∧ s.hasRoomFor r = true

/-- **A part of a frame, or all of it**, may be left, where the record is
the next one and the segment has room for it. -/
theorem Segment.spared_take {s : Segment} {r : Record} (henc : r.Encodable)
    (hoff : r.offset = s.nextOffset) (hroom : s.hasRoomFor r = true) (n : ℕ) :
    s.Spared (r.frame.take n) := by
  have hone : ∀ r' ∈ [r], framing.Valid r' := fun r' hr' => by
    rw [List.mem_singleton.mp hr']
    exact henc
  obtain ⟨t, ht, htorn⟩ := framing.take_encAll hone n
  have hframe : framing.encAll [r] = r.frame := by simp [Record.enc_framing]
  rw [hframe] at ht
  have htorn := (Record.read_eq_none_iff t).mp htorn
  rcases Nat.eq_zero_or_pos (framing.whole [r] n) with hzero | hpos
  · rw [hzero, List.take_zero, framing.encAll_nil, List.nil_append] at ht
    exact Or.inl (ht ▸ htorn)
  · have hall : [r].take (framing.whole [r] n) = [r] :=
      List.take_of_length_le (by rw [List.length_singleton]; exact hpos)
    rw [hall, hframe] at ht
    exact Or.inr ⟨r, t, ht, htorn, henc, hoff, hroom⟩

/-- **Where nothing had been left or kept**, whatever becomes of one write
may be left. -/
theorem Faults.spared_written {s : Segment} {r : Record} (hoff : r.offset = s.nextOffset)
    (hroom : s.hasRoomFor r = true) (fault : Option (ℕ × Bool)) :
    s.Spared (Faults.written [] r fault) := by
  by_cases henc : r.Encodable
  · cases fault with
    | none =>
      rw [written_none henc, List.nil_append, ← List.take_length (l := r.frame)]
      exact Segment.spared_take henc hoff hroom _
    | some fault =>
      rw [written_some henc, List.nil_append]
      exact Segment.spared_take henc hoff hroom _
  · have hnil : Faults.written [] r fault = [] := by
      unfold Faults.written
      cases he : r.encode with
      | error e => rfl
      | ok bs => exact absurd ((Record.encode_eq_ok_iff r bs).mp he).1 henc
    rw [hnil]
    exact Or.inl Record.torn_nil

namespace Faults

/-- **What failed writes left is no more than a record and a part of one**,
also with what this step adds to it; and where an append seals the segment,
no more than a part of one. -/
def Kept (s : State) : Act → Prop
  | .reopen _ => True
  | .sync fault => s.log.active.Spared (s.left ++ flushed s.pending fault)
  | .append key value timestamp clock fault =>
    let r := s.next key value timestamp clock
    if s.log.active.hasRoomFor r then
      s.log.active.Spared (s.left ++ written s.pending r (Fault.inWrite fault))
    else
      match Fault.inFlush fault with
      | some n => s.log.active.Spared (s.left ++ s.pending.take n)
      | none => Record.Torn (s.left ++ s.pending)

end Faults

/-! ## Opening files with torn bytes behind the records

A file that was sealed over a failed write ends in a part of a record. Opening
it again cuts that part off, so in memory nothing of it is left. -/

/-- **Opening a file of records and torn bytes**: the segment holds the
records, and its file has nothing else any more. -/
theorem Segment.init_of_rest {disk : Disk} {base maxBytes : ℤ} {rs : List Record} {t : Bytes}
    (hmax : 0 < maxBytes ∧ maxBytes ≤ maxU32 + 1)
    (hcontent : disk.content base = framing.encAll rs ++ t) (hvalid : ∀ r ∈ rs, r.Encodable)
    (hcons : Consecutive base rs) (htorn : Record.Torn t)
    (hsmall : (framing.encAll rs).length ≤ maxU32 + 1) :
    ∃ s disk', init disk base maxBytes = (.ok s, disk') ∧ s.Holds rs ∧ s.baseOffset = base
      ∧ s.closed = false ∧ (∃ f, disk'.view base = some f ∧ f.content = framing.encAll rs)
      ∧ ∀ b, b ≠ base → disk'.view b = disk.view b := by
  obtain ⟨f', ix', hrest, hs, hb, hc, hloop⟩ := recoverLoop_file (logName base) (freshIndex base)
    hcontent hvalid rfl rfl hsmall hcons
  have htorn' : Record.Torn f'.rest := by rwa [hrest]
  have hfst : (init disk base maxBytes).1 = _ := init_fst hmax
  rw [show (freshIndex base).baseOffset = base from rfl, recoverLoop_torn htorn'] at hloop
  rw [hloop] at hfst
  cases hinit : init disk base maxBytes with
  | mk res disk' =>
  rw [hinit] at hfst
  cases hfst
  obtain ⟨f, hf, hcut⟩ := init_content hinit
  obtain ⟨-, -, -, -, -, -, hothers⟩ := init_eq_ok hinit
  refine ⟨_, disk', rfl, ⟨hvalid, hcons, rfl, rfl, hs, hb, hc, hmax⟩, rfl, rfl, ⟨f, hf, ?_⟩,
    hothers⟩
  rw [hcut, hcontent, List.take_left]

/-- **The files of chunks that were sealed over a failed write**: each
holds its records, and torn bytes behind them. -/
def Littered (v : ℤ → Option File) : ℤ → List (List Record) → Prop
  | _, [] => True
  | base, rs :: rss =>
    (rs ≠ [] ∧ ∃ f t, v base = some f ∧ f.content = framing.encAll rs ++ t ∧ Record.Torn t)
    ∧ Littered v (base + rs.length) rss

namespace Littered

variable {v v' : ℤ → Option File} {base : ℤ} {rss : List (List Record)} {rs : List Record}

/-- Chunks with files are not empty. -/
theorem nonempty (h : Littered v base rss) : ∀ rs ∈ rss, rs ≠ [] := by
  induction rss generalizing base with
  | nil => simp
  | cons c rss ih => exact List.forall_mem_cons.mpr ⟨h.1.1, ih h.2⟩

/-- Only the bytes in the files below the tail matter. -/
theorem congr (h : Littered v base rss)
    (hv : ∀ b, base ≤ b → b < base + rss.flatten.length →
      (v' b).map File.content = (v b).map File.content) :
    Littered v' base rss := by
  induction rss generalizing base with
  | nil => trivial
  | cons c rss ih =>
    obtain ⟨⟨hne, f, t, hf, hcontent, ht⟩, h⟩ := h
    have hc := List.length_pos_iff.mpr hne
    rw [List.flatten_cons, List.length_append] at hv
    push_cast at hv
    refine ⟨⟨hne, ?_⟩, ih h fun b hb hb' => hv b (by omega) (by omega)⟩
    have hbase := hv base le_rfl (by omega)
    rw [hf, Option.map_some] at hbase
    obtain ⟨f', hf', hcontent'⟩ := Option.map_eq_some_iff.mp hbase
    exact ⟨f', t, hf', hcontent'.trans hcontent, ht⟩

/-- One more file, sealed over what a failed write left. -/
theorem append {f : File} {t : Bytes} (h : Littered v base rss) (hne : rs ≠ [])
    (hf : v (base + rss.flatten.length) = some f) (hcontent : f.content = framing.encAll rs ++ t)
    (ht : Record.Torn t) : Littered v base (rss ++ [rs]) := by
  induction rss generalizing base with
  | nil => exact ⟨⟨hne, f, t, by simpa using hf, hcontent, ht⟩, trivial⟩
  | cons c rss ih =>
    rw [List.flatten_cons, List.length_append, Nat.cast_add, ← add_assoc] at hf
    exact ⟨h.1, ih h.2 hf⟩

/-- Files that hold nothing else are such files. -/
theorem of_filed (h : Filed v base rss) : Littered v base rss := by
  induction rss generalizing base with
  | nil => trivial
  | cons c rss ih =>
    obtain ⟨⟨hne, f, hf, hcontent⟩, h⟩ := h
    exact ⟨⟨hne, f, [], hf, by rw [hcontent, List.append_nil], Record.torn_nil⟩, ih h⟩

/-- The names of the sealed chunks are names of files. -/
theorem isSome_of_mem (h : Littered v base rss) (htail : (v (base + rss.flatten.length)).isSome)
    {b : ℤ} (hb : b ∈ chainBases base rss) : (v b).isSome := by
  induction rss generalizing base with
  | nil =>
    rw [chainBases, List.mem_singleton] at hb
    rw [hb]
    simpa using htail
  | cons c rss ih =>
    rw [chainBases, List.mem_cons] at hb
    rcases hb with rfl | hb
    · obtain ⟨⟨-, f, t, hf, -⟩, -⟩ := h
      rw [hf]
      rfl
    · refine ih h.2 ?_ hb
      rwa [List.flatten_cons, List.length_append, Nat.cast_add, ← add_assoc] at htail

end Littered

namespace Log

/-- **Opening the sealed files** cuts each of them off where its records
end, and leaves the opening of the last one. -/
theorem openAll_littered {maxBytes : ℤ} (hmax : 0 < maxBytes ∧ maxBytes ≤ maxU32 + 1)
    {disk : Disk} {base : ℤ} {bases : List ℤ} {rss : List (List Record)}
    (hbases : chainBases base rss = base :: bases) (hlittered : Littered disk.view base rss)
    (hvalid : ∀ r ∈ rss.flatten, r.Encodable) (hcons : Consecutive base rss.flatten)
    (hsmall : ∀ rs ∈ rss, (framing.encAll rs).length ≤ maxU32 + 1) :
    ∃ older disk₁, OlderHold false base older rss ∧ Filed disk₁.view base rss
      ∧ (∀ b, b < base ∨ base + rss.flatten.length ≤ b → disk₁.view b = disk.view b)
      ∧ (∀ b, b ∉ chainBases base rss → disk₁.view b = disk.view b)
      ∧ openAll maxBytes base bases disk
        = match Segment.init disk₁ (base + rss.flatten.length) maxBytes with
          | (.error e, disk) => (.error e, disk)
          | (.ok s, disk) => (.ok (older, s), disk) := by
  induction rss generalizing base bases disk with
  | nil =>
    cases hbases
    refine ⟨[], disk, trivial, trivial, fun _ _ => rfl, fun _ _ => rfl, ?_⟩
    rw [List.flatten_nil, List.length_nil, Nat.cast_zero, add_zero]
    cases hinit : Segment.init disk base maxBytes with
    | mk res disk₁ => cases res <;> rw [openAll, hinit]
  | cons c rss ih =>
    obtain ⟨⟨hne, f, t, hf, hcontent, ht⟩, hlittered⟩ := hlittered
    have hpos := List.length_pos_iff.mpr hne
    rw [List.flatten_cons] at hvalid hcons
    obtain ⟨hccons, hcons⟩ := Consecutive.append_iff.mp hcons
    obtain ⟨s, disk₁, hinit, hs, hb, hc, ⟨f₁, hf₁, hcontent₁⟩, hother⟩ := Segment.init_of_rest
      hmax (show disk.content base = framing.encAll c ++ t by
        rw [Disk.content_eq, hf, Option.getD_some, hcontent])
      (fun r hr => hvalid r (List.mem_append_left _ hr)) hccons ht (hsmall c List.mem_cons_self)
    rw [chainBases] at hbases
    obtain ⟨next, hnext⟩ := chainBases_eq_cons (base + c.length) rss
    rw [hnext] at hbases
    cases hbases
    obtain ⟨older, disk₂, hold, hfiled, hout, hnames, hopen⟩ := ih hnext
      (show Littered disk₁.view _ rss from hlittered.congr fun b hb _ => by
        rw [hother b (by omega)])
      (fun r hr => hvalid r (List.mem_append_right _ hr)) hcons
      (fun rs hrs => hsmall rs (List.mem_cons_of_mem _ hrs))
    rw [List.flatten_cons, List.length_append, Nat.cast_add, ← add_assoc]
    refine ⟨s :: older, disk₂, ⟨⟨hs, hb, hc⟩, hold⟩, ⟨⟨hne, f₁, ?_, hcontent₁⟩, hfiled⟩, ?_, ?_, ?_⟩
    · rw [hout base (Or.inl (by omega)), hf₁]
    · intro b hb'
      rw [hout b (by omega), hother b (by omega)]
    · intro b hb'
      rw [chainBases, List.mem_cons, not_or] at hb'
      rw [hnames b hb'.2, hother b hb'.1]
    · rw [openAll, hinit]
      simp only [hopen]
      cases Segment.init disk₂ (base + c.length + rss.flatten.length) maxBytes with
      | mk res disk₃ => cases res <;> rfl

/-- **A log some of whose writes failed**: the records in its older segments
and in the active one, and the bytes `j` behind them. -/
structure Left (l : Log) (v : ℤ → Option File) (rss : List (List Record)) (rs : List Record)
    (j : Bytes) : Prop where
  older : OlderHold true 0 l.older rss
  littered : Littered v 0 rss
  active : l.active.Holds rs
  active_base : l.active.baseOffset = rss.flatten.length
  active_open : l.active.closed = false
  tail : ∃ f, v rss.flatten.length = some f ∧ f.content = framing.encAll rs ++ j
  names : ∀ b, (v b).isSome → b ∈ chainBases 0 rss
  small : ∀ c ∈ rss ++ [rs], (framing.encAll c).length ≤ maxU32 + 1
  limit : 0 < l.maxSegmentBytes ∧ l.maxSegmentBytes ≤ maxU32 + 1

namespace Left

variable {l : Log} {disk : Disk} {rss : List (List Record)} {rs : List Record} {j : Bytes}

/-- A log that stands for its directory has nothing left behind. -/
theorem of_holds {d : Option ℕ} (h : l.Holds disk.view rss rs d) : l.Left disk.view rss rs [] where
  older := h.older
  littered := .of_filed h.stored.sealed.filed
  active := h.active
  active_base := h.active_base
  active_open := h.active_open
  tail := ⟨_, h.tail, (List.append_nil _).symm⟩
  names := h.stored.names
  small c hc := by
    rcases List.mem_append.mp hc with hc | hc
    · exact h.stored.sealed.small c hc
    · rw [List.mem_singleton.mp hc]
      simpa using h.stored.small
  limit := h.limit

/-- The records of the log can be read and count up. -/
theorem records (h : l.Left disk.view rss rs j) :
    (∀ r ∈ rss.flatten ++ rs, r.Encodable) ∧ Consecutive 0 (rss.flatten ++ rs) := by
  obtain ⟨hvalid, hcons⟩ := h.older.records
  refine ⟨fun r hr => ?_, Consecutive.append_iff.mpr ⟨hcons, ?_⟩⟩
  · rcases List.mem_append.mp hr with hr | hr
    · exact hvalid r hr
    · exact h.active.valid r hr
  · rw [zero_add, ← h.active_base]
    exact h.active.consecutive

/-- The next offset counts the records. -/
theorem nextOffset_eq (h : l.Left disk.view rss rs j) :
    l.nextOffset = ((rss.flatten ++ rs).length : ℕ) := by
  rw [nextOffset, h.active.next, h.active_base, List.length_append]
  push_cast
  ring

/-- The file of the tail: its records, and what is behind them. -/
theorem content_eq (h : l.Left disk.view rss rs j) :
    disk.content l.active.baseOffset = framing.encAll rs ++ j := by
  obtain ⟨f, hf, hcontent⟩ := h.tail
  rw [Disk.content_eq, h.active_base, hf, Option.getD_some, hcontent]

/-- **Bytes written behind the records** change nothing that the log holds. -/
theorem write (h : l.Left disk.view rss rs j) (bs : Bytes) :
    l.Left (disk.onLog l.active.baseOffset (.write bs)).view rss rs (j ++ bs) := by
  obtain ⟨f, hf, hcontent⟩ := h.tail
  have hv : (disk.onLog l.active.baseOffset (.write bs)).view
      = Function.update disk.view rss.flatten.length (some ⟨f.content ++ bs, f.durable⟩) := by
    rw [Disk.view_onLog, h.active_base, hf, Call.write_onFile]
  rw [hv]
  refine ⟨h.older, h.littered.congr fun b _ hb => ?_, h.active, h.active_base, h.active_open,
    ⟨_, Function.update_self _ _ _, by rw [hcontent, List.append_assoc]⟩, fun b hb => ?_,
    h.small, h.limit⟩
  · rw [Function.update_of_ne (by omega)]
  · by_cases hbt : b = rss.flatten.length
    · rw [hbt]
      exact h.names _ (by rw [hf]; rfl)
    · rw [Function.update_of_ne hbt] at hb
      exact h.names b hb

/-- So do bytes that the handle had kept. -/
theorem flush (h : l.Left disk.view rss rs j) (bs : Bytes) :
    l.Left (disk.flush l.active.baseOffset bs).view rss rs (j ++ bs) := by
  rw [Disk.view_flush]
  exact h.write bs

/-- **Syncing** changes no byte. -/
theorem sync (h : l.Left disk.view rss rs j) :
    ∃ l' disk', l.sync disk = (.ok (), l', disk') ∧ l'.Left disk'.view rss rs j
      ∧ l'.nextOffset = l.nextOffset := by
  obtain ⟨s', disk', hsync, hs', hb, -, hc, hv, -⟩ := h.active.sync h.active_open disk
  have hcontent : ∀ b, (disk'.view b).map File.content = (disk.view b).map File.content :=
    fun b => by rw [hv]; exact Disk.content_fsync disk _ b
  obtain ⟨f, hf, htail⟩ := h.tail
  have hfile := hcontent rss.flatten.length
  rw [hf, Option.map_some] at hfile
  obtain ⟨f', hf', htail'⟩ := Option.map_eq_some_iff.mp hfile
  refine ⟨{ l with active := s' }, disk', ?_, ⟨h.older, h.littered.congr fun b _ _ => hcontent b,
    hs', hb.trans h.active_base, hc, ⟨f', hf', htail'.trans htail⟩, fun b hsome => ?_, h.small,
    h.limit⟩, ?_⟩
  · unfold Log.sync
    rw [hsync]
  · rw [← Option.isSome_map (f := File.content), hcontent, Option.isSome_map] at hsome
    exact h.names b hsome
  · rw [Log.nextOffset, Log.nextOffset, hs'.next, h.active.next, hb]

/-- **Rolling away from torn bytes**: they stay at the end of a sealed file. -/
theorem roll (h : l.Left disk.view rss rs j) (hne : rs ≠ []) (hj : Record.Torn j) :
    ∃ l' disk', l.roll disk = (.ok (), l', disk') ∧ l'.Left disk'.view (rss ++ [rs]) [] [] := by
  obtain ⟨s', disk₁, hclose, hs', hb, -, hc, hv, -⟩ := h.active.close h.active_open disk
  have hcontent : ∀ b, (disk₁.view b).map File.content = (disk.view b).map File.content :=
    fun b => by rw [hv]; exact Disk.content_fsync disk _ b
  have hsome : ∀ b, (disk₁.view b).isSome → b ∈ chainBases 0 rss := fun b hb => by
    rw [← Option.isSome_map (f := File.content), hcontent, Option.isSome_map] at hb
    exact h.names b hb
  -- no file has the new name yet
  have hpos := List.length_pos_iff.mpr hne
  have hflat : (rss ++ [rs]).flatten.length = rss.flatten.length + rs.length := by simp
  have hnext : s'.nextOffset = ((rss ++ [rs]).flatten.length : ℕ) := by
    rw [hs'.next, hb, h.active_base, hflat]
    push_cast
    ring
  have hfresh : disk₁.content s'.nextOffset = [] := by
    cases hf : disk₁.view s'.nextOffset with
    | none => rw [Disk.content_eq, hf]; rfl
    | some f =>
      have := (mem_chainBases (hsome s'.nextOffset (by rw [hf]; rfl))).2
      rw [hnext, hflat] at this
      push_cast at this
      omega
  obtain ⟨s, disk', hinit, hs, hsb, hsc, ⟨f, hf, hempty⟩, hother⟩ := Segment.init_of_rest
    h.limit (show disk₁.content s'.nextOffset = framing.encAll [] ++ [] from hfresh)
      (by simp) trivial
    Record.torn_nil (Nat.zero_le _)
  have hkept : ∀ b : ℤ, b < ((rss ++ [rs]).flatten.length : ℕ) → disk'.view b = disk₁.view b :=
    fun b hb => hother b (by omega)
  obtain ⟨ft, hft, htail⟩ := h.tail
  have hsealed := hcontent rss.flatten.length
  rw [hft, Option.map_some] at hsealed
  obtain ⟨ft', hft', htail'⟩ := Option.map_eq_some_iff.mp hsealed
  refine ⟨{ l with older := l.older ++ [s'], active := s }, disk', ?_,
    ⟨h.older.append hs' (by rw [hb, h.active_base, zero_add]) hc, ?_, hs, by rw [hsb, hnext], hsc,
      ⟨f, by rw [← hnext]; exact hf, by rw [hempty]; rfl⟩, ?_, ?_, h.limit⟩⟩
  · unfold Log.roll
    rw [if_neg (fun h0 => hne (h.active.position_eq_zero_iff.mp h0)), hclose]
    simp only [hinit]
  · refine Littered.append (f := ft') (h.littered.congr fun b _ hb => ?_) hne ?_
      (htail'.trans htail) hj
    · rw [hkept b (by rw [hflat]; push_cast; omega), hcontent]
    · rw [zero_add, hkept _ (by rw [hflat]; push_cast; omega), hft']
  · intro b hb
    rw [chainBases_append, List.mem_append, List.mem_singleton, zero_add, ← hflat]
    by_cases hbn : b = s'.nextOffset
    · exact Or.inr (by rw [hbn, hnext])
    · rw [hother b hbn] at hb
      exact Or.inl (hsome b hb)
  · intro c hc'
    rcases List.mem_append.mp hc' with hc' | hc'
    · exact h.small c hc'
    · rw [List.mem_singleton.mp hc']
      exact Nat.zero_le _

/-- **Appending where nothing was left**: one more record. -/
theorem append (h : l.Left disk.view rss rs []) {r : Record} (henc : r.Encodable)
    (hoff : r.offset = l.nextOffset) (hroom : l.active.hasRoomFor r = true) :
    ∃ active disk', l.active.append disk r = (.ok l.active.position, active, disk')
      ∧ Log.Left { l with active } disk'.view rss (rs ++ [r]) [] := by
  obtain ⟨f, hf, hcontent⟩ := h.tail
  rw [List.append_nil] at hcontent
  obtain ⟨s', happ, hs', hb, -, hc⟩ := h.active.append h.active_open
    (by rw [h.active_base]; exact hf) hcontent henc hoff hroom
  refine ⟨s', _, happ, h.older, (h.write r.frame).littered, hs', hb.trans h.active_base, hc, ?_,
    (h.write r.frame).names, ?_, h.limit⟩
  · obtain ⟨f', hf', hcontent'⟩ := (h.write r.frame).tail
    refine ⟨f', hf', ?_⟩
    rw [hcontent', framing.encAll_append, framing.encAll_cons, framing.encAll_nil,
      Record.enc_framing, List.append_nil, List.append_nil, List.nil_append]
  · intro c hc'
    rcases List.mem_append.mp hc' with hc' | hc'
    · exact h.small c (List.mem_append_left _ hc')
    · rw [List.mem_singleton.mp hc']
      have := h.active.small_append henc hroom
      simpa [Record.enc_framing] using this

/-- **Appending behind bytes that were left**, in the file or in the handle,
writes there and raises: the file does not end where it was to. -/
theorem append_behind (h : l.Left disk.view rss rs j) {pending : Bytes} (hj : j ++ pending ≠ [])
    {r : Record} (henc : r.Encodable) (hoff : r.offset = l.nextOffset) :
    ∃ msg, l.active.appendOr pending disk r none = (.error (.runtimeError msg), l.active, [],
      disk.onLog l.active.baseOffset (.write (pending ++ r.frame))) := by
  have hpos := List.length_pos_iff.mpr hj
  rw [List.length_append] at hpos
  have hend : ((disk.onLog l.active.baseOffset (.write (pending ++ r.frame))).content
      l.active.baseOffset).length ≠ l.active.position + r.size := by
    rw [(h.write (pending ++ r.frame)).content_eq, h.active.position]
    simp only [List.length_append, Record.length_frame]
    omega
  unfold Segment.appendOr
  rw [Segment.encodeNext_of_encodable hoff henc h.active_open]
  unfold Segment.advance
  simp only
  rw [if_pos hend]
  exact ⟨_, rfl⟩

/-- The base offsets of the directory are those of the chain. -/
theorem bases_eq (h : l.Left disk.view rss rs j) :
    ∃ bases, chainBases 0 rss = 0 :: bases ∧ Log.bases disk.dir = (0, bases) := by
  obtain ⟨bases, hbases⟩ := chainBases_eq_cons 0 rss
  refine ⟨bases, hbases, ?_⟩
  obtain ⟨f, hf, -⟩ := h.tail
  have hsort : disk.dir.glob.insertionSort (· ≤ ·) = chainBases 0 rss :=
    sort_glob_of_names (chainBases_pairwise h.littered.nonempty)
      fun b => ⟨h.names b, h.littered.isSome_of_mem (by rw [zero_add, hf]; rfl)⟩
  unfold Log.bases
  rw [hsort, hbases]

/-- **Opening the directory** comes down to opening the last of its files. -/
theorem init_eq (h : l.Left disk.view rss rs j) (directory : String) {maxBytes : ℤ}
    (hmax : 0 < maxBytes ∧ maxBytes ≤ maxU32 + 1) :
    ∃ older disk₁, OlderHold false 0 older rss ∧ Filed disk₁.view 0 rss
      ∧ (∀ b, (disk₁.view b).isSome → b ∈ chainBases 0 rss)
      ∧ disk₁.content rss.flatten.length = framing.encAll rs ++ j
      ∧ Log.init disk directory maxBytes
        = match Segment.init disk₁ rss.flatten.length maxBytes with
          | (.error e, disk) => (.error e, disk)
          | (.ok active, disk) =>
            match chainBreak directory (older ++ [active]) with
            | some e => (.error e, disk)
            | none =>
              match closeAll older disk with
              | (.error e, _, disk) => (.error e, disk)
              | (.ok (), older, disk) =>
                (.ok ⟨directory, maxBytes, older, active⟩, disk) := by
  obtain ⟨bases, hbases, hfirst⟩ := h.bases_eq
  obtain ⟨hvalid, hcons⟩ := h.records
  obtain ⟨older, disk₁, hold, hfiled, hout, hnames, hopen⟩ := openAll_littered hmax
    hbases h.littered (fun r hr => hvalid r (List.mem_append_left _ hr))
    (Consecutive.append_iff.mp hcons).1 (fun c hc => h.small c (List.mem_append_left _ hc))
  rw [zero_add] at hout hopen
  refine ⟨older, disk₁, hold, hfiled, fun b hb => ?_, ?_, ?_⟩
  · by_contra hnot
    rw [hnames b hnot] at hb
    exact hnot (h.names b hb)
  · obtain ⟨f, hf, hcontent⟩ := h.tail
    rw [Disk.content_eq, hout _ (Or.inr le_rfl), hf, Option.getD_some, hcontent]
  · unfold Log.init
    simp only [hfirst, hopen]
    cases Segment.init disk₁ rss.flatten.length maxBytes with
    | mk res disk₂ =>
      cases res with
      | error e => rfl
      | ok active =>
        cases hclose : closeAll older disk₂ with
        | mk res rest =>
          obtain ⟨segs, disk₃⟩ := rest
          cases hbreak : chainBreak directory (older ++ [active]) <;> cases res <;>
            simp only [hbreak, hclose]

/-- **Where the scan stops at an exception**, behind some more whole records,
the directory does not open. -/
theorem init_raises {more : List Record} {t : Bytes}
    (h : l.Left disk.view rss rs (framing.encAll more ++ t)) (hvalid : ∀ r ∈ more, r.Encodable)
    (hcons : Consecutive l.nextOffset more)
    (hsmall : (framing.encAll (rs ++ more)).length ≤ maxU32 + 1)
    (hstop : ∀ (name : String) (f : Stream) (ix : Index) (position : ℕ), f.rest = t → ∃ msg,
      Segment.recoverLoop name f ix (l.nextOffset + more.length) position
        = .error (.corruptRecord msg))
    (directory : String) {maxBytes : ℤ} (hmax : 0 < maxBytes ∧ maxBytes ≤ maxU32 + 1) :
    ∃ msg disk', Log.init disk directory maxBytes = (.error (.corruptRecord msg), disk') := by
  obtain ⟨older, disk₁, -, -, -, hcontent, hinit⟩ := h.init_eq directory hmax
  have hnext : l.nextOffset = (rss.flatten.length : ℤ) + rs.length := by
    rw [Log.nextOffset, h.active.next, h.active_base]
  have hrs := h.active.consecutive
  rw [h.active_base] at hrs
  have hfile : disk₁.content rss.flatten.length = framing.encAll (rs ++ more) ++ t := by
    rw [hcontent, framing.encAll_append, List.append_assoc]
  obtain ⟨f', ix', hrest, -, -, -, hloop⟩ := Segment.recoverLoop_file
    (Segment.logName rss.flatten.length) (Segment.freshIndex rss.flatten.length) hfile
    (fun q hq => (List.mem_append.mp hq).elim (h.active.valid q) (hvalid q)) rfl rfl hsmall
    (Consecutive.append_iff.mpr ⟨hrs, hnext ▸ hcons⟩)
  obtain ⟨msg, hmsg⟩ := hstop (Segment.logName rss.flatten.length) f' ix'
    (framing.encAll (rs ++ more)).length hrest
  rw [hnext, add_assoc, ← Nat.cast_add, ← List.length_append] at hmsg
  have hfst : (Segment.init disk₁ rss.flatten.length maxBytes).1 = _ := Segment.init_fst hmax
  rw [show (Segment.freshIndex rss.flatten.length).baseOffset = (rss.flatten.length : ℤ) from rfl,
    hmsg] at hloop
  rw [hloop] at hfst
  cases hseg : Segment.init disk₁ rss.flatten.length maxBytes with
  | mk res disk₂ =>
    rw [hseg] at hfst hinit
    cases hfst
    exact ⟨msg, disk₂, hinit⟩

/-- **Two whole records under the same offset**, behind the records. -/
theorem init_gap {r r' : Record} {t : Bytes}
    (h : l.Left disk.view rss rs (r.frame ++ (r'.frame ++ t))) (henc : r.Encodable)
    (henc' : r'.Encodable) (hoff : r.offset = l.nextOffset) (hoff' : r'.offset = r.offset)
    (hroom : l.active.hasRoomFor r = true) (directory : String) {maxBytes : ℤ}
    (hmax : 0 < maxBytes ∧ maxBytes ≤ maxU32 + 1) :
    ∃ msg disk', Log.init disk directory maxBytes = (.error (.corruptRecord msg), disk') := by
  have hone : framing.encAll [r] = r.frame := by simp [Record.enc_framing]
  have hgap : r'.offset ≠ l.nextOffset + (([r] : List Record).length : ℕ) := by
    rw [hoff', hoff, List.length_singleton]
    omega
  have hmore : l.Left disk.view rss rs (framing.encAll [r] ++ (r'.frame ++ t)) := by rwa [hone]
  refine hmore.init_raises (fun q hq => ?_) (Consecutive.singleton.mpr hoff)
    (by simpa [Record.enc_framing] using h.active.small_append henc hroom)
    (fun name f ix position hrest => ?_) directory hmax
  · rw [List.mem_singleton.mp hq]
    exact henc
  · -- the first is taken, and the second is out of turn
    exact Segment.recoverLoop_gap name ix position henc' hrest hgap

end Left

/-- **Bytes that opening can deal with**, behind records: whole ones that go
on with the offsets, and torn bytes. -/
structure Rest (rs : List Record) (nextOffset : ℤ) (j : Bytes) (more : List Record) : Prop where
  valid : ∀ r ∈ more, r.Encodable
  consecutive : Consecutive nextOffset more
  split : ∃ t, j = framing.encAll more ++ t ∧ Record.Torn t
  small : (framing.encAll (rs ++ more)).length ≤ maxU32 + 1

/-- **Opening a directory that writes failed in**: the log has the records
appended, and what whole ones were left behind them. -/
theorem Left.init {l : Log} {disk : Disk} {rss : List (List Record)} {rs more : List Record}
    {j : Bytes} (h : l.Left disk.view rss rs j) (hj : Rest rs l.nextOffset j more)
    (directory : String) {maxBytes : ℤ} (hmax : 0 < maxBytes ∧ maxBytes ≤ maxU32 + 1) :
    ∃ l' disk', Log.init disk directory maxBytes = (.ok l', disk')
      ∧ l'.Left disk'.view rss (rs ++ more) [] ∧ l'.Serves disk'.view 0 rss (rs ++ more) [] := by
  obtain ⟨older, disk₁, hold, hfiled, hnames, hcontent, hinit⟩ := h.init_eq directory hmax
  obtain ⟨t, rfl, ht⟩ := hj.split
  obtain ⟨s, disk₂, hseg, hs, hsb, hsc, ⟨f, hf, hfc⟩, hother⟩ := Segment.init_of_rest hmax
    (show disk₁.content rss.flatten.length = framing.encAll (rs ++ more) ++ t by
      rw [hcontent, framing.encAll_append, List.append_assoc])
    (fun r hr => (List.mem_append.mp hr).elim (h.active.valid r) (hj.valid r))
    (by
      rw [← h.active_base]
      refine Consecutive.append_iff.mpr ⟨h.active.consecutive, ?_⟩
      rw [← h.active.next]
      exact hj.consecutive) ht hj.small
  rw [hseg] at hinit
  simp only [chainBreak_of_hold hold (by rw [hsb, zero_add])] at hinit
  obtain ⟨older', disk', hclose, hold', hsame⟩ := closeAll_of_hold hold disk₂
  rw [hclose] at hinit
  have hfiled' : Filed disk'.view 0 rss := hfiled.congr fun b _ hb => by
    rw [hsame, hother b (by omega)]
  have htail : ∃ f, disk'.view rss.flatten.length = some f
      ∧ f.content = framing.encAll (rs ++ more) ++ [] := by
    have := hsame rss.flatten.length
    rw [hf, Option.map_some] at this
    obtain ⟨f', hf', hfc'⟩ := Option.map_eq_some_iff.mp this
    exact ⟨f', hf', by rw [hfc', hfc, List.append_nil]⟩
  have hnames' : ∀ b, (disk'.view b).isSome → b ∈ chainBases 0 rss := fun b hb => by
    rw [← Option.isSome_map (f := File.content), hsame, Option.isSome_map] at hb
    by_cases hbt : b = rss.flatten.length
    · rw [hbt]
      have := tail_mem_chainBases 0 rss
      rwa [zero_add] at this
    · rw [hother b hbt] at hb
      exact hnames b hb
  refine ⟨_, disk', hinit, ⟨hold', .of_filed hfiled', hs, hsb, hsc, htail, hnames', ?_, hmax⟩,
    ⟨hold', hfiled', hs, by rw [hsb, zero_add], by rw [zero_add]; exact htail,
      fun b hb => (mem_chainBases (hnames' b hb)).2, hmax⟩⟩
  intro c hc
  rcases List.mem_append.mp hc with hc | hc
  · exact h.small c (List.mem_append_left _ hc)
  · rw [List.mem_singleton.mp hc]
    exact hj.small

namespace Rest

variable {rs : List Record} {nextOffset : ℤ} {j : Bytes}

/-- Torn bytes are no records. -/
theorem of_torn (hj : Record.Torn j) (hsmall : (framing.encAll rs).length ≤ maxU32 + 1) :
    Rest rs nextOffset j [] :=
  ⟨by simp, trivial, ⟨j, rfl, hj⟩, by rwa [List.append_nil]⟩

/-- **Bytes that may be left** are bytes that opening can deal with. -/
theorem of_spared {s : Segment} (hs : s.Holds rs) (hj : s.Spared j)
    (hsmall : (framing.encAll rs).length ≤ maxU32 + 1) : ∃ more, Rest rs s.nextOffset j more := by
  rcases hj with htorn | ⟨r, t, rfl, htorn, henc, hoff, hroom⟩
  · exact ⟨[], of_torn htorn hsmall⟩
  · refine ⟨[r], fun q hq => ?_, Consecutive.singleton.mpr hoff, ⟨t, ?_, htorn⟩, ?_⟩
    · rw [List.mem_singleton.mp hq]
      exact henc
    · rw [framing.encAll_cons, framing.encAll_nil, List.append_nil, Record.enc_framing]
    · simpa [Record.enc_framing] using hs.small_append henc hroom

end Rest

namespace Left

variable {l : Log} {disk : Disk} {rss : List (List Record)} {rs more : List Record} {j : Bytes}

/-- The records of the tail can be indexed. -/
theorem small_tail (h : l.Left disk.view rss rs j) :
    (framing.encAll rs).length ≤ maxU32 + 1 :=
  h.small rs (List.mem_append_right _ (List.mem_singleton_self _))

/-- **Writing a record that the tail has room for**, where the write may
fail: the log has it and nothing else is left, or the append raises and what
it wrote is left behind the records. -/
theorem appendOr (h : l.Left disk.view rss rs j) {r : Record} (hoff : r.offset = l.nextOffset)
    (hroom : l.active.hasRoomFor r = true) (pending : Bytes) (fault : Option (ℕ × Bool))
    (hrest : Rest rs l.nextOffset j more)
    (hj : l.active.Spared (j ++ Faults.written pending r fault)) :
    ∃ active pending' disk',
      ((∃ position, l.active.appendOr pending disk r fault
          = (.ok position, active, pending', disk'))
        ∧ Log.Left { l with active } disk'.view rss (rs ++ [r]) [])
      ∨ (∃ e, l.active.appendOr pending disk r fault = (.error e, active, pending', disk'))
        ∧ active = l.active
        ∧ ∃ j' more', l.Left disk'.view rss rs j' ∧ Rest rs l.nextOffset j' more' := by
  by_cases henc : r.Encodable
  · obtain ⟨more', hmore⟩ := Rest.of_spared h.active hj h.small_tail
    cases fault with
    | none =>
      rw [Faults.written_none henc] at hmore
      by_cases hnil : j ++ pending = []
      · -- nothing was left and nothing kept
        obtain ⟨rfl, rfl⟩ := List.append_eq_nil_iff.mp hnil
        obtain ⟨active, disk', happ, hleft⟩ := h.append henc hoff hroom
        refine ⟨active, [], disk', Or.inl ⟨⟨l.active.position, ?_⟩, hleft⟩⟩
        unfold Segment.append at happ
        unfold Segment.appendOr
        rw [Segment.encodeNext_of_encodable hoff henc h.active_open] at happ ⊢
        simp only [Prod.mk.injEq] at happ
        obtain ⟨hres, hactive, hdisk⟩ := happ
        simp only [List.nil_append]
        rw [← hdisk, ← hactive, ← hres]
      · obtain ⟨msg, happ⟩ := h.append_behind hnil henc hoff
        exact ⟨_, _, _, Or.inr ⟨⟨_, happ⟩, rfl, _, more', h.write (pending ++ r.frame), hmore⟩⟩
    | some fault =>
      obtain ⟨n, kept⟩ := fault
      rw [Faults.written_some henc] at hmore
      have happ : l.active.appendOr pending disk r (some (n, kept)) = (.error .osError, l.active,
          (if kept then pending ++ r.frame else pending).drop n,
          disk.onLog l.active.baseOffset (.write ((pending ++ r.frame).take n))) := by
        unfold Segment.appendOr
        simp only [Segment.encodeNext_of_encodable hoff henc h.active_open]
      exact ⟨_, _, _, Or.inr ⟨⟨_, happ⟩, rfl, _, more', h.write _, hmore⟩⟩
  · -- a record that is refused leaves everything as it is
    obtain ⟨e, he, -⟩ := Segment.append_refused disk hoff henc
    have happ : l.active.appendOr pending disk r fault = (.error e, l.active, pending, disk) := by
      unfold Segment.appendOr
      simp only [Segment.encodeNext_refused hoff he]
    exact ⟨_, _, _, Or.inr ⟨⟨_, happ⟩, rfl, j, more, h, hrest⟩⟩

/-- **What `append` does first**, where the flush may fail: the tail has room
for the record then, and where it is a new one nothing is left behind it; or
the append raises, and what was flushed is left. -/
theorem makeRoom (h : l.Left disk.view rss rs j) (hrest : Rest rs l.nextOffset j more)
    {r : Record} (hoff : r.offset = l.nextOffset) (pending : Bytes) (flush : Option ℕ)
    (write : Option (ℕ × Bool))
    (hkept : if l.active.hasRoomFor r then l.active.Spared (j ++ Faults.written pending r write)
      else match flush with
        | some n => l.active.Spared (j ++ pending.take n)
        | none => Record.Torn (j ++ pending)) :
    (∃ l' pending' disk' rss' rs' j' more',
      (if l.active.hasRoomFor r then (.ok (), l, pending, disk) else l.rollOr pending disk flush)
          = (.ok (), l', pending', disk')
        ∧ l'.Left disk'.view rss' rs' j' ∧ Rest rs' l'.nextOffset j' more'
        ∧ rss'.flatten ++ rs' = rss.flatten ++ rs ∧ l'.nextOffset = l.nextOffset
        ∧ l'.active.hasRoomFor r = true
        ∧ l'.active.Spared (j' ++ Faults.written pending' r write)
        ∧ (j' = j ∧ pending' = pending ∨ j' = [] ∧ pending' = []))
    ∨ flush.isSome ∧ ∃ e pending' disk' j' more',
      (if l.active.hasRoomFor r then (.ok (), l, pending, disk) else l.rollOr pending disk flush)
          = (.error e, l, pending', disk')
        ∧ l.Left disk'.view rss rs j' ∧ Rest rs l.nextOffset j' more' := by
  cases hr : l.active.hasRoomFor r with
  | true =>
    rw [hr, if_pos rfl] at hkept
    exact Or.inl ⟨l, pending, disk, rss, rs, j, more, by rw [if_pos rfl], h, hrest,
      rfl, rfl, hr, hkept, Or.inl ⟨rfl, rfl⟩⟩
  | false =>
    rw [hr, if_neg Bool.false_ne_true] at hkept
    rw [if_neg Bool.false_ne_true]
    have hne : rs ≠ [] := by
      intro hnil
      unfold Segment.hasRoomFor at hr
      rw [if_pos (h.active.position_eq_zero_iff.mpr hnil)] at hr
      cases hr
    have hpos : l.active.position ≠ 0 := fun h0 => hne (h.active.position_eq_zero_iff.mp h0)
    cases flush with
    | none =>
      -- the tail is sealed over torn bytes
      obtain ⟨l', disk', hroll, h'⟩ := (h.flush pending).roll hne hkept
      have hflat : (rss ++ [rs]).flatten ++ [] = rss.flatten ++ rs := by simp
      have hnext : l'.nextOffset = l.nextOffset := by
        rw [h'.nextOffset_eq, h.nextOffset_eq, hflat]
      have hroom : l'.active.hasRoomFor r = true := by
        unfold Segment.hasRoomFor
        rw [if_pos (h'.active.position_eq_zero_iff.mpr rfl)]
      refine Or.inl ⟨l', [], disk', rss ++ [rs], [], [], [], ?_, h',
        .of_torn Record.torn_nil (Nat.zero_le _), hflat, hnext, hroom,
        Faults.spared_written (hoff.trans hnext.symm) hroom write, Or.inr ⟨rfl, rfl⟩⟩
      rw [Log.rollOr_none hpos h.active_open, hroll]
    | some n =>
      obtain ⟨more', hmore⟩ := Rest.of_spared h.active hkept h.small_tail
      refine Or.inr ⟨rfl, .osError, pending.drop n,
        disk.flush l.active.baseOffset (pending.take n), _,
        more', ?_, h.flush _, hmore⟩
      unfold Log.rollOr Segment.closeOr
      rw [if_neg hpos, if_neg (by rw [h.active_open]; exact Bool.false_ne_true)]

end Left

end Log

/-! ## Runs

The invariant speaks of the log and of the file. What the handle has kept
becomes part of the file in some later step, and the condition on that step is
what speaks of it. -/

namespace Faults

/-- **The invariant**: what was acknowledged is in the log's records, and
opening can deal with what is behind them. Of what the handle has kept it
says nothing: that is asked for where it is written (`Kept`). -/
def Inv (s : State) : Prop :=
  ∃ rss rs j more, s.log.Left s.dir.logs.view rss rs j ∧ Log.Rest rs s.log.nextOffset j more
    ∧ ∀ r ∈ s.acknowledged, r ∈ rss.flatten ++ rs

/-- A log that runs stands for what was appended. -/
theorem left_of_start {s : State} (h : system.start s) :
    ∃ rss rs, s.log.Left s.dir.logs.view rss rs [] ∧ s.acknowledged = rss.flatten ++ rs := by
  obtain ⟨-, directory, synced, h⟩ := h
  obtain ⟨rss, rs, d, hold, hrecords, -⟩ := h.invariant (fun s hs => Recovery.good_start hs)
    (fun s e s' hs hstep => Recovery.good_step hs hstep)
  have hold : s.log.Holds (Disk.of s.dir).view rss rs d := hold
  exact ⟨rss, rs, .of_holds hold, hrecords.symm⟩

/-- A log that runs has nothing left behind its records. -/
theorem inv_start {s : State} (h : system.start s) : Inv s := by
  obtain ⟨rss, rs, hleft, hack⟩ := left_of_start h
  have hleft : s.log.Left (Disk.of s.dir).view rss rs [] := hleft
  exact ⟨rss, rs, [], [], hleft, .of_torn Record.torn_nil hleft.small_tail, fun r hr => hack ▸ hr⟩

/-- What failed writes left is what is behind the records. -/
theorem left_eq {s : State} {rss : List (List Record)} {rs : List Record} {j : Bytes}
    (h : s.log.Left s.dir.logs.view rss rs j) : s.left = j := by
  have h : s.log.Left (Disk.of s.dir).view rss rs j := h
  have hcontent := h.content_eq
  rw [State.left, hcontent, h.active.position, List.drop_left]

/-- **Where nothing was left and nothing is kept**, any append may be made:
the condition is about what comes after a write that failed. -/
theorem kept_append {s : State} (hleft : s.left = []) (hpending : s.pending = [])
    (key value : Option Bytes) (timestamp : Option ℤ) (clock : ℤ) (fault : Option Fault) :
    Kept s (.append key value timestamp clock fault) := by
  unfold Kept
  simp only [hleft, hpending, List.nil_append, List.take_nil]
  split_ifs with hroom
  · exact spared_written rfl hroom _
  · cases Fault.inFlush fault with
    | none => exact Record.torn_nil
    | some n => exact Or.inl Record.torn_nil

/-- **An append**, said of the record it would write. -/
theorem appendOr_next {s : State} {key value : Option Bytes} {timestamp : Option ℤ} {clock : ℤ}
    {r : Record} (hr : r = s.next key value timestamp clock) (fault : Option Fault) :
    s.log.appendOr s.pending (.of s.dir) key value timestamp clock fault
      = match (if s.log.active.hasRoomFor r then (.ok (), s.log, s.pending, Disk.of s.dir)
          else s.log.rollOr s.pending (.of s.dir) (Fault.inFlush fault)) with
        | (.error e, l, pending, disk) => (.error e, l, pending, disk)
        | (.ok (), l, pending, disk) =>
          match l.active.appendOr pending disk r (Fault.inWrite fault) with
          | (.error e, active, pending, disk) => (.error e, { l with active }, pending, disk)
          | (.ok _, active, pending, disk) =>
            (.ok s.log.nextOffset, { l with active }, pending, disk) := by
  rw [hr]
  rfl

/-- **Every step that is taken with care keeps the invariant.** -/
theorem inv_step {s s' : State} {act : Act} (hs : Inv s) (hstep : exec s act = some s')
    (hkept : Kept s act) : Inv s' := by
  obtain ⟨rss, rs, j, more, hleft, hrest, hack⟩ := hs
  have hj := left_eq hleft
  have hleft : s.log.Left (Disk.of s.dir).view rss rs j := hleft
  cases act with
  | reopen max =>
    obtain ⟨l', disk', hinit, hleft', -⟩ := hleft.init hrest s.log.directory max.2
    simp only [exec, hinit] at hstep
    cases hstep
    refine ⟨rss, rs ++ more, [], [], hleft', .of_torn Record.torn_nil hrest.small, fun r hr => ?_⟩
    rw [← List.append_assoc]
    exact List.mem_append_left _ (hack r hr)
  | sync fault =>
    simp only [Kept, hj] at hkept
    obtain ⟨more', hmore⟩ := Log.Rest.of_spared hleft.active hkept hleft.small_tail
    simp only [exec, Log.syncOr, Segment.syncOr, hleft.active_open, Bool.false_eq_true,
      if_false] at hstep
    cases fault with
    | none =>
      obtain ⟨l', disk', hsync, hleft', hnext⟩ := (hleft.flush s.pending).sync
      unfold Log.sync at hsync
      simp only [Prod.mk.injEq] at hsync
      obtain ⟨-, hl, hd⟩ := hsync
      simp only [Option.some.injEq] at hstep
      rw [hl, hd] at hstep
      subst hstep
      exact ⟨rss, rs, _, more', hleft', hnext ▸ hmore, hack⟩
    | some n =>
      cases hstep
      exact ⟨rss, rs, _, more', hleft.flush _, hmore, hack⟩
  | append key value timestamp clock fault =>
    obtain ⟨r, hr⟩ : ∃ r, r = s.next key value timestamp clock := ⟨_, rfl⟩
    have hoff : r.offset = s.log.nextOffset := by rw [hr]; rfl
    simp only [Kept, hj, ← hr] at hkept
    have hexec := appendOr_next hr fault
    rcases hleft.makeRoom hrest hoff s.pending _ _ hkept with hroom | hraises
    · obtain ⟨l, pending, disk, rss', rs', j', more', hmake, hleft', hrest', hflat, hnext, hroom,
        hspared, -⟩ := hroom
      rw [hmake] at hexec
      obtain ⟨active, pending', disk', h | h⟩ := hleft'.appendOr (hoff.trans hnext.symm) hroom
        pending (Fault.inWrite fault) hrest' hspared
      · -- the append returns
        obtain ⟨⟨position, happ⟩, hdone⟩ := h
        simp only [happ] at hexec
        simp only [exec, hexec] at hstep
        cases hstep
        refine ⟨rss', rs' ++ [r], [], [], hdone,
          .of_torn Record.torn_nil hdone.small_tail, fun r' hr' => ?_⟩
        rw [← List.append_assoc, hflat]
        rcases List.mem_append.mp hr' with hr' | hr'
        · exact List.mem_append_left _ (hack r' hr')
        · rw [List.mem_singleton.mp hr', hr]
          exact List.mem_append_right _ (List.mem_singleton_self _)
      · -- the write raises
        obtain ⟨⟨e, happ⟩, rfl, j'', more'', hdone, hrest''⟩ := h
        simp only [happ] at hexec
        simp only [exec, hexec] at hstep
        cases hstep
        exact ⟨rss', rs', j'', more'', hdone, hrest'', fun r' hr' => by
          rw [hflat]; exact hack r' hr'⟩
    · -- the flush before the segment is sealed raises
      obtain ⟨-, e, pending', disk', j', more', hmake, hleft', hrest'⟩ := hraises
      rw [hmake] at hexec
      simp only [exec, hexec] at hstep
      cases hstep
      exact ⟨rss, rs, j', more', hleft', hrest', hack⟩

variable {s : State} {rss : List (List Record)} {rs : List Record} {key value : Option Bytes}
  {timestamp : Option ℤ} {clock : ℤ} {r : Record}

/-- **A write that fails where nothing was left or kept** leaves what it
wrote, and the handle keeps the rest, or does not. -/
theorem exec_fault (h : s.log.Left s.dir.logs.view rss rs []) (hpending : s.pending = [])
    (hr : r = s.next key value timestamp clock) (henc : r.Encodable) (n : ℕ) (kept : Bool) :
    ∃ s' rss' rs', exec s (.append key value timestamp clock (some (.write n kept))) = some s'
      ∧ s'.acknowledged = s.acknowledged
      ∧ s'.log.Left s'.dir.logs.view rss' rs' (r.frame.take n)
      ∧ s'.pending = (if kept then r.frame else []).drop n
      ∧ s'.log.active.hasRoomFor r = true ∧ s'.log.nextOffset = s.log.nextOffset := by
  have hoff : r.offset = s.log.nextOffset := by rw [hr]; rfl
  have hkept := kept_append (left_eq h) hpending key value timestamp clock (some (.write n kept))
  simp only [Kept, left_eq h, ← hr] at hkept
  have h : s.log.Left (Disk.of s.dir).view rss rs [] := h
  obtain ⟨l, pending, disk, rss', rs', j', more', hmake, hleft', -, -, hnext, hroom, -, hclean⟩ :=
    (h.makeRoom (.of_torn Record.torn_nil h.small_tail) hoff s.pending
      (Fault.inFlush (some (.write n kept))) _ hkept).resolve_right (fun h => by cases h.1)
  obtain ⟨rfl, rfl⟩ : j' = [] ∧ pending = [] := by
    rcases hclean with hsame | hsame
    · exact ⟨hsame.1, hsame.2.trans hpending⟩
    · exact hsame
  have hexec := appendOr_next hr (some (.write n kept))
  rw [hmake] at hexec
  have hwrite : l.active.appendOr [] disk r (Fault.inWrite (some (.write n kept)))
      = (.error .osError, l.active, (if kept then r.frame else []).drop n,
        disk.onLog l.active.baseOffset (.write (r.frame.take n))) := by
    unfold Segment.appendOr
    simp only [Segment.encodeNext_of_encodable (hoff.trans hnext.symm) henc hleft'.active_open,
      Fault.inWrite, List.nil_append]
  simp only [hwrite] at hexec
  have hleft := hleft'.write (r.frame.take n)
  rw [List.nil_append] at hleft
  have hstep : exec s (.append key value timestamp clock (some (.write n kept)))
      = some ⟨l, (disk.onLog l.active.baseOffset (.write (r.frame.take n))).dir,
        (if kept then r.frame else []).drop n, s.acknowledged⟩ := by
    simp only [exec, hexec]
  exact ⟨_, rss', rs', hstep, rfl, hleft, rfl, hroom, hnext⟩

/-- **The next append** goes behind it, and raises. -/
theorem exec_behind {j : Bytes} (h : s.log.Left s.dir.logs.view rss rs j)
    (hj : j ++ s.pending ≠ []) (hr : r = s.next key value timestamp clock) (henc : r.Encodable)
    (hroom : s.log.active.hasRoomFor r = true) :
    ∃ s', exec s (.append key value timestamp clock none) = some s'
      ∧ s'.acknowledged = s.acknowledged ∧ s'.log.nextOffset = s.log.nextOffset
      ∧ s'.log.active.hasRoomFor = s.log.active.hasRoomFor
      ∧ s'.log.Left s'.dir.logs.view rss rs (j ++ s.pending ++ r.frame) := by
  have hoff : r.offset = s.log.nextOffset := by rw [hr]; rfl
  have h : s.log.Left (Disk.of s.dir).view rss rs j := h
  obtain ⟨msg, happ⟩ := h.append_behind hj henc hoff
  have hexec := appendOr_next hr none
  rw [if_pos hroom] at hexec
  simp only [Fault.inWrite, happ] at hexec
  have hleft := h.write (s.pending ++ r.frame)
  rw [← List.append_assoc] at hleft
  have hstep : exec s (.append key value timestamp clock none)
      = some ⟨s.log, ((Disk.of s.dir).onLog s.log.active.baseOffset
        (.write (s.pending ++ r.frame))).dir, [], s.acknowledged⟩ := by
    simp only [exec, hexec]
  exact ⟨_, hstep, rfl, rfl, rfl, hleft⟩

/-- **An append that fails and is tried again** leaves a directory that does
not open: wherever in its bytes the first write raises, the second one puts
the rest of them into the file and its own record behind it, under the same
offset. Both calls have raised, and what was acknowledged before is out of
reach. -/
theorem retry_buries (h : s.log.Left s.dir.logs.view rss rs []) (hpending : s.pending = [])
    (hr : r = s.next key value timestamp clock) (henc : r.Encodable) (n : ℕ) :
    ∃ s₁ s₂, exec s (.append key value timestamp clock (some (.write n true))) = some s₁
      ∧ exec s₁ (.append key value timestamp clock none) = some s₂
      ∧ s₂.acknowledged = s.acknowledged
      ∧ ∀ directory (max : SegmentLimit), ∃ msg disk,
        Log.init (.of s₂.dir) directory max = (.error (.corruptRecord msg), disk) := by
  obtain ⟨s₁, rss', rs', hexec₁, hack₁, hleft₁, hpending₁, hroom, hnext⟩ :=
    exec_fault h hpending hr henc n true
  have hr₁ : r = s₁.next key value timestamp clock := by
    rw [hr, State.next, State.next, hnext]
  have hframe : r.frame.take n ++ s₁.pending = r.frame := by
    rw [hpending₁, if_pos rfl, List.take_append_drop]
  have hne : r.frame ≠ [] := fun h0 => by
    have hlen := r.length_frame
    have hsize := r.size_eq
    rw [h0, List.length_nil] at hlen
    omega
  obtain ⟨s₂, hexec₂, hack₂, hnext₂, hroom₂, hleft₂⟩ :=
    exec_behind hleft₁ (by rwa [hframe]) hr₁ henc hroom
  refine ⟨s₁, s₂, hexec₁, hexec₂, hack₂.trans hack₁, fun directory max => ?_⟩
  have hleft : s₂.log.Left (Disk.of s₂.dir).view rss' rs' (r.frame ++ (r.frame ++ [])) := by
    rw [hframe] at hleft₂
    rwa [List.append_nil]
  exact hleft.init_gap henc henc (by rw [hnext₂, hr₁]; rfl) rfl (by rw [hroom₂]; exact hroom)
    directory max.2

section Examples

end Examples

end Faults

end Pyka
