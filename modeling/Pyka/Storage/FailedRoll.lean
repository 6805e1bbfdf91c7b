import Pyka.Base.Machine
import Pyka.Storage.Handles
import Pyka.Storage.Reached

/-!
# Rolls that fail

`Log.roll` seals the tail before there is another one. Where `Segment(...)`
then raises, the log is left with a tail that is sealed: it reads as before,
and its next offset is the same, but a record that fits the tail goes to the
tail and is refused there, again and again, until one comes that does not fit
and makes the log roll once more (`Log.Stalled`).

So a failed roll does no harm exactly where no record fits the tail any more
(`Rolling.undisturbed_iff`).

## What makes a constructor raise

A new segment is a new file, and the operating system may refuse it: no file
handle is left, the disk is full, the directory is gone. Such a failure comes
from outside of the code, so it is an argument of the roll (`Fault`): after
how many changes to the directory it strikes, and what it raises. What the
constructor has done by then is what it does when it does not fail, up to that
change. At most an empty file is left under the new segment's name, and an
empty file is what a later attempt would create.

## What "appendable" is measured by

Two logs that differ in whether the tail is open can be told apart by an
append that fits it, and by nothing else: reads, the next offset, and every
append that rolls are the same. The comparison is made over all that can come
later (`Rolling.Undisturbed`), with records of every size. The smallest record
decides, since a tail with room for any record has room for it; and it has to
be one that can be encoded, which fails only for offsets past the last that
eight bytes hold.
-/

namespace Pyka

open Struct (Bytes)
open Record (framing)

variable [Crc32]

/-! ## A new segment that cannot be had

The functions of the source with one argument more. Without a fault they are
the functions of the source, by definition (`Log.appendUnless_none`). -/

/-- **What makes `Segment(...)` raise**: the error of a call, and how many
changes to the directory were made before it. -/
structure Fault where
  changes : ℕ
  error : PyError

/-- **`Segment(...)`, where a call may fail.** -/
def Segment.initUnless (disk : Disk) (base maxBytes : ℤ) :
    Option Fault → Except PyError Segment × Disk
  | none => init disk base maxBytes
  | some fault =>
    let done := (init (.of disk.dir) base maxBytes).2
    let states := (done.dir :: done.past).reverse
    (.error fault.error, ⟨states.getD fault.changes done.dir,
      (states.take fault.changes).reverse ++ disk.past⟩)

namespace Log

/-- **`Log.roll`, where the new segment may not be had.** -/
def rollUnless (l : Log) (disk : Disk) (fault : Option Fault) : Except PyError Unit × Log × Disk :=
  if l.active.position = 0 then (.ok (), l, disk)
  else
    match l.active.close disk with
    | (.error e, active, disk) => (.error e, { l with active }, disk)
    | (.ok (), sealed, disk) =>
      match Segment.initUnless disk sealed.nextOffset l.maxSegmentBytes fault with
      | (.error e, disk) => (.error e, { l with active := sealed }, disk)
      | (.ok active, disk) => (.ok (), { l with older := l.older ++ [sealed], active }, disk)

/-- **`Log.append`, where the new segment may not be had.** -/
def appendUnless (l : Log) (disk : Disk) (key value : Option Bytes) (timestamp : Option ℤ)
    (clock : ℤ) (fault : Option Fault) : Except PyError ℤ × Log × Disk :=
  let offset := l.nextOffset
  let record : Record := { offset, timestamp := timestamp.getD clock, key, value }
  let rolled := if l.active.hasRoomFor record then (.ok (), l, disk) else l.rollUnless disk fault
  match rolled with
  | (.error e, l, disk) => (.error e, l, disk)
  | (.ok (), l, disk) =>
    match l.active.append disk record with
    | (.error e, active, disk) => (.error e, { l with active }, disk)
    | (.ok _, active, disk) => (.ok offset, { l with active }, disk)

/-- Where nothing fails they are `Log.roll` and `Log.append`. -/
theorem rollUnless_none (l : Log) (disk : Disk) : l.rollUnless disk none = l.roll disk := rfl

/-- Where nothing fails it is `Log.append`, too. -/
theorem appendUnless_none (l : Log) (disk : Disk) (key value : Option Bytes) (timestamp : Option ℤ)
    (clock : ℤ) :
    l.appendUnless disk key value timestamp clock none = l.append disk key value timestamp clock :=
  rfl

end Log

/-- **A new segment that cannot be had** leaves an empty file at most. -/
theorem Segment.initUnless_fails {disk : Disk} {base maxBytes : ℤ}
    (hmax : 0 < maxBytes ∧ maxBytes ≤ maxU32 + 1)
    (hfresh : (disk.view base).getD File.empty = File.empty) (fault : Fault) :
    ∃ disk', initUnless disk base maxBytes (some fault) = (.error fault.error, disk')
      ∧ (disk'.view = disk.view
        ∨ disk'.view = Function.update disk.view base (some File.empty)) := by
  have hfresh : ((Disk.of disk.dir).view base).getD File.empty = File.empty := hfresh
  obtain ⟨_, done, hinit, -, -, -, hv, halways⟩ := init_of_fresh hmax hfresh
  obtain ⟨hnow, hpast⟩ := halways
    (fun v => v = disk.view ∨ v = Function.update disk.view base (some File.empty))
    ((Disk.always_of disk.dir).mpr (Or.inl rfl)) (Or.inr hv)
  refine ⟨_, rfl, ?_⟩
  simp only [hinit, Disk.view, List.getD_eq_getElem?_getD]
  cases hstate : (done.dir :: done.past).reverse[fault.changes]? with
  | none => exact hnow
  | some dir =>
    rcases List.mem_cons.mp (List.mem_reverse.mp (List.mem_of_getElem? hstate)) with rfl | hmem
    · exact hnow
    · exact hpast dir hmem

namespace Log

/-! ## Logs that wait for a new tail

After a failed roll nothing is wrong with what is stored. The log lacks a
segment to write to, and there may be an empty file that is to be its own;
with that file put aside it serves reads as before. -/

/-- **A log whose tail is sealed**, with no other behind it. There may be an
empty file that is to be its own. -/
structure Stalled (l : Log) (v : ℤ → Option File) (base : ℤ) (rss : List (List Record))
    (rs : List Record) : Prop where
  serves : l.Serves (Function.update v l.nextOffset none) base rss rs []
  closed : l.active.closed = true
  nonempty : rs ≠ []
  fresh : (v l.nextOffset).getD File.empty = File.empty

/-- **A log that runs**: its tail is open, or it waits for a new one. -/
inductive Upright (l : Log) (v : ℤ → Option File) (base : ℤ) (rss : List (List Record))
    (rs : List Record) : Prop
  | ready (h : l.Serves v base rss rs []) (hopen : l.active.closed = false)
  | stalled (h : l.Stalled v base rss rs)

variable {l : Log} {disk : Disk} {base : ℤ} {rss : List (List Record)} {rs : List Record}

/-- Sealing a tail makes a log wait. -/
theorem Serves.stalled {v : ℤ → Option File} (h : l.Serves v base rss rs [])
    (hclosed : l.active.closed = true) (hne : rs ≠ []) : l.Stalled v base rss rs where
  serves := by rwa [← h.fresh hne, Function.update_eq_self]
  closed := hclosed
  nonempty := hne
  fresh := by rw [h.fresh hne]; rfl

/-- An empty file more makes no difference to it. -/
theorem Stalled.touched {v v' : ℤ → Option File} (h : l.Stalled v base rss rs)
    (hv : v' = v ∨ v' = Function.update v l.nextOffset (some File.empty)) :
    l.Stalled v' base rss rs := by
  rcases hv with rfl | rfl
  · exact h
  · exact ⟨by rw [Function.update_idem]; exact h.serves, h.closed, h.nonempty,
      by rw [Function.update_self]; rfl⟩

/-- **The new tail is to be had**: the log goes on. -/
theorem Stalled.start (h : l.Stalled disk.view base rss rs) :
    ∃ active disk', Segment.init disk l.active.nextOffset l.maxSegmentBytes = (.ok active, disk')
      ∧ Serves { l with older := l.older ++ [l.active], active } disk'.view base (rss ++ [rs]) [] []
      ∧ active.closed = false := by
  obtain ⟨active, disk', hinit, hs, hb, hopen, hv, -⟩ :=
    Segment.init_of_fresh h.serves.limit h.fresh
  have hempty : File.empty.content = [] := rfl
  refine ⟨active, disk', hinit, h.serves.sealTail h.closed h.nonempty hs hb hempty ?_, hopen⟩
  rw [hv]
  exact (Function.update_idem _ _ _).symm

/-- **The new tail is not to be had**: the log waits. -/
theorem Stalled.fails (h : l.Stalled disk.view base rss rs) (fault : Fault) :
    ∃ disk', Segment.initUnless disk l.active.nextOffset l.maxSegmentBytes (some fault)
        = (.error fault.error, disk') ∧ l.Stalled disk'.view base rss rs := by
  obtain ⟨disk', hinit, hv⟩ := Segment.initUnless_fails h.serves.limit h.fresh fault
  exact ⟨disk', hinit, h.touched hv⟩

namespace Upright

/-- The tail holds the last of the records. -/
theorem active {v : ℤ → Option File} (h : l.Upright v base rss rs) : l.active.Holds rs := by
  cases h with
  | ready h => exact h.active
  | stalled h => exact h.serves.active

/-- The next offset is the one behind the records. -/
theorem nextOffset_eq {v : ℤ → Option File} (h : l.Upright v base rss rs) :
    l.nextOffset = base + (rss.flatten ++ rs).length := by
  have hb : l.active.baseOffset = base + rss.flatten.length := by
    cases h with
    | ready h => exact h.active_base
    | stalled h => exact h.serves.active_base
  rw [nextOffset, h.active.next, hb, List.length_append]
  push_cast
  ring

/-- **The tail is sealed first.** -/
theorem close (h : l.Upright disk.view base rss rs) (hne : rs ≠ []) :
    ∃ sealed disk', l.active.close disk = (.ok (), sealed, disk')
      ∧ Stalled { l with active := sealed } disk'.view base rss rs
      ∧ ∀ r, sealed.hasRoomFor r = l.active.hasRoomFor r := by
  cases h with
  | ready h hopen =>
    obtain ⟨sealed, disk', hclose, h', hclosed, -, -, hpos, hmax⟩ := h.sealActive hopen
    refine ⟨sealed, disk', hclose, h'.stalled hclosed hne, fun r => ?_⟩
    unfold Segment.hasRoomFor
    rw [hpos, hmax]
  | stalled h => exact ⟨l.active, disk, Segment.close_of_closed h.closed disk, h, fun _ => rfl⟩

/-- **A roll that works.** -/
theorem roll (h : l.Upright disk.view base rss rs) (hne : rs ≠ []) :
    ∃ l' disk', l.rollUnless disk none = (.ok (), l', disk')
      ∧ l'.Serves disk'.view base (rss ++ [rs]) [] [] ∧ l'.active.closed = false := by
  obtain ⟨sealed, disk₁, hclose, hstalled, -⟩ := h.close hne
  obtain ⟨active, disk', hinit, h', hopen⟩ := hstalled.start
  refine ⟨_, disk', ?_, h', hopen⟩
  unfold rollUnless
  rw [if_neg (mt h.active.position_eq_zero_iff.mp hne), hclose]
  simp only at hinit
  simp only [Segment.initUnless, hinit]

/-- **A roll that fails** leaves the log without a tail to write to. -/
theorem roll_fails (h : l.Upright disk.view base rss rs) (hne : rs ≠ []) (fault : Fault) :
    ∃ l' disk', l.rollUnless disk (some fault) = (.error fault.error, l', disk')
      ∧ l'.Stalled disk'.view base rss rs ∧ ∀ r,
        l'.active.hasRoomFor r = l.active.hasRoomFor r := by
  obtain ⟨sealed, disk₁, hclose, hstalled, hroom⟩ := h.close hne
  obtain ⟨disk', hinit, h'⟩ := hstalled.fails fault
  refine ⟨_, disk', ?_, h', hroom⟩
  unfold rollUnless
  rw [if_neg (mt h.active.position_eq_zero_iff.mp hne), hclose]
  simp only at hinit
  simp only [hinit]

end Upright

/-! ## Appends

An append to a log that waits is refused if it fits the sealed tail, and
otherwise makes the log roll, which may fail again. -/

/-- **A record that fits a sealed tail** is refused. -/
theorem Stalled.append_fits (h : l.Stalled disk.view base rss rs) {key value : Option Bytes}
    {timestamp : Option ℤ} {clock : ℤ} (fault : Option Fault)
    (hroom : l.active.hasRoomFor (l.stamped key value timestamp clock) = true) :
    ∃ e, l.appendUnless disk key value timestamp clock fault = (.error e, l, disk) := by
  obtain ⟨e, happ⟩ := Segment.append_of_closed h.closed disk (l.stamped key value timestamp clock)
  refine ⟨e, ?_⟩
  unfold stamped at hroom happ
  simp only [appendUnless, hroom, if_true, happ]

/-- **Writing to an open tail with room**, a record that may not be one. -/
theorem Serves.put (h : l.Serves disk.view base rss rs []) (hopen : l.active.closed = false)
    {r : Record} (hoff : r.offset = l.nextOffset) (hroom : l.active.hasRoomFor r = true) :
    ∃ res active disk' rs', l.active.append disk r = (res, active, disk')
      ∧ Serves { l with active } disk'.view base rss rs' [] ∧ active.closed = false
        ∧ rs <+: rs' := by
  by_cases henc : r.Encodable
  · obtain ⟨active, disk', happ, h', hopen'⟩ := h.write hopen henc hoff hroom
    exact ⟨_, active, disk', _, happ, h', hopen', List.prefix_append _ _⟩
  · obtain ⟨e, -, happ⟩ := Segment.append_refused disk hoff henc
    exact ⟨_, _, disk, rs, happ, h, hopen, List.prefix_refl _⟩

/-- A tail without room for a record has one. -/
theorem Upright.nonempty {v : ℤ → Option File} (h : l.Upright v base rss rs) {r : Record}
    (hfull : l.active.hasRoomFor r = false) : rs ≠ [] := fun hnil => by
  unfold Segment.hasRoomFor at hfull
  rw [if_pos (h.active.position_eq_zero_iff.mpr hnil)] at hfull
  cases hfull

/-- **An append that has to roll, and cannot**, leaves the log as the roll
does. -/
theorem Upright.append_fails (h : l.Upright disk.view base rss rs) {key value : Option Bytes}
    {timestamp : Option ℤ} {clock : ℤ}
    (hfull : l.active.hasRoomFor (l.stamped key value timestamp clock) = false) (fault : Fault) :
    ∃ l' disk', l.appendUnless disk key value timestamp clock (some fault)
        = (.error fault.error, l', disk')
      ∧ l'.Stalled disk'.view base rss rs ∧ ∀ r,
        l'.active.hasRoomFor r = l.active.hasRoomFor r := by
  obtain ⟨l', disk', hroll, h', hroom⟩ := h.roll_fails (h.nonempty hfull) fault
  refine ⟨l', disk', ?_, h', hroom⟩
  unfold stamped at hfull
  simp only [appendUnless, hfull, Bool.false_eq_true, if_false, hroll]

/-- **An append**, whatever becomes of it: no record is lost. -/
theorem Upright.append (h : l.Upright disk.view base rss rs) (key value : Option Bytes)
    (timestamp : Option ℤ) (clock : ℤ) (fault : Option Fault) :
    ∃ res l' disk' rss' rs', l.appendUnless disk key value timestamp clock fault = (res, l', disk')
      ∧ l'.Upright disk'.view base rss' rs' ∧ rss.flatten ++ rs <+: rss'.flatten ++ rs' := by
  by_cases hroom : l.active.hasRoomFor (l.stamped key value timestamp clock) = true
  · cases h with
    | stalled h =>
      obtain ⟨e, happ⟩ := h.append_fits fault hroom
      exact ⟨_, l, disk, rss, rs, happ, .stalled h, List.prefix_refl _⟩
    | ready h hopen =>
      obtain ⟨res, active, disk', rs', hput, h', hopen', hrs⟩ := h.put hopen rfl hroom
      refine ⟨res.map fun _ => l.nextOffset, { l with active }, disk', rss, rs', ?_,
        .ready h' hopen', (List.prefix_append_right_inj _).mpr hrs⟩
      unfold stamped at hroom hput
      simp only [appendUnless, hroom, if_true, hput]
      cases res <;> rfl
  · have hfull := Bool.eq_false_iff.mpr hroom
    cases fault with
    | some fault =>
      obtain ⟨l', disk', happ, h', -⟩ := h.append_fails hfull fault
      exact ⟨_, l', disk', rss, rs, happ, .stalled h', List.prefix_refl _⟩
    | none =>
      obtain ⟨l₁, disk₁, hroll, h₁, hopen₁⟩ := h.roll (h.nonempty hfull)
      have hnext : l₁.nextOffset = l.nextOffset := by
        rw [(Upright.ready h₁ hopen₁).nextOffset_eq, h.nextOffset_eq]
        simp
      have hfits : l₁.active.hasRoomFor (l.stamped key value timestamp clock) = true := by
        unfold Segment.hasRoomFor
        rw [if_pos (h₁.active.position_eq_zero_iff.mpr rfl)]
      obtain ⟨res, active, disk', rs', hput, h', hopen', hrs⟩ := h₁.put hopen₁ hnext.symm hfits
      refine ⟨res.map fun _ => l.nextOffset, { l₁ with active }, disk', rss ++ [rs], rs', ?_,
        .ready h' hopen', by simp⟩
      unfold stamped at hroom hput
      unfold appendUnless
      simp only [if_neg hroom, hroll, hput]
      cases res <;> rfl

/-! ## Reads

A read goes through the segments the log has, so the empty file of a segment
that could not be had is not looked at. -/

/-- **A read looks at the files of the segments** and at no others. -/
theorem readFrom_congr {dir dir' : Dir}
    (hfiles : ∀ s ∈ l.segments, dir'.logs.lookup s.baseOffset = dir.logs.lookup s.baseOffset)
    (offset : ℤ) : l.readFrom dir' offset = l.readFrom dir offset := by
  have hall : ∀ segs : List Segment,
      (∀ s ∈ segs, dir'.logs.lookup s.baseOffset = dir.logs.lookup s.baseOffset) →
      readAll dir' offset segs = readAll dir offset segs := fun segs => by
    induction segs with
    | nil => exact fun _ => rfl
    | cons s segs ih =>
      intro hsegs
      have hs : s.readFrom dir' (max offset s.baseOffset)
          = s.readFrom dir (max offset s.baseOffset) := by
        unfold Segment.readFrom Segment.iterFrom
        rw [hsegs s List.mem_cons_self]
      unfold readAll
      rw [hs, ih fun s hs => hsegs s (List.mem_cons_of_mem _ hs)]
  unfold readFrom iterFrom
  rw [hall]
  intro s hs
  refine hfiles s ?_
  unfold segmentsFrom sliceFrom at hs
  simp only at hs
  split_ifs at hs <;> exact List.mem_of_mem_drop hs

/-- Its segments start where the tail does or before. -/
theorem Serves.base_le {v : ℤ → Option File} {t : Bytes} (h : l.Serves v base rss rs t) :
    ∀ s ∈ l.segments, s.baseOffset ≤ l.active.baseOffset := fun s hs => by
  have hinc := h.increasing
  rw [segments, List.map_append, List.pairwise_append] at hinc
  rcases mem_segments.mp hs with hold | rfl
  · exact (hinc.2.2 _ (List.mem_map_of_mem hold) _ (List.mem_singleton_self _)).le
  · exact le_rfl

/-- Two logs that serve the same records answer the same reads. -/
theorem Serves.readFrom_eq {l' : Log} {dir dir' : Dir} (h : l.Serves dir.logs.view base rss rs [])
    (h' : l'.Serves dir'.logs.view base rss rs []) (offset : ℤ) :
    l'.readFrom dir' offset = l.readFrom dir offset := by
  by_cases hle : base ≤ offset
  · rw [h.readFrom Record.torn_nil hle, h'.readFrom Record.torn_nil hle]
  · unfold Log.readFrom
    rw [h.firstBase_eq, h'.firstBase_eq, if_pos (not_le.mp hle), if_pos (not_le.mp hle)]

/-- **A log that waits reads as before.** -/
theorem Stalled.readFrom_eq {l' : Log} {dir dir' : Dir} (h : l.Serves dir.logs.view base rss rs [])
    (h' : l'.Stalled dir'.logs.view base rss rs) (offset : ℤ) :
    l'.readFrom dir' offset = l.readFrom dir offset := by
  -- the directory without the file that may be there
  obtain ⟨clean, hclean⟩ : ∃ clean : Dir, clean.logs = dir'.logs.erase l'.nextOffset :=
    ⟨⟨dir'.logs.erase l'.nextOffset, dir'.indexes⟩, rfl⟩
  have hview : clean.logs.view = Function.update dir'.logs.view l'.nextOffset none := by
    rw [hclean]
    funext b
    unfold Files.view
    by_cases hb : b = l'.nextOffset
    · rw [hb, Function.update_self, AList.lookup_erase]
    · rw [Function.update_of_ne hb, AList.lookup_erase_ne hb]
  have hserves : l'.Serves clean.logs.view base rss rs [] := hview ▸ h'.serves
  rw [← h.readFrom_eq hserves]
  refine readFrom_congr (fun s hs => ?_) offset
  have hpos := List.length_pos_iff.mpr h'.nonempty
  have hnext : l'.nextOffset = l'.active.baseOffset + rs.length := hserves.active.next
  have hle := hserves.base_le s hs
  rw [hclean, AList.lookup_erase_ne (by omega)]

end Log

namespace Rolling

/-! ## Logs in use, whose rolls may fail

The system has one party, and its steps are the calls on the log. Whether a
roll fails is part of the step. -/

/-- **What is asked of a log.** -/
inductive Act
  | append (key value : Option Bytes) (timestamp : Option ℤ) (clock : ℤ) (fault : Option Fault)
  | roll (fault : Option Fault)
  | sync

/-- Do it, on the log and its directory, with the answer it gives. -/
def exec (s : Log × Dir) : Act → Except PyError (Option ℤ) × Log × Dir
  | .append key value timestamp clock fault =>
    let (res, l, disk) := s.1.appendUnless (.of s.2) key value timestamp clock fault
    (res.map some, l, disk.dir)
  | .roll fault =>
    let (res, l, disk) := s.1.rollUnless (.of s.2) fault
    (res.map fun _ => none, l, disk.dir)
  | .sync =>
    let (res, l, disk) := s.1.sync (.of s.2)
    (res.map fun _ => none, l, disk.dir)

/-- **A log that has been opened**, whatever was in its directory, and what is
asked of it then. -/
def system : System (Log × Dir) Act where
  start s := ∃ disk directory maxSegmentBytes disk',
    Log.init disk directory maxSegmentBytes = (.ok s.1, disk') ∧ s.2 = disk'.dir
  step s act s' := (exec s act).2 = s'

/-- **`Segment(...)` is called and raises**, in an append that finds no room
or in a roll by hand. -/
inductive Fails (l : Log) (fault : Fault) : Act → Prop
  | append {key value : Option Bytes} {timestamp : Option ℤ} {clock : ℤ}
      (hfull : l.active.hasRoomFor (l.stamped key value timestamp clock) = false) :
      Fails l fault (.append key value timestamp clock (some fault))
  | roll (hne : l.active.position ≠ 0) : Fails l fault (.roll (some fault))

/-- **A log that is as appendable as it was**: the next offset and the records
are the same, and whatever comes next, each append that would have fitted the
old tail returns the next offset. -/
structure Undisturbed (s s' : Log × Dir) : Prop where
  nextOffset : s'.1.nextOffset = s.1.nextOffset
  records : ∀ offset, s'.1.readFrom s'.2 offset = s.1.readFrom s.2 offset
  appends : ∀ later, system.Leads s' later → ∀ key value timestamp clock,
    (later.1.stamped key value timestamp clock).Encodable →
    s.1.active.hasRoomFor (later.1.stamped key value timestamp clock) = true →
    (later.1.append (.of later.2) key value timestamp clock).1 = .ok later.1.nextOffset

/-! ## Steps and runs

Every log in use has an open tail or waits for one, and no step loses a
record: the two facts that make the offsets of later steps comparable. -/

variable {s s' : Log × Dir} {base : ℤ} {rss : List (List Record)} {rs : List Record}

/-- **One step** keeps a log upright, and loses no record. -/
theorem step_upright (h : s.1.Upright s.2.logs.view base rss rs) {act : Act}
    (hs' : system.step s act s') :
    ∃ rss' rs', s'.1.Upright s'.2.logs.view base rss' rs'
      ∧ rss.flatten ++ rs <+: rss'.flatten ++ rs' := by
  have h : s.1.Upright (Disk.of s.2).view base rss rs := h
  cases hs'
  cases act with
  | append key value timestamp clock fault =>
    obtain ⟨res, l', disk', rss', rs', happ, h', hrs⟩ := h.append key value timestamp clock fault
    refine ⟨rss', rs', ?_, hrs⟩
    simp only [exec, happ]
    exact h'
  | roll fault =>
    by_cases hne : rs = []
    · refine ⟨rss, rs, ?_, List.prefix_refl _⟩
      simp only [exec, Log.rollUnless, if_pos (h.active.position_eq_zero_iff.mpr hne)]
      exact h
    · cases fault with
      | none =>
        obtain ⟨l', disk', hroll, h', hopen⟩ := h.roll hne
        refine ⟨rss ++ [rs], [], ?_, by simp⟩
        simp only [exec, hroll]
        exact .ready h' hopen
      | some fault =>
        obtain ⟨l', disk', hroll, h', -⟩ := h.roll_fails hne fault
        refine ⟨rss, rs, ?_, List.prefix_refl _⟩
        simp only [exec, hroll]
        exact .stalled h'
  | sync =>
    refine ⟨rss, rs, ?_, List.prefix_refl _⟩
    cases h with
    | ready h hopen =>
      obtain ⟨l', disk', hsync, h', hopen'⟩ := h.sync hopen
      simp only [exec, hsync]
      exact .ready h' hopen'
    | stalled h =>
      simp only [exec, Log.sync, Segment.sync, if_pos h.closed]
      exact .stalled h

/-- **Every log in use** is upright. -/
theorem upright (h : system.Reachable s) : ∃ base rss rs, s.1.Upright s.2.logs.view base rss rs :=
  System.Reachable.invariant (S := system)
    (P := fun s => ∃ base rss rs, s.1.Upright s.2.logs.view base rss rs)
    (fun s ⟨disk, directory, maxSegmentBytes, disk', hinit, hdir⟩ => by
      obtain ⟨base, rss, rs, h, hopen⟩ := Log.init_eq_ok hinit
      exact ⟨base, rss, rs, hdir ▸ .ready h hopen⟩)
    (fun _ _ _ ⟨base, _, _, hP⟩ hstep => by
      obtain ⟨rss', rs', h', -⟩ := step_upright hP hstep
      exact ⟨base, rss', rs', h'⟩) h

/-- **The next offset does not go back.** -/
theorem nextOffset_le (h : s.1.Upright s.2.logs.view base rss rs) (hs' : system.Leads s s') :
    s.1.nextOffset ≤ s'.1.nextOffset := by
  obtain ⟨acts, hrun⟩ := hs'
  obtain ⟨rss', rs', h', hrs⟩ := hrun.keeps
    (P := fun s' => ∃ rss' rs', s'.1.Upright s'.2.logs.view base rss' rs'
      ∧ rss.flatten ++ rs <+: rss'.flatten ++ rs')
    (fun _ _ _ ⟨rss₁, rs₁, h₁, hrs₁⟩ hstep => by
      obtain ⟨rss', rs', h', hrs⟩ := step_upright h₁ hstep
      exact ⟨rss', rs', h', hrs₁.trans hrs⟩)
    ⟨rss, rs, h, List.prefix_refl _⟩
  rw [h.nextOffset_eq, h'.nextOffset_eq]
  have := hrs.length_le
  omega

/-- What `Log.Reached` reaches is reached where nothing fails. -/
theorem reachable_of_reached {l : Log} {dir : Dir} (h : Log.Reached l dir) :
    system.Reachable (l, dir) := by
  induction h with
  | init h => exact .start ⟨_, _, _, _, h, rfl⟩
  | append _ key value timestamp clock happ ih =>
    refine ih.step (e := .append key value timestamp clock none) ?_
    show (exec _ _).2 = _
    simp only [exec, Log.appendUnless_none, happ]
  | roll _ hroll ih =>
    refine ih.step (e := .roll none) ?_
    show (exec _ _).2 = _
    simp only [exec, Log.rollUnless_none, hroll]
  | sync _ hsync ih =>
    refine ih.step (e := .sync) ?_
    show (exec _ _).2 = _
    simp only [exec, hsync]

/-! ## A failed roll

What is to be shown is an equivalence over all that may come later. In one
direction the smallest record is appended at once; in the other, a record that
is stored later had no room in the old tail. -/

/-- The smallest record there is, under the next offset. -/
def smallest (l : Log) : Record := l.stamped none none (some 0) 0

/-- **A roll that fails** raises what `Segment(...)` raised, and leaves a log
that waits for a new tail. -/
theorem fails_stalled {l : Log} {dir : Dir} (h : l.Upright dir.logs.view base rss rs)
    {fault : Fault}
    {act : Act} (hfails : Fails l fault act) :
    ∃ l' dir', exec (l, dir) act = (.error fault.error, l', dir')
      ∧ l'.Stalled dir'.logs.view base rss rs ∧ ∀ r,
        l'.active.hasRoomFor r = l.active.hasRoomFor r := by
  have h : l.Upright (Disk.of dir).view base rss rs := h
  cases hfails with
  | append hfull =>
    obtain ⟨l', disk', happ, h', hroom⟩ := h.append_fails hfull fault
    refine ⟨l', disk'.dir, ?_, h', hroom⟩
    simp only [exec, happ]
    rfl
  | roll hne =>
    obtain ⟨l', disk', hroll, h', hroom⟩ :=
      h.roll_fails (mt h.active.position_eq_zero_iff.mpr hne) fault
    refine ⟨l', disk'.dir, ?_, h', hroom⟩
    simp only [exec, hroll]
    rfl

omit [Crc32] in
/-- A tail with room for a record has room for a smaller one. -/
theorem hasRoomFor_mono {seg : Segment} {r r' : Record} (hsize : r.size ≤ r'.size)
    (hroom : seg.hasRoomFor r' = true) : seg.hasRoomFor r = true := by
  unfold Segment.hasRoomFor at hroom ⊢
  split_ifs at hroom ⊢
  · rfl
  · rw [decide_eq_true_eq] at hroom ⊢
    push_cast at hroom ⊢
    omega

/-- **Where a record can be stored later, the smallest one could be stored
now.** -/
theorem smallest_encodable {l : Log} {v : ℤ → Option File} (h : l.Upright v base rss rs)
    (hne : rs ≠ []) {r : Record} (henc : r.Encodable) (hle : l.nextOffset ≤ r.offset) :
    (smallest l).Encodable where
  offset := by
    -- the last of the records has the offset before
    obtain ⟨front, last, hrs⟩ := List.eq_nil_or_concat' rs |>.resolve_left hne
    have hlast : -(Struct.Field.q.span / 2 : ℤ) ≤ last.offset
        ∧ last.offset < Struct.Field.q.span / 2 :=
      (h.active.valid last (by rw [hrs]; simp)).offset
    have hoff : -(Struct.Field.q.span / 2 : ℤ) ≤ r.offset ∧ r.offset < Struct.Field.q.span / 2 :=
      henc.offset
    have hcons := h.active.consecutive
    rw [hrs, Consecutive.append_iff] at hcons
    have hat : last.offset = l.active.baseOffset + front.length := hcons.2.1
    have hnext : l.nextOffset = l.active.baseOffset + rs.length := h.active.next
    rw [hrs, List.length_append, List.length_singleton] at hnext
    show -(Struct.Field.q.span / 2 : ℤ) ≤ l.nextOffset ∧ l.nextOffset < Struct.Field.q.span / 2
    omega
  timestamp := by
    show Struct.Field.q.Holds 0
    decide
  size := by
    show 20 + 0 + 0 ≤ Record.maxSize
    decide

/-- **What a failed roll does.** It raises what `Segment(...)` raised; the next
offset and all records are unchanged. But the log is as appendable as it was
exactly where no record could have been put into the old tail any more: the
smallest one has an offset that cannot be encoded, or does not fit. -/
theorem undisturbed_iff (h : system.Reachable s) (hopen : s.1.active.closed = false) {fault : Fault}
    {act : Act} (hfails : Fails s.1 fault act) :
    let out := exec s act
    out.1 = .error fault.error ∧ out.2.1.nextOffset = s.1.nextOffset
      ∧ (∀ offset, out.2.1.readFrom out.2.2 offset = s.1.readFrom s.2 offset)
      ∧ (Undisturbed s out.2
        ↔ ¬((smallest s.1).Encodable ∧ s.1.active.hasRoomFor (smallest s.1) = true)) := by
  obtain ⟨base, rss, rs, hup⟩ := upright h
  obtain ⟨l, dir⟩ := s
  cases hup with
  | stalled hstalled => rw [hstalled.closed] at hopen; cases hopen
  | ready hserves _ =>
  have hup : l.Upright dir.logs.view base rss rs := .ready hserves hopen
  obtain ⟨l', dir', hexec, hstalled, hroom⟩ := fails_stalled hup hfails
  have hup' : l'.Upright dir'.logs.view base rss rs := .stalled hstalled
  have hnext : l'.nextOffset = l.nextOffset := hup'.nextOffset_eq.trans hup.nextOffset_eq.symm
  have hreads := hstalled.readFrom_eq hserves
  simp only [hexec]
  refine ⟨trivial, hnext, hreads, fun hsame ⟨henc, hfits⟩ => ?_, fun hnone => ⟨hnext, hreads, ?_⟩⟩
  · -- the smallest record goes to the sealed tail
    have hsmallest : l'.stamped none none (some 0) 0 = smallest l := by
      unfold smallest Log.stamped
      rw [hnext]
    have happ := hsame.appends (l', dir') (.refl _) none none (some 0) 0 (by rwa [hsmallest])
      (by rwa [hsmallest])
    have hstalled : l'.Stalled (Disk.of dir').view base rss rs := hstalled
    have hroom' : l'.active.hasRoomFor (l'.stamped none none (some 0) 0) = true := by
      rwa [hsmallest, hroom]
    obtain ⟨e, hrefused⟩ := hstalled.append_fits none hroom'
    rw [← Log.appendUnless_none, hrefused] at happ
    cases happ
  · intro later hlater key value timestamp clock henc hfits
    refine absurd ⟨?_, hasRoomFor_mono ?_ hfits⟩ hnone
    · refine smallest_encodable hup hstalled.nonempty henc ?_
      rw [← hnext]
      exact nextOffset_le hup' hlater
    · rw [Record.size_eq, Record.size_eq]
      show 32 + 0 + 0 ≤ _
      omega

omit [Crc32] in
/-- A roll by hand fails, behind a record that has filled its segment. -/
theorem undisturbed_full : let _ := Crc32.zlib
    Undisturbed Log.full (exec Log.full (.roll (some ⟨0, .osError⟩))).2 := by
  intro _
  have hopen : Log.full.1.active.closed = false := by decide +kernel
  have hne : Log.full.1.active.position ≠ 0 := by decide +kernel
  have hfull : Log.full.1.active.hasRoomFor (smallest Log.full.1) = false := by decide +kernel
  refine (undisturbed_iff (reachable_of_reached Log.reached_full) hopen (.roll hne)).2.2.2.mpr ?_
  rw [hfull]
  exact fun h => by cases h.2

/-! ### A tail with room -/

/-- A log with one record, in a segment that takes many. -/
def roomy : Log × Dir :=
  Log.appended (Log.new ⟨2 ^ 30, default_max_segment_bytes⟩) none none (some 0) 0

/-- It, after a roll by hand for which there was no file handle. -/
def roomySealed : Log × Dir := (exec roomy (.roll (some ⟨0, .osError⟩))).2

omit [Crc32] in
/-- **After a failed roll** a record that fits the tail is refused. -/
theorem failed_roll_refuses : let _ := Crc32.zlib
    system.Reachable roomy ∧ roomy.1.active.closed = false
      ∧ Fails roomy.1 ⟨0, .osError⟩ (.roll (some ⟨0, .osError⟩))
      ∧ roomy.1.active.hasRoomFor (roomySealed.1.stamped none none (some 0) 0) = true
      ∧ (roomySealed.1.append (.of roomySealed.2) none none (some 0) 0).1
        = .error (.valueError "write to closed file")
      ∧ ¬Undisturbed roomy roomySealed := by
  intro _
  have hfits : roomy.1.active.hasRoomFor (roomySealed.1.stamped none none (some 0) 0) = true := by
    decide +kernel
  have hrefused : (roomySealed.1.append (.of roomySealed.2) none none (some 0) 0).1
      = .error (.valueError "write to closed file") := by
    decide +kernel
  refine ⟨reachable_of_reached ((Log.reached_new _).appended none none (some 0) 0),
    by decide +kernel, .roll (by decide +kernel), hfits, hrefused, fun hsame => ?_⟩
  have happ := hsame.appends roomySealed (.refl _) none none (some 0) 0 (by decide +kernel) hfits
  rw [hrefused] at happ
  cases happ

end Rolling

end Pyka
