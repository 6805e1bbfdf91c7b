import Pyka.Base.Machine
import Pyka.Storage.Handles
import Pyka.Storage.Reached

/-!
# What leaves a log untouched

An append that raises, and whatever is asked of a log after it has been
closed, should leave the log and its files as they are. Both come down to the
same thing: `append` and `roll` replace a tail that is full before anything
looks at the record or at the tail's handle. So a rejected record leaves the
log untouched exactly where the tail has room for it (`Log.append_rejected`),
and a closed log stays as it is exactly as long as nothing that comes finds
its tail full (`Log.closed_iff`).

## The order of the checks

`append` asks first whether the active segment has room, and rolls if it has
not; only then does the segment encode the record. A record that cannot be
encoded has a size all the same, and where that size does not fit it seals the
tail on its way to being refused. What is left is a log with an empty segment
at its end, which is in order and reads as before; it is only not the log it
was.

After `close` all segments are sealed, and an append that fits the tail is
refused by the closed handle. One that does not fit rolls: sealing what is
sealed does nothing, and the new segment comes with an open handle, to which
the record is written. A roll by hand does the same on a tail that is not
empty. The question that decides both theorems is therefore `has_room_for`,
which the source asks itself and answers from the position, the record's size
and the limit.
-/

namespace Pyka

open Struct (Bytes)
open Record (framing)

/-- What is seen of a segment from outside: its base, its size, and whether it
is sealed. -/
def Segment.shape (s : Segment) : ℤ × ℕ × Bool := (s.baseOffset, s.position, s.closed)

namespace Log

/-- **A log as it was**: the same segments, the same bytes in the files, and
the same offset to come. -/
structure Untouched (l : Log) (dir : Dir) (l' : Log) (dir' : Dir) : Prop where
  segments : l'.segments.map Segment.shape = l.segments.map Segment.shape
  files : SameFiles dir dir'
  active : l'.active = l.active
  nextOffset : l'.nextOffset = l.nextOffset

/-- A log is as it is. -/
theorem Untouched.refl (l : Log) (dir : Dir) : Untouched l dir l dir :=
  ⟨rfl, .refl dir, rfl, rfl⟩

variable [Crc32]

/-! ## Rejected records

The record is rejected by `encode`, for a number that does not fit or a
payload that is too long. Nothing of it is written in either case. -/

section Rejected

variable {l : Log} {dir : Dir} {key value : Option Bytes} {timestamp : Option ℤ} {clock : ℤ}

/-- **What a rejected record leaves behind.** The append raises what `encode`
raises, and the next offset is the same. All else is as it was exactly where
the tail has room for the record; otherwise the tail has been sealed and an
empty segment stands behind it. -/
theorem append_rejected (h : Reached l dir) {e : PyError}
    (he : (l.stamped key value timestamp clock).encode = .error e) :
    let out := l.append (.of dir) key value timestamp clock
    out.1 = .error e ∧ out.2.1.nextOffset = l.nextOffset
      ∧ (Untouched l dir out.2.1 out.2.2.dir
        ↔ l.active.hasRoomFor (l.stamped key value timestamp clock) = true)
      ∧ (l.active.hasRoomFor (l.stamped key value timestamp clock) = false →
        out.2.1.segments.map Segment.shape = l.older.map Segment.shape
          ++ [(l.active.baseOffset, l.active.position, true), (l.nextOffset, 0, false)]) := by
  obtain ⟨base, rss, rs, hs, hopen⟩ := h.serves
  have hs : l.Serves (Disk.of dir).view base rss rs [] := hs
  rw [hs.append_refused hopen he]
  by_cases hroom : l.active.hasRoomFor (l.stamped key value timestamp clock) = true
  · rw [if_pos hroom]
    refine ⟨rfl, rfl, ⟨fun _ => hroom, fun _ => .refl l dir⟩, fun hno => ?_⟩
    rw [hroom] at hno
    cases hno
  · have hne : rs ≠ [] := fun hnil => hroom <| by
      unfold Segment.hasRoomFor
      rw [if_pos (hs.active.position_eq_zero_iff.mpr hnil)]
    obtain ⟨sealed, active, disk', hroll, hs', hopen', hb, hclosed, hsb, -, hpos⟩ :=
      hs.roll hopen hne
    rw [if_neg hroom, hroll]
    have hempty : active.position = 0 := hs'.active.position_eq_zero_iff.mpr rfl
    have hsegs : (Log.segments { l with older := l.older ++ [sealed], active }).map Segment.shape
        = l.older.map Segment.shape
          ++ [(l.active.baseOffset, l.active.position, true), (l.nextOffset, 0, false)] := by
      simp only [Log.segments, List.map_append, List.map_cons, List.map_nil, List.append_assoc,
        Segment.shape, hsb, hpos, hclosed, hb, hempty, hopen']
      rfl
    refine ⟨rfl, ?_, ⟨fun hsame => ?_, fun hyes => absurd hyes hroom⟩, fun _ => hsegs⟩
    · show active.nextOffset = _
      rw [hs'.active.next, hb, List.length_nil, Nat.cast_zero, add_zero]
    · -- there is one segment more
      have hlen := congrArg List.length hsame.segments
      simp only [Log.segments, List.length_map, List.length_append, List.length_singleton] at hlen
      omega

end Rejected

/-! ## Closed logs

What comes late: a thread that still has the log, after another one has closed
it. The calls come one after the other, as each holds the log's lock. -/

/-- The open segments of a log that serves reads have their indexes open. -/
theorem Serves.sound {l : Log} {v : ℤ → Option File} {base : ℤ} {rss : List (List Record)}
    {rs : List Record} {t : Bytes} (h : l.Serves v base rss rs t) : l.Sound := fun s hs hopen => by
  rcases mem_segments.mp hs with hs | rfl
  · rw [h.older.closed_eq s hs] at hopen
    cases hopen
  · rw [h.active.index_closed, hopen]

/-- **What may still be asked of a log.** -/
inductive Late
  | append (key value : Option Bytes) (timestamp : Option ℤ) (clock : ℤ)
  | roll
  | sync
  | close

namespace Late

/-- Do it: a call on the log, with the answer it gives. -/
def exec (l : Log) (disk : Disk) : Late → Except PyError (Option ℤ) × Log × Disk
  | append key value timestamp clock =>
    let (res, l, disk) := l.append disk key value timestamp clock
    (res.map some, l, disk)
  | roll =>
    let (res, l, disk) := l.roll disk
    (res.map fun _ => none, l, disk)
  | sync =>
    let (res, l, disk) := l.sync disk
    (res.map fun _ => none, l, disk)
  | close =>
    let (res, l, disk) := l.close disk
    (res.map fun _ => none, l, disk)

/-- One thing after the other, on the log and its directory. -/
def machine : Machine (Log × Dir) Late (Except PyError (Option ℤ)) where
  step := fun s late =>
    let (res, l, disk) := late.exec s.1 (.of s.2)
    (res, l, disk.dir)

omit [Crc32] in
/-- It finds no full tail: there is room for the record, or nothing to seal. -/
def Harmless (l : Log) : Late → Prop
  | append key value timestamp clock => l.active.hasRoomFor (l.stamped key value timestamp clock)
    = true
  | roll => l.active.position = 0
  | _ => True

omit [Crc32] in
/-- An append is refused; the other calls have no record to refuse. -/
def Refused : Late × Except PyError (Option ℤ) → Prop
  | (append .., answer) => ∃ e, answer = .error e
  | _ => True

end Late

/-- **Nothing is written**: the files and the next offset are what they were,
and every append has been refused. -/
def Quiet (l : Log) (dir : Dir) (lates : List Late) : Prop :=
  let out := Late.machine.run (l, dir) lates
  SameFiles dir out.2.2 ∧ out.2.1.nextOffset = l.nextOffset ∧ ∀ e ∈ lates.zip out.1, Late.Refused e

section Closed

variable {l : Log} {disk : Disk} {late : Late}

omit [Crc32] in
/-- Closing closed segments does nothing. -/
theorem closeEach_of_all_closed {segs : List Segment} (h : ∀ s ∈ segs, s.closed = true)
    (disk : Disk) :
    closeEach segs disk = ([], segs, disk) := by
  induction segs with
  | nil => rfl
  | cons s segs ih =>
    unfold closeEach
    simp only [Segment.close_of_closed (h s List.mem_cons_self),
      ih fun x hx => h x (List.mem_cons_of_mem _ hx)]

/-- **What finds no full tail** leaves a closed log and its files as they
are. -/
theorem exec_harmless (disk : Disk) (hclosed : ∀ s ∈ l.segments, s.closed = true)
    (hsafe : late.Harmless l) :
    ∃ answer, late.exec l disk = (answer, l, disk) ∧ Late.Refused (late, answer) := by
  have hactive : l.active.closed = true := hclosed _ (mem_segments.mpr (.inr rfl))
  have holder : ∀ s ∈ l.older, s.closed = true := fun s hs => hclosed s (mem_segments.mpr (.inl hs))
  cases late with
  | append key value timestamp clock =>
    obtain ⟨e, happ⟩ := Segment.append_of_closed hactive disk (l.stamped key value timestamp clock)
    refine ⟨.error e, ?_, e, rfl⟩
    have hroom : l.active.hasRoomFor ⟨l.nextOffset, timestamp.getD clock, key, value⟩
      = true := hsafe
    unfold stamped at happ
    simp only [Late.exec, Log.append, if_pos hroom, happ]
    rfl
  | roll =>
    refine ⟨.ok none, ?_, trivial⟩
    have hempty : l.active.position = 0 := hsafe
    simp only [Late.exec, Log.roll, if_pos hempty]
    rfl
  | sync =>
    refine ⟨.error (.valueError "flush of closed file"), ?_, trivial⟩
    simp only [Late.exec, Log.sync, Segment.sync, if_pos hactive]
    rfl
  | close =>
    refine ⟨.ok none, ?_, trivial⟩
    simp only [Late.exec, Log.close, closeEach_of_all_closed holder,
      Segment.close_of_closed hactive]
    rfl

variable {base : ℤ} {rss : List (List Record)} {rs : List Record}

/-- A closed log whose tail is not empty rolls: a file is there that was not. -/
theorem roll_of_closed (h : l.Serves disk.view base rss rs []) (hclosed : l.active.closed = true)
    (hne : rs ≠ []) :
    ∃ active disk',
      l.roll disk = (.ok (), { l with older := l.older ++ [l.active], active }, disk')
      ∧ Serves { l with older := l.older ++ [l.active], active } disk'.view base (rss ++ [rs]) [] []
      ∧ active.closed = false ∧ active.baseOffset = l.nextOffset
      ∧ disk.view l.nextOffset = none ∧ (disk'.view l.nextOffset).isSome = true := by
  obtain ⟨active, disk', hinit, h', hopen, hb, hnone, hsome⟩ := h.start hclosed hne
  refine ⟨active, disk', ?_, h', hopen, hb, hnone, hsome⟩
  unfold Log.roll
  rw [if_neg fun h0 => hne (h.active.position_eq_zero_iff.mp h0), Segment.close_of_closed hclosed]
  simp only [hinit]

/-- **What finds a full tail** replaces it: a file is there that was not. -/
theorem exec_harmful (disk : Disk) (h : l.Serves disk.view base rss rs [])
    (hclosed : ∀ s ∈ l.segments, s.closed = true) (hharm : ¬late.Harmless l) :
    disk.view l.nextOffset = none ∧ ((late.exec l disk).2.2.view l.nextOffset).isSome = true := by
  have hactive : l.active.closed = true := hclosed _ (mem_segments.mpr (.inr rfl))
  have hempty : rs = [] → l.active.position = 0 := h.active.position_eq_zero_iff.mpr
  cases late with
  | append key value timestamp clock =>
    have hroom : ¬l.active.hasRoomFor (l.stamped key value timestamp clock) = true := hharm
    have hne : rs ≠ [] := fun hnil => hroom <| by
      unfold Segment.hasRoomFor
      rw [if_pos (hempty hnil)]
    obtain ⟨active, disk', hroll, h', hopen, hb, hnone, hsome⟩ := roll_of_closed h hactive hne
    refine ⟨hnone, ?_⟩
    unfold stamped at hroom
    simp only [Late.exec, Log.append, if_neg hroom, hroll]
    have hoff : (l.stamped key value timestamp clock).offset = active.nextOffset := by
      rw [h'.active.next, hb, List.length_nil, Nat.cast_zero, add_zero]
      rfl
    unfold stamped at hoff
    cases he : (l.stamped key value timestamp clock).encode with
    | error e =>
      unfold stamped at he
      simp only [Segment.append, Segment.encodeNext_refused hoff he]
      exact hsome
    | ok bs =>
      have henc := ((Record.encode_eq_ok_iff _ _).mp he).1
      have hfit : active.hasRoomFor (l.stamped key value timestamp clock) = true := by
        unfold Segment.hasRoomFor
        rw [if_pos (h'.active.position_eq_zero_iff.mpr rfl)]
      obtain ⟨active', disk'', happ, hwritten, -⟩ := h'.write hopen henc hoff hfit
      unfold stamped at happ
      simp only at happ
      simp only [happ]
      obtain ⟨f, hf, -⟩ := hwritten.tail
      have hat : base + ((rss ++ [rs]).flatten.length : ℕ) = l.nextOffset := by
        rw [← h'.active_base]
        exact hb
      rw [hat] at hf
      rw [hf]
      rfl
  | roll =>
    have hne : rs ≠ [] := fun hnil => hharm (hempty hnil)
    obtain ⟨active, disk', hroll, -, -, -, hnone, hsome⟩ := roll_of_closed h hactive hne
    refine ⟨hnone, ?_⟩
    simp only [Late.exec, hroll]
    exact hsome
  | sync => exact absurd trivial hharm
  | close => exact absurd trivial hharm

/-- What finds no full tail makes no difference. -/
theorem quiet_cons {dir : Dir} {lates : List Late} (hclosed : ∀ s ∈ l.segments, s.closed = true)
    (hsafe : late.Harmless l) : Quiet l dir (late :: lates) ↔ Quiet l dir lates := by
  obtain ⟨answer, hexec, hrefused⟩ := exec_harmless (.of dir) hclosed hsafe
  have hrun : Late.machine.run (l, dir) (late :: lates)
      = (answer :: (Late.machine.run (l, dir) lates).1, (Late.machine.run (l, dir) lates).2) := by
    simp only [Machine.run, Late.machine, hexec]
    rfl
  unfold Quiet
  simp only [hrun, List.zip_cons_cons, List.forall_mem_cons, hrefused, true_and]

/-- A closed log stays as it is, all along, exactly where nothing finds a full
tail: the first that does is seen in the files. -/
theorem quiet_iff (dir : Dir) (h : l.Serves dir.logs.view base rss rs [])
    (hclosed : ∀ s ∈ l.segments, s.closed = true) (lates : List Late) :
    (∀ k, Quiet l dir (lates.take k)) ↔ ∀ late ∈ lates, late.Harmless l := by
  have hnil : Quiet l dir [] := ⟨.refl dir, rfl, fun _ he => by cases he⟩
  induction lates with
  | nil => exact ⟨fun _ _ hlate => (by cases hlate), fun _ k => by rwa [List.take_nil]⟩
  | cons late lates ih =>
    rw [List.forall_mem_cons]
    constructor
    · intro hquiet
      have hsafe : late.Harmless l := by
        by_contra hharm
        obtain ⟨hnone, hsome⟩ := exec_harmful (.of dir) h hclosed hharm
        have hsame : ((late.exec l (.of dir)).2.2.view l.nextOffset).map File.content
            = ((Disk.of dir).view l.nextOffset).map File.content := (hquiet 1).1.logs l.nextOffset
        rw [hnone] at hsame
        rw [← Option.isSome_map (f := File.content), hsame] at hsome
        cases hsome
      exact ⟨hsafe, ih.mp fun k => (quiet_cons hclosed hsafe).mp (hquiet (k + 1))⟩
    · rintro ⟨hsafe, hrest⟩ k
      cases k with
      | zero => exact hnil
      | succ k => exact (quiet_cons hclosed hsafe).mpr (ih.mpr hrest k)

/-- **What a closed log does.** Nothing is written, at any moment of what
comes late, exactly where none of it finds a full tail: every late roll finds
the tail empty, and every late append finds it empty or with room for its
record. -/
theorem closed_iff {l₀ : Log} {dir : Dir} {res : Except PyError Unit} (h : Reached l₀ dir)
    (hclose : l₀.close (.of dir) = (res, l, disk)) (lates : List Late) :
    (∀ k, Quiet l disk.dir (lates.take k)) ↔ ∀ late ∈ lates, late.Harmless l := by
  obtain ⟨base, rss, rs, hs, hopen⟩ := h.serves
  have hclosed := close_closed hs.sound hclose
  have hs : l₀.Serves (Disk.of dir).view base rss rs [] := hs
  obtain ⟨l', disk', hclose', hs', -⟩ := hs.close hopen
  cases hclose.symm.trans hclose'
  exact quiet_iff disk.dir hs' hclosed lates

end Closed

/-! ## A full tail

A segment limit of one byte is full with one record. With it both failures are
a few calls long. -/

/-- No record has a timestamp of 64 bits without a sign. -/
theorem encode_late (offset : ℤ) :
    Record.encode ⟨offset, 2 ^ 63, none, none⟩ = .error .structError := rfl

omit [Crc32] in
/-- **A rejected record seals the tail.** -/
theorem rejected_rolls : let _ := Crc32.zlib
    let out := full.1.append (.of full.2) none none (some (2 ^ 63)) 0
    Reached full.1 full.2
      ∧ (full.1.stamped none none (some (2 ^ 63)) 0).encode = .error .structError
      ∧ out.1 = .error .structError
      ∧ full.1.segments.map Segment.shape = [(0, 32, false)]
      ∧ out.2.1.segments.map Segment.shape = [(0, 32, true), (1, 0, false)]
      ∧ ¬Untouched full.1 full.2 out.2.1 out.2.2.dir := by
  intro _ out
  have hbefore : full.1.segments.map Segment.shape = [(0, 32, false)] := by decide +kernel
  have hafter : out.2.1.segments.map Segment.shape = [(0, 32, true), (1, 0, false)] := by
    decide +kernel
  refine ⟨reached_full, encode_late _, by decide +kernel, hbefore, hafter, fun hsame => ?_⟩
  have hsegs := hsame.segments
  rw [hbefore, hafter] at hsegs
  exact absurd hsegs (by decide)

omit [Crc32] in
/-- A tail with two records and room for a third rejects one, and is as it
was. -/
theorem append_rejected_roomy : let _ := Crc32.zlib
    roomy.1.segments.map Segment.shape = [(0, 66, false)]
      ∧ ∃ l disk, roomy.1.append (.of roomy.2) none none (some (2 ^ 63)) 0
          = (.error .structError, l, disk)
        ∧ l.nextOffset = roomy.1.nextOffset ∧ Untouched roomy.1 roomy.2 l disk.dir := by
  intro _
  have hshape : roomy.1.segments.map Segment.shape = [(0, 66, false)] := by decide +kernel
  have hroom : roomy.1.active.hasRoomFor (roomy.1.stamped none none (some (2 ^ 63)) 0) = true := by
    decide +kernel
  have hreached := reached_roomy
  generalize roomy = log at hshape hroom hreached ⊢
  have he : (log.1.stamped none none (some (2 ^ 63)) 0).encode = .error .structError :=
    encode_late _
  obtain ⟨hanswer, hnext, huntouched, -⟩ := append_rejected hreached he
  exact ⟨hshape, _, _, Prod.ext hanswer rfl, hnext, huntouched.mpr hroom⟩

/-- The log that one record has filled, closed. -/
def fullClosed : Log × Dir :=
  let out := full.1.close (.of full.2)
  (out.2.1, out.2.2.dir)

omit [Crc32] in
/-- **A closed log writes.** -/
theorem closed_writes : let _ := Crc32.zlib
    let out := Late.machine.run fullClosed [.append none none (some 0) 0]
    out.1 = [.ok (some 1)] ∧ fullClosed.2.logs.view 1 = none
      ∧ (out.2.2.logs.view 1).map (fun f => f.content.length) = some 32
      ∧ out.2.1.nextOffset = 2
      ∧ ¬Quiet fullClosed.1 fullClosed.2 [.append none none (some 0) 0] := by
  intro _ out
  have hanswer : out.1 = [.ok (some 1)] := by decide +kernel
  refine ⟨hanswer, by decide +kernel, by decide +kernel, by decide +kernel, fun hquiet => ?_⟩
  have hrefused := hquiet.2.2
  simp only [Prod.mk.eta] at hrefused
  rw [hanswer] at hrefused
  obtain ⟨e, he⟩ := hrefused _ (List.mem_singleton_self _)
  cases he

omit [Crc32] in
/-- A log of two records with room for more is closed. Two appends, a sync and
another close come late, and nothing is written. -/
theorem closed_iff_roomy : let _ := Crc32.zlib
    ∃ res l disk, roomy.1.close (.of roomy.2) = (res, l, disk)
      ∧ l.segments.map Segment.shape = [(0, 66, true)]
      ∧ ∀ k, Quiet l disk.dir (List.take k
        [.append none (some [7]) none 5, .sync, .append (some []) none (some 9) 0, .close]) := by
  intro _
  have hfacts : ((roomy.1.close (.of roomy.2)).2.1.segments.map Segment.shape,
      (roomy.1.close (.of roomy.2)).2.1.active.hasRoomFor
        ((roomy.1.close (.of roomy.2)).2.1.stamped none (some [7]) none 5),
      (roomy.1.close (.of roomy.2)).2.1.active.hasRoomFor
        ((roomy.1.close (.of roomy.2)).2.1.stamped (some []) none (some 9) 0))
      = ([(0, 66, true)], true, true) := by
    decide +kernel
  have hreached := reached_roomy
  generalize roomy = log at hfacts hreached ⊢
  cases hclose : log.1.close (.of log.2) with
  | mk res rest =>
  obtain ⟨l, disk⟩ := rest
  rw [hclose] at hfacts
  simp only [Prod.mk.injEq] at hfacts
  obtain ⟨hshape, hroom, hroom'⟩ := hfacts
  refine ⟨res, l, disk, rfl, hshape, (closed_iff hreached hclose _).mpr fun late hlate => ?_⟩
  simp only [List.mem_cons, List.not_mem_nil, or_false] at hlate
  rcases hlate with rfl | rfl | rfl | rfl
  · exact hroom
  · exact trivial
  · exact hroom'
  · exact trivial

end Log

end Pyka
