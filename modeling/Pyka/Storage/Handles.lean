import Pyka.Storage.Log

/-!
# The handles a log writes with

A segment has a handle to write with until it is closed, and reads need none.
A log has one while one of its segments does (`Log.Writable`): from when it is
opened until it is closed, and then again if an append rolls it
(`Log.writable_append`).

A segment that is open has its index open (`Segment.Sound`), so that nothing
keeps a log from closing.

## What the handle decides

In the source "only the tail is writable" is not a check but a fact about
handles: a sealed segment has nothing to write with. Who holds a handle is
therefore the question behind every statement about two logs on one directory.
A log object that somebody still refers to does no harm as long as it has no
handle, and does harm as soon as it gets one, since the two would write to one
file behind each other's back. The results on who writes to a partition
(`Pyka.Topic.Sharing`) count the objects that are `Writable`.

## Two handles to a segment

A segment holds two, one for the log and one for the index, and `close` gives
up the second after the first. An exception between the two would leave a
segment that is closed and an index that is not. `Segment.Sound` excludes the
opposite, an open segment whose index is closed, which is the one state in
which closing would raise: `Index.sync` cannot flush a closed file. Every
operation keeps it, also where it raises, and it holds after an opening.

Nothing here is about what a log holds. The lemmas go through the methods and
look at the handles only, so they hold of logs in any state – one whose files
are damaged, or in which an append has just failed.
-/

namespace Pyka

open Struct (Bytes)

variable [Crc32]

/-! ## Segments

What each method does to the two handles. Opening takes both, closing gives up
both, and the methods in between leave them alone, whatever they answer. -/

namespace Segment

/-- An open segment has its index open, so that it can be synced and closed. -/
def Sound (s : Segment) : Prop := s.closed = false → s.index.closed = false

/-- The scan that opens a segment leaves the index's handle as it is: it feeds
the index, and feeding writes to a buffer. -/
theorem closed_recoverLoop {name : String} {f : Stream} {ix ix' : Index}
    {nextOffset nextOffset' : ℤ}
    {position position' : ℕ}
    (h : recoverLoop name f ix nextOffset position = .ok (nextOffset', position', ix')) :
    ix'.closed = ix.closed := by
  fun_induction recoverLoop name f ix nextOffset position with
  | case1 => cases h
  | case2 =>
    cases h
    rfl
  | case3 => cases h
  | case4 => cases h
  | case5 f ix nextOffset position r f' hr hoff ix₁ happend ih =>
    exact (ih h).trans (Index.maybeAppend_eq_ok happend).2.2.1

/-- A segment just opened has a handle, and so has its index. -/
theorem init_open {disk disk' : Disk} {base maxBytes : ℤ} {s : Segment}
    (h : init disk base maxBytes = (.ok s, disk')) : s.closed = false ∧ s.index.closed = false := by
  unfold init at h
  split_ifs at h with hlimit
  · simp only [recover] at h
    split at h
    · cases h
    · rename_i nextOffset position index disk₁ hrecover
      split at hrecover
      · cases hrecover
      · rename_i hloop
        cases hrecover
        cases h
        exact ⟨rfl, closed_recoverLoop hloop⟩
  · cases h

/-- Appending leaves a segment's handles as they are, also where it raises. -/
theorem append_closed {s s' : Segment} {disk disk' : Disk} {r : Record} {res : Except PyError ℕ}
    (h : s.append disk r = (res, s', disk')) :
    s'.closed = s.closed ∧ s'.index.closed = s.index.closed := by
  unfold append at h
  split at h
  · cases h
    exact ⟨rfl, rfl⟩
  · simp only [advance] at h
    split_ifs at h
    · cases h
      exact ⟨rfl, rfl⟩
    · split at h
      · cases h
        exact ⟨rfl, rfl⟩
      · rename_i happend
        cases h
        exact ⟨rfl, (Index.maybeAppend_eq_ok happend).2.2.1⟩

omit [Crc32] in
/-- So does syncing, which only flushes them. -/
theorem sync_closed {s s' : Segment} {disk disk' : Disk} {res : Except PyError Unit}
    (h : s.sync disk = (res, s', disk')) :
    s'.closed = s.closed ∧ s'.index.closed = s.index.closed := by
  unfold sync at h
  split_ifs at h
  · cases h
    exact ⟨rfl, rfl⟩
  · simp only [Index.sync] at h
    split_ifs at h <;> cases h <;> exact ⟨rfl, rfl⟩

omit [Crc32] in
/-- Closing an open segment, or a closed one, leaves it closed: with its index
open there is nothing that could raise on the way. -/
theorem close_closed {s s' : Segment} (hs : s.Sound) {disk disk' : Disk} {res : Except PyError Unit}
    (h : s.close disk = (res, s', disk')) : s'.closed = true := by
  unfold close at h
  split_ifs at h with hclosed
  · cases h
    exact hclosed
  · have hindex := hs (Bool.eq_false_iff.mpr hclosed)
    simp only [sync, Index.sync, Index.close, hclosed, hindex, Bool.false_eq_true, if_false] at h
    cases h
    rfl

/-- A closed segment takes no record: if nothing else refuses it, writing to
the closed handle does. -/
theorem append_of_closed {s : Segment} (hs : s.closed = true) (disk : Disk) (r : Record) :
    ∃ e, s.append disk r = (.error e, s, disk) := by
  have herror : ∃ e, s.encodeNext r = .error e := by
    cases he : s.encodeNext r with
    | error e => exact ⟨e, rfl⟩
    | ok bs =>
      simp only [encodeNext, bind_eq_ok, raiseIf_eq_ok] at he
      obtain ⟨-, -, -, -, -, hopen, -⟩ := he
      exact absurd hs hopen
  obtain ⟨e, he⟩ := herror
  refine ⟨e, ?_⟩
  unfold append
  rw [he]

end Segment

/-! ## Logs

A log's handles are those of its segments. Opening seals all segments but the
last, so a log that runs has one handle; that it never has more is not needed
here. -/

namespace Log

/-- **A log with a handle to write with**: one of its segments, whichever, is
open. -/
def Writable (l : Log) : Prop := ∃ s ∈ l.segments, s.closed = false

/-- Its open segments have their indexes open. -/
def Sound (l : Log) : Prop := ∀ s ∈ l.segments, s.Sound

omit [Crc32] in
/-- The segments are the older ones and the active one. -/
theorem mem_segments {l : Log} {s : Segment} : s ∈ l.segments ↔ s ∈ l.older ∨ s = l.active := by
  rw [segments, List.mem_append, List.mem_singleton]

omit [Crc32] in
/-- A log whose last segment only has changed is sound if that one is. -/
theorem Sound.setActive {l : Log} (h : l.Sound) {s : Segment} (hs : s.Sound) :
    Sound { l with active := s } := fun x hx => by
  rcases mem_segments.mp hx with hx | rfl
  · exact h x (mem_segments.mpr (.inl hx))
  · exact hs

omit [Crc32] in
/-- It has a handle, if the segment has none it had not: what the older
segments have is theirs. -/
theorem Writable.of_setActive {l : Log} {s : Segment}
    (hs : s.closed = false → l.active.closed = false)
    (h : Writable { l with active := s }) : l.Writable := by
  obtain ⟨x, hx, hopen⟩ := h
  rcases mem_segments.mp hx with hx | rfl
  · exact ⟨x, mem_segments.mpr (.inl hx), hopen⟩
  · exact ⟨l.active, mem_segments.mpr (.inr rfl), hs hopen⟩

/-! ### Opening

An opening that raises leaves no log; the segments it had opened by then are
dropped with their handles. One that returns has gone through every segment. -/

/-- The segments of a directory, just opened, one after the other. -/
theorem openAll_sound {maxBytes base : ℤ} {bases : List ℤ} {disk disk' : Disk}
    {older : List Segment} {active : Segment}
    (h : openAll maxBytes base bases disk = (.ok (older, active), disk')) :
    (∀ s ∈ older, s.Sound) ∧ active.Sound := by
  induction bases generalizing base disk disk' older active with
  | nil =>
    unfold openAll at h
    split at h
    · cases h
    · rename_i hinit
      cases h
      exact ⟨(fun _ hs => by cases hs), fun _ => (Segment.init_open hinit).2⟩
  | cons next bases ih =>
    unfold openAll at h
    split at h
    · cases h
    · rename_i s disk₁ hinit
      split at h
      · cases h
      · rename_i rest active' disk₂ hopen
        cases h
        obtain ⟨hrest, hactive⟩ := ih hopen
        refine ⟨fun x hx => ?_, hactive⟩
        rcases List.mem_cons.mp hx with rfl | hx
        · exact fun _ => (Segment.init_open hinit).2
        · exact hrest x hx

omit [Crc32] in
/-- Closing a segment keeps it sound, whether it returns or raises. -/
theorem sound_close {s s' : Segment} (hs : s.Sound) {disk disk' : Disk} {res : Except PyError Unit}
    (h : s.close disk = (res, s', disk')) : s'.Sound := fun hopen => by
  rw [Segment.close_closed hs h] at hopen
  cases hopen

omit [Crc32] in
/-- Closing segments keeps them sound, up to the first that raises and behind
it. -/
theorem closeAll_sound {segs segs' : List Segment} (hs : ∀ s ∈ segs, s.Sound) {disk disk' : Disk}
    {res : Except PyError Unit} (h : closeAll segs disk = (res, segs', disk')) :
    ∀ s ∈ segs', s.Sound := by
  induction segs generalizing disk disk' res segs' with
  | nil =>
    cases h
    exact hs
  | cons s segs ih =>
    have hrest : ∀ x ∈ segs, x.Sound := fun x hx => hs x (List.mem_cons_of_mem _ hx)
    unfold closeAll at h
    split at h
    · rename_i hclose
      cases h
      intro x hx
      rcases List.mem_cons.mp hx with rfl | hx
      · exact sound_close (hs _ List.mem_cons_self) hclose
      · exact hrest x hx
    · rename_i s₁ disk₁ hclose
      cases hall : closeAll segs disk₁ with
      | mk res₁ rest =>
      obtain ⟨segs₁, disk₂⟩ := rest
      simp only [hall] at h
      cases h
      intro x hx
      rcases List.mem_cons.mp hx with rfl | hx
      · exact sound_close (hs _ List.mem_cons_self) hclose
      · exact ih hrest hall x hx

/-- **A log just opened** has its indexes open. -/
theorem init_sound {disk disk' : Disk} {directory : String} {maxSegmentBytes : ℤ} {l : Log}
    (h : init disk directory maxSegmentBytes = (.ok l, disk')) : l.Sound := by
  unfold init at h
  simp only at h
  split at h
  · cases h
  · rename_i older active disk₁ hopen
    obtain ⟨holder, hactive⟩ := openAll_sound hopen
    split at h
    · cases h
    · split at h
      · cases h
      · rename_i older' disk₂ hclose
        cases h
        intro x hx
        rcases mem_segments.mp hx with hx | rfl
        · exact closeAll_sound holder hclose x hx
        · exact hactive

/-! ### Writing

An append may roll, and a roll gives the log a handle it need not have had: on
a log that was closed this is how it comes to have one again. Where the tail
has room there is no roll, and what was closed stays closed. -/

/-- Rolling keeps the indexes open: the sealed tail is closed with its index,
and the new one has both. -/
theorem roll_sound {l l' : Log} (hl : l.Sound) {disk disk' : Disk} {res : Except PyError Unit}
    (h : l.roll disk = (res, l', disk')) : l'.Sound := by
  have hactive := hl _ (mem_segments.mpr (.inr rfl))
  unfold roll at h
  split_ifs at h
  · cases h
    exact hl
  · split at h
    · rename_i hclose
      cases h
      exact hl.setActive (sound_close hactive hclose)
    · rename_i sealed disk₁ hclose
      split at h
      · cases h
        exact hl.setActive (sound_close hactive hclose)
      · rename_i active disk₂ hinit
        cases h
        intro x hx
        rcases mem_segments.mp hx with hx | rfl
        · rcases List.mem_append.mp hx with hx | hx
          · exact hl x (mem_segments.mpr (.inl hx))
          · cases List.mem_singleton.mp hx
            exact sound_close hactive hclose
        · exact fun _ => (Segment.init_open hinit).2

/-- Appending to a segment keeps it sound, also where it raises. -/
theorem sound_append {s s' : Segment} (hs : s.Sound) {disk disk' : Disk} {r : Record}
    {res : Except PyError ℕ} (h : s.append disk r = (res, s', disk')) : s'.Sound := fun hopen => by
  obtain ⟨hclosed, hindex⟩ := Segment.append_closed h
  rw [hindex]
  exact hs (hclosed ▸ hopen)

/-- Appending keeps the indexes open, with a roll on the way or without. -/
theorem append_sound {l l' : Log} (hl : l.Sound) {disk disk' : Disk} {key value : Option Bytes}
    {timestamp : Option ℤ} {clock : ℤ} {res : Except PyError ℤ}
    (h : l.append disk key value timestamp clock = (res, l', disk')) : l'.Sound := by
  unfold append at h
  simp only at h
  have hroll : ∀ {res₁ l₁ disk₁}, (if l.active.hasRoomFor ⟨l.nextOffset, timestamp.getD clock, key,
      value⟩ = true then (.ok (), l, disk) else l.roll disk) = (res₁, l₁, disk₁) → l₁.Sound := by
    intro res₁ l₁ disk₁ hrolled
    split_ifs at hrolled
    · cases hrolled
      exact hl
    · exact roll_sound hl hrolled
  split at h
  · rename_i hrolled
    cases h
    exact hroll hrolled
  · rename_i l₁ disk₁ hrolled
    have hl₁ := hroll hrolled
    have hactive := hl₁ _ (mem_segments.mpr (.inr rfl))
    split at h
    · rename_i happend
      cases h
      exact hl₁.setActive (sound_append hactive happend)
    · rename_i happend
      cases h
      exact hl₁.setActive (sound_append hactive happend)

/-- **A log that is closed stays closed**, unless the append rolls it: where
the active segment has room for the record, a log with a handle afterwards had
one before. -/
theorem writable_append {l l' : Log} {disk disk' : Disk} {key value : Option Bytes}
    {timestamp : Option ℤ} {clock : ℤ} {res : Except PyError ℤ}
    (hroom : l.active.hasRoomFor ⟨l.nextOffset, timestamp.getD clock, key, value⟩ = true)
    (h : l.append disk key value timestamp clock = (res, l', disk')) (hw : l'.Writable) :
    l.Writable := by
  unfold append at h
  simp only [hroom, if_true] at h
  split at h
  · rename_i happend
    cases h
    exact hw.of_setActive fun hopen => (Segment.append_closed happend).1 ▸ hopen
  · rename_i happend
    cases h
    exact hw.of_setActive fun hopen => (Segment.append_closed happend).1 ▸ hopen

omit [Crc32] in
/-- Syncing keeps the indexes open, as it changes no handle. -/
theorem sync_sound {l l' : Log} (hl : l.Sound) {disk disk' : Disk} {res : Except PyError Unit}
    (h : l.sync disk = (res, l', disk')) : l'.Sound := by
  unfold sync at h
  cases hsync : l.active.sync disk with
  | mk res₁ rest =>
  obtain ⟨active, disk₁⟩ := rest
  obtain ⟨hclosed, hindex⟩ := Segment.sync_closed hsync
  simp only [hsync] at h
  cases h
  refine hl.setActive fun hopen => ?_
  rw [hindex]
  exact hl _ (mem_segments.mpr (.inr rfl)) (hclosed ▸ hopen)

omit [Crc32] in
/-- A log that is closed stays closed when it is synced; the call raises. -/
theorem writable_sync {l l' : Log} {disk disk' : Disk} {res : Except PyError Unit}
    (h : l.sync disk = (res, l', disk')) (hw : l'.Writable) : l.Writable := by
  unfold sync at h
  cases hsync : l.active.sync disk with
  | mk res₁ rest =>
  obtain ⟨active, disk₁⟩ := rest
  simp only [hsync] at h
  cases h
  exact hw.of_setActive fun hopen => (Segment.sync_closed hsync).1 ▸ hopen

/-! ### Closing

`Log.close` goes on where a segment fails to close and collects what was
raised. With sound segments none fails. -/

omit [Crc32] in
/-- Closing segments closes them all, as each of them can be closed. -/
theorem closeEach_closed {segs segs' : List Segment} (hs : ∀ s ∈ segs, s.Sound) {disk disk' : Disk}
    {errors : List PyError} (h : closeEach segs disk = (errors, segs', disk')) :
    ∀ s ∈ segs', s.closed = true := by
  induction segs generalizing disk disk' errors segs' with
  | nil =>
    cases h
    exact fun _ hs => by cases hs
  | cons s segs ih =>
    unfold closeEach at h
    cases hclose : s.close disk with
    | mk res rest =>
    obtain ⟨s₁, disk₁⟩ := rest
    cases hall : closeEach segs disk₁ with
    | mk errors₁ rest =>
    obtain ⟨segs₁, disk₂⟩ := rest
    simp only [hclose, hall] at h
    cases h
    intro x hx
    rcases List.mem_cons.mp hx with rfl | hx
    · exact Segment.close_closed (hs _ List.mem_cons_self) hclose
    · exact ih (fun y hy => hs y (List.mem_cons_of_mem _ hy)) hall x hx

omit [Crc32] in
/-- **Closing a log** leaves it no handle: every segment is closed afterwards,
whatever the call answers. -/
theorem close_closed {l l' : Log} (hl : l.Sound) {disk disk' : Disk} {res : Except PyError Unit}
    (h : l.close disk = (res, l', disk')) : ∀ s ∈ l'.segments, s.closed = true := by
  unfold close at h
  cases holder : closeEach l.older disk with
  | mk errors rest =>
  obtain ⟨older, disk₁⟩ := rest
  cases hactive : l.active.close disk₁ with
  | mk res₁ rest =>
  obtain ⟨active, disk₂⟩ := rest
  simp only [holder, hactive] at h
  have hall : ∀ s ∈ Log.segments { l with older, active }, s.closed = true := fun s hs => by
    rcases mem_segments.mp hs with hs | rfl
    · exact closeEach_closed (fun x hx => hl x (mem_segments.mpr (.inl hx))) holder s hs
    · exact Segment.close_closed (hl _ (mem_segments.mpr (.inr rfl))) hactive
  split at h <;> cases h <;> exact hall

end Log

end Pyka
