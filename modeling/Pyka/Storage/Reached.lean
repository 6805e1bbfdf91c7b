import Pyka.Storage.AppendOnly
import Pyka.Storage.Growth

/-!
# Logs in use

A log that has been opened, whatever was in its directory, and then appended
to, rolled and synced (`Log.Reached`). Such a log serves reads of the records
it found and of those it was given, from the base of its first file on, and
its tail is open (`Log.Reached.serves`).

`Log.Reached` is the domain of the results that speak of *a log in use*
without saying how it came to be so. It is an inductive predicate over the
functions of the source, and mentions no invariant: a reader can check that it
is what a program can do. The operations may fail – an append of a record that
does not encode, for one – and the log is in use after that as well. What is
left out is closing, after which a log is no longer in use, and the failures
of the file system, which have modules of their own.

Each operation has one lemma here, in terms of `Log.Serves`. They ask for less
than those of `Pyka.Storage.LogSpec`, which start from a chain that begins at
`0` with sealed files that are durable; in exchange they say nothing of what a
crash would leave.

At the end stand three logs that are computed: a new one, one that a record
has filled, and one of two records with room for more. They are inputs to
examples of the results that follow elsewhere.
-/

namespace Pyka

open Struct (Bytes)
open Record (framing)

variable [Crc32]

/-- The segments are all as they are said to be. -/
theorem OlderHold.closed_eq {closed : Bool} {base : ℤ} {segs : List Segment}
    {rss : List (List Record)} (h : OlderHold closed base segs rss) :
    ∀ s ∈ segs, s.closed = closed := by
  induction segs generalizing base rss with
  | nil => exact fun _ hs => by cases hs
  | cons s segs ih =>
    cases rss with
    | nil => exact h.elim
    | cons c rss => exact List.forall_mem_cons.mpr ⟨h.1.2.2, ih h.2⟩

namespace Log

omit [Crc32] in
/-- The record an append makes: the next offset, and the clock's time where
none is given. -/
def stamped (l : Log) (key value : Option Bytes) (timestamp : Option ℤ) (clock : ℤ) : Record :=
  ⟨l.nextOffset, timestamp.getD clock, key, value⟩

/-! ## What the operations do to a log that serves reads

An operation answers, and the log serves reads after it, with the records it
had and perhaps one more. The chunks change when the tail is rolled. -/

namespace Serves

variable {l : Log} {disk : Disk} {base : ℤ} {rss : List (List Record)} {rs : List Record}

/-- The file of the tail. -/
theorem tail_eq {v : ℤ → Option File} (h : l.Serves v base rss rs []) :
    ∃ f, v l.active.baseOffset = some f ∧ f.content = framing.encAll rs := by
  obtain ⟨f, hf, hcontent⟩ := h.tail
  exact ⟨f, by rw [h.active_base, hf], by rw [hcontent, List.append_nil]⟩

/-- **A log the bytes of whose files are the same** serves the same reads. -/
theorem congr {v v' : ℤ → Option File} (h : l.Serves v base rss rs [])
    (hv : ∀ b, (v' b).map File.content = (v b).map File.content) {active : Segment}
    (hact : active.Holds rs) (hb : active.baseOffset = l.active.baseOffset) :
    Serves { l with active } v' base rss rs [] := by
  obtain ⟨f, hf, hcontent⟩ := h.tail_eq
  obtain ⟨f', hf', hcontent'⟩ := Option.map_eq_some_iff.mp
    ((hv l.active.baseOffset).trans (by rw [hf]; rfl))
  exact h.setTail hact hb (fun b _ => hv b) ⟨f', hf', by rw [hcontent', hcontent, List.append_nil]⟩

/-- **Sealing the tail** changes no byte of any file, and the log serves the
same reads. -/
theorem sealActive (h : l.Serves disk.view base rss rs []) (hopen : l.active.closed = false) :
    ∃ sealed disk', l.active.close disk = (.ok (), sealed, disk')
      ∧ Serves { l with active := sealed } disk'.view base rss rs [] ∧ sealed.closed = true
      ∧ sealed.baseOffset = l.active.baseOffset ∧ sealed.nextOffset = l.active.nextOffset
      ∧ sealed.position = l.active.position ∧ sealed.maxBytes = l.active.maxBytes := by
  obtain ⟨sealed, disk', hclose, hs, hb, hmax, hc, hv, -⟩ := h.active.close hopen disk
  refine ⟨sealed, disk', hclose, h.congr (fun b => ?_) hs hb, hc, hb, ?_, ?_, hmax⟩
  · rw [hv, Disk.content_fsync]
  · rw [hs.next, h.active.next, hb]
  · rw [hs.position, h.active.position]

/-- Behind the tail there is no file. -/
theorem fresh {v : ℤ → Option File} (h : l.Serves v base rss rs []) (hne : rs ≠ []) :
    v l.nextOffset = none := by
  have hpos := List.length_pos_iff.mpr hne
  have hend : l.nextOffset = base + rss.flatten.length + rs.length := by
    rw [nextOffset, h.active.next, h.active_base]
  cases hf : v l.nextOffset with
  | none => rfl
  | some f =>
    have := h.names l.nextOffset (by rw [hf]; rfl)
    omega

/-- A new segment behind a tail that is sealed. -/
theorem start (h : l.Serves disk.view base rss rs []) (hclosed : l.active.closed = true)
    (hne : rs ≠ []) :
    ∃ active disk', Segment.init disk l.active.nextOffset l.maxSegmentBytes = (.ok active, disk')
      ∧ Serves { l with older := l.older ++ [l.active], active } disk'.view base (rss ++ [rs]) [] []
      ∧ active.closed = false ∧ active.baseOffset = l.active.nextOffset
      ∧ disk.view l.active.nextOffset = none ∧ (disk'.view l.active.nextOffset).isSome = true := by
  have hfresh : disk.view l.active.nextOffset = none := h.fresh hne
  obtain ⟨active, disk', hinit, hs, hb, hopen, hv, -⟩ := Segment.init_of_fresh h.limit
    (by rw [hfresh]; rfl)
  refine ⟨active, disk', hinit, h.sealTail hclosed hne hs hb rfl hv, hopen, hb, hfresh, ?_⟩
  rw [hv, Function.update_self]
  rfl

/-- **Rolling** seals the tail and starts an empty one, in a file that was
not there. -/
theorem roll (h : l.Serves disk.view base rss rs []) (hopen : l.active.closed = false)
    (hne : rs ≠ []) :
    ∃ sealed active disk',
      l.roll disk = (.ok (), { l with older := l.older ++ [sealed], active }, disk')
      ∧ Serves { l with older := l.older ++ [sealed], active } disk'.view base (rss ++ [rs]) [] []
      ∧ active.closed = false ∧ active.baseOffset = l.nextOffset ∧ sealed.closed = true
      ∧ sealed.baseOffset = l.active.baseOffset ∧ sealed.nextOffset = l.active.nextOffset
      ∧ sealed.position = l.active.position := by
  obtain ⟨sealed, disk₁, hclose, h₁, hclosed, hb, hnext, hpos, -⟩ := h.sealActive hopen
  obtain ⟨active, disk', hinit, h', hopen', hb', -, -⟩ := h₁.start hclosed hne
  refine ⟨sealed, active, disk', ?_, h', hopen', hb'.trans hnext, hclosed, hb, hnext, hpos⟩
  unfold Log.roll
  rw [if_neg fun h0 => hne (h.active.position_eq_zero_iff.mp h0), hclose]
  simp only at hinit
  simp only [hinit]

/-- **What `append` does first**: after it, the tail takes the record. -/
theorem makeRoom (h : l.Serves disk.view base rss rs []) (hopen : l.active.closed = false)
    (r : Record) :
    ∃ l' disk' rss' rs', (if l.active.hasRoomFor r then (.ok (), l, disk) else l.roll disk)
        = (.ok (), l', disk')
      ∧ l'.Serves disk'.view base rss' rs' [] ∧ rss'.flatten ++ rs' = rss.flatten ++ rs
      ∧ l'.active.closed = false ∧ l'.active.hasRoomFor r = true
        ∧ l'.nextOffset = l.nextOffset := by
  by_cases hroom : l.active.hasRoomFor r = true
  · rw [if_pos hroom]
    exact ⟨l, disk, rss, rs, rfl, h, rfl, hopen, hroom, rfl⟩
  · rw [if_neg hroom]
    have hne : rs ≠ [] := fun hnil => hroom <| by
      unfold Segment.hasRoomFor
      rw [if_pos (h.active.position_eq_zero_iff.mpr hnil)]
    obtain ⟨sealed, active, disk', hroll, h', hopen', hb, -⟩ := h.roll hopen hne
    refine ⟨_, disk', _, _, hroll, h', by simp, hopen', ?_, ?_⟩
    · unfold Segment.hasRoomFor
      rw [if_pos (h'.active.position_eq_zero_iff.mpr rfl)]
    · show active.nextOffset = _
      rw [h'.active.next, hb, List.length_nil, Nat.cast_zero, add_zero]

/-- **Writing to a tail with room**: one more record in it. -/
theorem write (h : l.Serves disk.view base rss rs []) (hopen : l.active.closed = false) {r : Record}
    (henc : r.Encodable) (hoff : r.offset = l.nextOffset) (hroom : l.active.hasRoomFor r = true) :
    ∃ active disk', l.active.append disk r = (.ok l.active.position, active, disk')
      ∧ Serves { l with active } disk'.view base rss (rs ++ [r]) [] ∧ active.closed = false := by
  obtain ⟨f, hf, hcontent⟩ := h.tail_eq
  obtain ⟨active, happ, hs, hb, -, hc⟩ := h.active.append hopen hf hcontent henc hoff hroom
  have hview : (disk.onLog l.active.baseOffset (.write r.frame)).view
      = Function.update disk.view l.active.baseOffset (some ⟨f.content ++ r.frame, f.durable⟩) := by
    rw [Disk.view_onLog, hf, Call.write_onFile]
  refine ⟨active, _, happ,
    h.setTail hs hb (fun b hb' => ?_) ⟨⟨f.content ++ r.frame, f.durable⟩, ?_, ?_⟩,
    hc⟩
  · rw [hview, Function.update_of_ne hb']
  · rw [hview, Function.update_self]
  · rw [hcontent]
    simp [Record.enc_framing]

/-- **Appending a record that can be encoded** answers with the offset and
adds the record at the end, in the tail or in a new one. -/
theorem append (h : l.Serves disk.view base rss rs []) (hopen : l.active.closed = false)
    {key value : Option Bytes} {timestamp : Option ℤ} {clock : ℤ}
    (henc : (l.stamped key value timestamp clock).Encodable) :
    ∃ l' disk' rss' rs', l.append disk key value timestamp clock = (.ok l.nextOffset, l', disk')
      ∧ l'.Serves disk'.view base rss' rs' [] ∧ l'.active.closed = false
      ∧ rss'.flatten ++ rs' = rss.flatten ++ rs ++ [l.stamped key value timestamp clock] := by
  obtain ⟨l₁, disk₁, rss', rs', hmake, h₁, hrecs, hopen₁, hroom, hnext⟩ :=
    h.makeRoom hopen (l.stamped key value timestamp clock)
  obtain ⟨active, disk', hwrite, h', hopen'⟩ := h₁.write hopen₁ henc hnext.symm hroom
  refine ⟨_, disk', rss', _, ?_, h', hopen', by rw [← hrecs, List.append_assoc]⟩
  unfold Log.append
  unfold stamped at hmake hwrite
  simp only [hmake, hwrite]

/-- **Appending a record that cannot be encoded**: the tail is rolled if it
has no room for it. -/
theorem append_refused (h : l.Serves disk.view base rss rs []) (hopen : l.active.closed = false)
    {key value : Option Bytes} {timestamp : Option ℤ} {clock : ℤ} {e : PyError}
    (he : (l.stamped key value timestamp clock).encode = .error e) :
    l.append disk key value timestamp clock = (.error e,
      (if l.active.hasRoomFor (l.stamped key value timestamp clock) then (.ok (), l, disk)
        else l.roll disk).2) := by
  obtain ⟨l₁, disk₁, rss', rs', hmake, h₁, hrecs, hopen₁, hroom, hnext⟩ :=
    h.makeRoom hopen (l.stamped key value timestamp clock)
  have henc : ¬(l.stamped key value timestamp clock).Encodable := fun henc => by
    rw [Record.encode_of_encodable henc] at he
    cases he
  obtain ⟨e', he', hrefused⟩ := Segment.append_refused disk₁ hnext.symm henc
  cases he.symm.trans he'
  rw [hmake]
  unfold Log.append
  unfold stamped at hmake hrefused
  simp only [hmake, hrefused]

/-- **Syncing** answers and changes nothing that a read can see. -/
theorem sync (h : l.Serves disk.view base rss rs []) (hopen : l.active.closed = false) :
    ∃ l' disk', l.sync disk = (.ok (), l', disk') ∧ l'.Serves disk'.view base rss rs []
      ∧ l'.active.closed = false := by
  obtain ⟨active, disk', hsync, hs, hb, -, hc, hv, -⟩ := h.active.sync hopen disk
  refine ⟨{ l with active }, disk', ?_, h.congr (fun b => ?_) hs hb, hc⟩
  · unfold Log.sync
    simp only [hsync]
  · rw [hv, Disk.content_fsync]

/-- **Closing** answers, and reads go on being served. -/
theorem close (h : l.Serves disk.view base rss rs []) (hopen : l.active.closed = false) :
    ∃ l' disk', l.close disk = (.ok (), l', disk') ∧ l'.Serves disk'.view base rss rs []
      ∧ l'.active.closed = true := by
  obtain ⟨sealed, disk', hclose, h', hclosed, -⟩ := h.sealActive hopen
  refine ⟨_, disk', ?_, h', hclosed⟩
  unfold Log.close
  rw [closeEach_of_closed h.older]
  simp only [hclose]

end Serves

/-! ## Reached logs

The operations a program has on a log that it keeps open, in any order. -/

/-- **A log that has been opened and used**, and its directory. -/
inductive Reached : Log → Dir → Prop
  | init {disk disk' : Disk} {directory : String} {maxSegmentBytes : ℤ} {l : Log}
      (h : Log.init disk directory maxSegmentBytes = (.ok l, disk')) : Reached l disk'.dir
  | append {l l' : Log} {dir : Dir} {disk' : Disk} {res : Except PyError ℤ} (h : Reached l dir)
      (key value : Option Bytes) (timestamp : Option ℤ) (clock : ℤ)
      (happ : l.append (.of dir) key value timestamp clock = (res, l', disk')) :
      Reached l' disk'.dir
  | roll {l l' : Log} {dir : Dir} {disk' : Disk} {res : Except PyError Unit} (h : Reached l dir)
      (hroll : l.roll (.of dir) = (res, l', disk')) : Reached l' disk'.dir
  | sync {l l' : Log} {dir : Dir} {disk' : Disk} {res : Except PyError Unit} (h : Reached l dir)
      (hsync : l.sync (.of dir) = (res, l', disk')) : Reached l' disk'.dir

/-- **A log in use serves reads**, and its tail is open. -/
theorem Reached.serves {l : Log} {dir : Dir} (h : Reached l dir) :
    ∃ base rss rs, l.Serves dir.logs.view base rss rs [] ∧ l.active.closed = false := by
  induction h with
  | init h => exact init_eq_ok h
  | @append l l' dir disk' res _ key value timestamp clock happ ih =>
    obtain ⟨base, rss, rs, h, hopen⟩ := ih
    have h : l.Serves (Disk.of dir).view base rss rs [] := h
    cases he : (l.stamped key value timestamp clock).encode with
    | ok bs =>
      obtain ⟨l'', disk'', rss', rs', heq, h', hopen', -⟩ :=
        h.append hopen ((Record.encode_eq_ok_iff _ _).mp he).1
      cases happ.symm.trans heq
      exact ⟨base, rss', rs', h', hopen'⟩
    | error e =>
      obtain ⟨l₁, disk₁, rss', rs', hmake, h', -, hopen', -⟩ :=
        h.makeRoom hopen (l.stamped key value timestamp clock)
      have heq := h.append_refused hopen he
      rw [hmake] at heq
      cases happ.symm.trans heq
      exact ⟨base, rss', rs', h', hopen'⟩
  | @roll l l' dir disk' res _ hroll ih =>
    obtain ⟨base, rss, rs, h, hopen⟩ := ih
    have h : l.Serves (Disk.of dir).view base rss rs [] := h
    by_cases hne : rs = []
    · have heq : l.roll (.of dir) = (.ok (), l, .of dir) := by
        unfold Log.roll
        rw [if_pos (h.active.position_eq_zero_iff.mpr hne)]
      cases hroll.symm.trans heq
      exact ⟨base, rss, rs, h, hopen⟩
    · obtain ⟨sealed, active, disk'', heq, h', hopen', -⟩ := h.roll hopen hne
      cases hroll.symm.trans heq
      exact ⟨base, _, _, h', hopen'⟩
  | @sync l l' dir disk' res _ hsync ih =>
    obtain ⟨base, rss, rs, h, hopen⟩ := ih
    have h : l.Serves (Disk.of dir).view base rss rs [] := h
    obtain ⟨l'', disk'', heq, h', hopen'⟩ := h.sync hopen
    cases hsync.symm.trans heq
    exact ⟨base, rss, rs, h', hopen'⟩

/-! ### A new log

Logs that can be computed. The limit of a segment decides when the tail is
full, so a limit of one byte fills it with the first record. -/

/-- Opening an empty directory. -/
theorem init_empty (maxSegmentBytes : SegmentLimit) :
    ∃ l disk, Log.init (.of .empty) "log" maxSegmentBytes = (.ok l, disk) := by
  obtain ⟨l, disk, hinit, -⟩ := init_of_stored (.of .empty) "log" maxSegmentBytes.2
    (stored_empty fun _ => rfl)
  exact ⟨l, disk, hinit⟩

/-- **A log opened on an empty directory.** -/
def new (maxSegmentBytes : SegmentLimit) : Log × Dir :=
  match h : Log.init (.of .empty) "log" maxSegmentBytes with
  | (.ok l, disk) => (l, disk.dir)
  | (.error _, _) => absurd h <| by
    obtain ⟨l, disk, hinit⟩ := init_empty maxSegmentBytes
    rw [hinit]
    exact fun heq => by cases heq

/-- A new log is one in use. -/
theorem reached_new (maxSegmentBytes : SegmentLimit) :
    Reached (new maxSegmentBytes).1 (new maxSegmentBytes).2 := by
  unfold new
  split
  · next h => exact .init h
  · next h =>
    obtain ⟨l, disk, hinit⟩ := init_empty maxSegmentBytes
    cases h.symm.trans hinit

/-- A log appended to. -/
def appended (s : Log × Dir) (key value : Option Bytes) (timestamp : Option ℤ) (clock : ℤ) :
    Log × Dir :=
  let out := s.1.append (.of s.2) key value timestamp clock
  (out.2.1, out.2.2.dir)

/-- A log in use that is appended to is one in use. -/
theorem Reached.appended {s : Log × Dir} (h : Reached s.1 s.2) (key value : Option Bytes)
    (timestamp : Option ℤ) (clock : ℤ) :
    Reached (appended s key value timestamp clock).1 (appended s key value timestamp clock).2 :=
  h.append key value timestamp clock rfl

/-- A log whose tail one record has filled. -/
def full : Log × Dir := appended (new ⟨1, by decide⟩) none none (some 0) 0

/-- So is one that a record has filled. -/
theorem reached_full : Reached full.1 full.2 :=
  (reached_new ⟨1, by decide⟩).appended none none (some 0) 0

/-- A log of two records whose tail has room for more. -/
def roomy : Log × Dir :=
  appended (appended (new ⟨4096, by decide⟩) none none (some 0) 0) (some [1]) (some [2]) (some 5) 0

/-- And one that has two and room for more. -/
theorem reached_roomy : Reached roomy.1 roomy.2 :=
  ((reached_new ⟨4096, by decide⟩).appended none none (some 0) 0).appended (some [1]) (some [2])
    (some 5) 0

end Log

end Pyka
