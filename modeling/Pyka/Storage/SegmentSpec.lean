import Pyka.Storage.Scan

/-!
# What a segment holds

`Segment.Holds s rs` relates a segment in memory to the records it stands for.
Opening a file of such records and a torn tail yields a segment that holds
them (`init_of_torn`), appending adds one (`Holds.append`), closing and
syncing change neither, and reading gives them back from any offset on
(`Holds.readFrom`), whatever torn bytes stand behind them.

Each of these also says what became of the `.log` files on the way, for the
benefit of what a crash may find.

## What the relation is about

`Holds` is about the object and not about its file: that the next offset and
the position are those of the records, that the index is sound for them and
that they fit what an index can hold. The file is a second argument to the
lemmas that need it, since the same object is looked at beside different files
– as it wrote them, as another thread sees them while a write is going on,
with torn bytes behind a write that failed. Whether the segment is open is not
part of the relation either, because reads do not care.

## From the source to the relation

Only this module unfolds the methods of `Segment`. The layers above use the
lemmas here, one for each method and outcome, and a change to a method is a
change to its lemma.
-/

namespace Pyka

open Struct (Bytes)
open Record (framing)

variable [Crc32]

namespace Segment

/-- **A segment that stands for a list of records.** -/
structure Holds (s : Segment) (rs : List Record) : Prop where
  /-- Every record is one that `encode` accepts. -/
  valid : ∀ r ∈ rs, r.Encodable
  /-- Their offsets count up from the base. -/
  consecutive : Consecutive s.baseOffset rs
  next : s.nextOffset = s.baseOffset + rs.length
  position : s.position = (framing.encAll rs).length
  sound : s.index.Sound rs
  index_base : s.index.baseOffset = s.baseOffset
  index_closed : s.index.closed = s.closed
  limit : 0 < s.maxBytes ∧ s.maxBytes ≤ maxU32 + 1

/-- A segment is empty where no byte has been written. -/
theorem Holds.position_eq_zero_iff {s : Segment} {rs : List Record} (h : s.Holds rs) :
    s.position = 0 ↔ rs = [] := by
  rw [h.position]
  constructor
  · intro h0
    have := Record.length_le_encAll rs
    exact List.length_eq_zero_iff.mp (by omega)
  · rintro rfl
    rfl

/-! ## Opening

Opening makes two calls on the log's file at most: it creates it where there
is none, and cuts it where the records end before the file does. -/

omit [Crc32] in
/-- The index of a segment being opened knows its base and is open. -/
theorem init_index (disk : Disk) (base : ℤ) (n : ℕ) :
    (Index.init disk base n).1.baseOffset = base ∧ (Index.init disk base n).1.closed = false :=
  ⟨rfl, rfl⟩

/-- The index that `recover` feeds: nothing in it yet. -/
def freshIndex (base : ℤ) : Index :=
  { baseOffset := base, intervalBytes := 4096, entries := [], pending := [], closed := false }

omit [Crc32] in
/-- What is there when the scan starts: the file, and an index with nothing in
it. -/
theorem view_scanned (disk : Disk) (base : ℤ) :
    (((Index.init disk base 4096).1.clear
        ((Index.init disk base 4096).2.onLog base .touch)).2).view
      = Function.update disk.view base (some ((disk.view base).getD File.empty)) := by
  rw [Index.clear_view, Disk.view_onLog, Call.touch_onFile, Index.init_view]

omit [Crc32] in
/-- The scan finds the bytes of the file. -/
theorem content_scanned (disk : Disk) (base : ℤ) :
    (((Index.init disk base 4096).1.clear
        ((Index.init disk base 4096).2.onLog base .touch)).2).content base = disk.content base := by
  rw [Disk.content_eq, view_scanned, Function.update_self, Option.getD_some]
  rfl

/-- **Opening is the scan of `recover`**: the segment is made of what the
scan answers. -/
theorem init_fst {disk : Disk} {base maxBytes : ℤ} (hmax : 0 < maxBytes ∧ maxBytes ≤ maxU32 + 1) :
    (init disk base maxBytes).1
      = (recoverLoop (logName base) ⟨disk.content base, 0⟩ (freshIndex base) base 0).map
          (fun found => { baseOffset := base, maxBytes, index := found.2.2,
                          nextOffset := found.1, position := found.2.1, closed := false }) := by
  have hcontent := content_scanned disk base
  unfold init recover
  rw [if_neg (not_not.mpr hmax)]
  dsimp only
  rw [hcontent]
  change _ = Except.map _ (recoverLoop (logName base) ⟨disk.content base, 0⟩
    ((Index.init disk base 4096).1.clear ((Index.init disk base 4096).2.onLog base .touch)).1
      base 0)
  cases recoverLoop (logName base) ⟨disk.content base, 0⟩
    ((Index.init disk base 4096).1.clear ((Index.init disk base 4096).2.onLog base .touch)).1 base 0
    <;> rfl

/-- **A refused opening** leaves the files as they were, but that the
segment's own is there. -/
theorem view_init_error {disk disk' : Disk} {base maxBytes : ℤ}
    (hmax : 0 < maxBytes ∧ maxBytes ≤ maxU32 + 1) {e : PyError}
    (h : init disk base maxBytes = (.error e, disk')) :
    disk'.view = Function.update disk.view base (some ((disk.view base).getD File.empty)) := by
  unfold init recover at h
  rw [if_neg (not_not.mpr hmax)] at h
  dsimp only at h
  split at h
  · rename_i hrecover
    split at hrecover <;> cases hrecover
    cases h
    exact view_scanned disk base
  · cases h

/-- **Opening cuts a segment's file off where its records end**, and leaves
the other files. -/
theorem view_init_ok {disk disk' : Disk} {base maxBytes : ℤ} {s : Segment}
    (h : init disk base maxBytes = (.ok s, disk')) :
    ∃ f, f.content = (disk.content base).take s.position
      ∧ disk'.view = Function.update disk.view base (some f) := by
  unfold init recover at h
  dsimp only at h
  split at h
  · cases h
  split at h
  · cases h
  rename_i nextOffset position index disk₁ hrecover
  split at hrecover <;> cases hrecover
  cases h
  simp only [content_scanned]
  obtain ⟨f, hf⟩ : ∃ f, f = (disk.view base).getD File.empty := ⟨_, rfl⟩
  have hcontent : disk.content base = f.content := by
    rw [hf]
    rfl
  rw [hcontent]
  split_ifs with hlt
  · refine ⟨⟨f.content.take position, f.durable.map (min position)⟩, rfl, ?_⟩
    rw [Disk.view_onLog, view_scanned, Function.update_self, Call.truncate_onFile,
      Function.update_idem, ← hf]
  · refine ⟨f, (List.take_of_length_le (not_lt.mp hlt)).symm, ?_⟩
    rw [view_scanned, ← hf]

/-- The file of a segment just opened. -/
theorem init_content {disk disk' : Disk} {base maxBytes : ℤ} {s : Segment}
    (h : init disk base maxBytes = (.ok s, disk')) :
    ∃ f, disk'.view base = some f ∧ f.content = (disk.content base).take s.position := by
  obtain ⟨f, hcut, hv⟩ := view_init_ok h
  exact ⟨f, by rw [hv, Function.update_self], hcut⟩

/-- **Recovering a file of records and a torn tail**: the next offset and
the end of the records, with the tail cut off. -/
theorem recover_of_torn {disk : Disk} {base : ℤ} {ix : Index} (hbase : ix.baseOffset = base)
    (hopen : ix.closed = false) {f : File} {rs : List Record} {t : Bytes}
    (hf : (disk.view base).getD File.empty = f)
    (hcontent : f.content = framing.encAll rs ++ t)
    (hvalid : ∀ r ∈ rs, r.Encodable) (hcons : Consecutive base rs)
    (htorn : Record.Torn t) (hsmall : f.content.length ≤ maxU32 + 1)
    (hdurable : f.kept ≤ (framing.encAll rs).length) :
    ∃ ix' disk', recover disk base ix
        = (.ok (base + rs.length, (framing.encAll rs).length, ix'), disk')
      ∧ ix'.Sound rs ∧ ix'.baseOffset = base ∧ ix'.closed = false
      ∧ disk'.view = Function.update disk.view base (some ⟨framing.encAll rs, f.durable⟩)
      ∧ ∀ P, disk.Always P → P (Function.update disk.view base (some f)) → P disk'.view
        → disk'.Always P := by
  have hdur : f.durable.map (min (framing.encAll rs).length) = f.durable := by
    unfold File.kept at hdurable
    cases hd : f.durable with
    | none => rfl
    | some k =>
      rw [hd] at hdurable
      exact congrArg some (Nat.min_eq_right hdurable)
  -- the log is touched and the index forgotten
  obtain ⟨d, hd⟩ : ∃ d, d = (ix.clear (disk.onLog base .touch)).2 := ⟨_, rfl⟩
  have hv : d.view = Function.update disk.view base (some f) := by
    rw [hd, Index.clear_view, Disk.view_onLog, Call.touch_onFile, hf]
  have ha : ∀ P, d.Always P ↔ disk.Always P ∧ P (Function.update disk.view base (some f)) :=
    fun P => by rw [hd, Index.clear_always, Disk.always_onLog, Call.touch_onFile, hf]
  have hc : d.content base = f.content := by
    rw [Disk.content_eq, hv, Function.update_self, Option.getD_some]
  obtain ⟨f', ix', hrest, hs, hb, hclosed, hloop⟩ := recoverLoop_file (logName base)
    (ix.clear (disk.onLog base .touch)).1 hcontent hvalid hopen rfl
    (le_trans (by rw [hcontent, List.length_append]; omega) hsmall)
    (by rw [← hbase] at hcons; exact hcons)
  have htorn' : Record.Torn f'.rest := by rw [hrest]; exact htorn
  rw [recoverLoop_torn (f := f') htorn', show (ix.clear (disk.onLog base .touch)).1.baseOffset
    = base from hbase] at hloop
  refine ⟨ix', if (framing.encAll rs).length < (d.content base).length
      then d.onLog base (.truncate (framing.encAll rs).length) else d, ?_, hs, hb.trans hbase,
    hclosed, ?_, ?_⟩
  · unfold recover
    simp only
    rw [← hd, hc, hloop]
  · split
    · rw [Disk.view_onLog, hv, Function.update_self, Call.truncate_onFile,
        Function.update_idem, hcontent, List.take_left, hdur]
    · next hlt =>
      rw [hc, hcontent, List.length_append] at hlt
      have ht : t = [] := List.length_eq_zero_iff.mp (by omega)
      rw [ht, List.append_nil] at hcontent
      rw [hv, ← hcontent]
  · intro P hP hP₁ hP₂
    split
    · next hlt =>
      rw [if_pos hlt, Disk.view_onLog] at hP₂
      rw [Disk.always_onLog, ha]
      exact ⟨⟨hP, hP₁⟩, hP₂⟩
    · exact (ha P).mpr ⟨hP, hP₁⟩

/-- **Opening a file of records and a torn tail**: the segment holds the
records, and the tail is gone from the file. -/
theorem init_of_torn {disk : Disk} {base maxBytes : ℤ} {f : File} {rs : List Record}
    {t : Bytes} (hmax : 0 < maxBytes ∧ maxBytes ≤ maxU32 + 1)
    (hf : (disk.view base).getD File.empty = f)
    (hcontent : f.content = framing.encAll rs ++ t)
    (hvalid : ∀ r ∈ rs, r.Encodable) (hcons : Consecutive base rs)
    (htorn : Record.Torn t) (hsmall : f.content.length ≤ maxU32 + 1)
    (hdurable : f.kept ≤ (framing.encAll rs).length) :
    ∃ s disk', init disk base maxBytes = (.ok s, disk') ∧ s.Holds rs ∧ s.baseOffset = base
      ∧ s.maxBytes = maxBytes ∧ s.closed = false
      ∧ disk'.view = Function.update disk.view base (some ⟨framing.encAll rs, f.durable⟩)
      ∧ ∀ P, disk.Always P → P (Function.update disk.view base (some f)) → P disk'.view
        → disk'.Always P := by
  obtain ⟨hb, hopen⟩ := init_index disk base 4096
  have hv := Index.init_view disk base 4096
  obtain ⟨ix', disk', hrec, hs, hb', hc', hv', ha'⟩ := recover_of_torn hb hopen
    (by rw [hv]; exact hf) hcontent hvalid hcons htorn hsmall hdurable
  rw [hv] at hv' ha'
  refine ⟨{ baseOffset := base, maxBytes, index := ix', nextOffset := base + rs.length,
            position := (framing.encAll rs).length, closed := false }, disk', ?_, ?_, rfl, rfl,
    rfl, hv', fun P hP => ha' P ((Index.init_always disk base 4096).mpr hP)⟩
  · unfold init
    rw [if_neg (not_not.mpr hmax)]
    simp only [hrec]
  · exact ⟨hvalid, hcons, rfl, rfl, hs, hb', hc', hmax⟩

/-- Opening a name that no bytes are under yet. -/
theorem init_of_fresh {disk : Disk} {base maxBytes : ℤ}
    (hmax : 0 < maxBytes ∧ maxBytes ≤ maxU32 + 1)
    (hfresh : (disk.view base).getD File.empty = File.empty) :
    ∃ s disk', init disk base maxBytes = (.ok s, disk') ∧ s.Holds [] ∧ s.baseOffset = base
      ∧ s.closed = false ∧ disk'.view = Function.update disk.view base (some File.empty)
      ∧ ∀ P, disk.Always P → P disk'.view → disk'.Always P := by
  have hcontent : File.empty.content = framing.encAll [] ++ [] := rfl
  obtain ⟨s, disk', hinit, hs, hb, -, hc, hv, ha⟩ := init_of_torn hmax hfresh hcontent (by simp)
    trivial Record.torn_nil (Nat.zero_le _) le_rfl
  refine ⟨s, disk', hinit, hs, hb, hc, hv, fun P hP hP' => ha P hP ?_ hP'⟩
  rw [hv] at hP'
  exact hP'

/-! ## Writing

An append is a check of the offset, an encoding, a write and a move. The
lemmas follow these, so that a write that fails half-way can use the first
two. -/

/-- **A segment with room for a record** stays one that the index can cover. -/
theorem Holds.small_append {s : Segment} {rs : List Record} (h : s.Holds rs) {r : Record}
    (henc : r.Encodable) (hroom : s.hasRoomFor r = true) :
    (framing.encAll rs).length + r.size ≤ maxU32 + 1 := by
  have hle := henc.size_le
  have hlim := h.limit
  rw [Record.maxSize_eq] at hle
  unfold hasRoomFor at hroom
  split at hroom
  · next h0 =>
    rw [h.position] at h0
    rw [h0]
    unfold maxU32
    omega
  · rw [decide_eq_true_eq, h.position] at hroom
    omega

/-- The next record is encoded as it is. -/
theorem encodeNext_of_encodable {s : Segment} {r : Record} (hoff : r.offset = s.nextOffset)
    (henc : r.Encodable) (hopen : s.closed = false) : s.encodeNext r = .ok r.frame := by
  unfold encodeNext
  simp only [bind_eq_ok, raiseIf_eq_ok, pure_eq_ok, Record.encode_of_encodable henc]
  exact ⟨(), not_not.mpr hoff, r.frame, rfl, (), by simp [hopen], rfl⟩

/-- A record that `encode` refuses is refused. -/
theorem encodeNext_refused {s : Segment} {r : Record} (hoff : r.offset = s.nextOffset)
    {e : PyError} (he : r.encode = .error e) : s.encodeNext r = .error e := by
  unfold encodeNext
  rw [hoff, he]
  simp [raiseIf]
  rfl

/-- A segment with one record more behind those it stands for, and an index
that has been fed it. -/
theorem Holds.extend {s : Segment} {rs : List Record} (h : s.Holds rs) {r : Record}
    (henc : r.Encodable) (hoff : r.offset = s.nextOffset) {ix : Index} (hs : ix.Sound (rs ++ [r]))
    (hb : ix.baseOffset = s.index.baseOffset) (hc : ix.closed = s.index.closed) :
    Holds { s with nextOffset := s.nextOffset + 1, position := s.position + r.size, index := ix }
      (rs ++ [r]) := by
  refine ⟨?_, ?_, ?_, ?_, hs, hb.trans h.index_base, hc.trans h.index_closed, h.limit⟩
  · intro r' hr'
    rcases List.mem_append.mp hr' with hr' | hr'
    · exact h.valid r' hr'
    · rw [List.mem_singleton.mp hr']
      exact henc
  · refine Consecutive.append_iff.mpr ⟨h.consecutive, Consecutive.singleton.mpr ?_⟩
    rw [hoff, h.next]
  · simp only [h.next, List.length_append, List.length_singleton]
    push_cast
    ring
  · simp only [framing.encAll_append, framing.encAll_cons, framing.encAll_nil, List.append_nil,
      List.length_append, Record.enc_framing, Record.length_frame, h.position]

/-- **Moving on behind a record**, once its frame is at the end of the file:
the segment holds one record more. -/
theorem Holds.advance {s : Segment} {rs : List Record} (h : s.Holds rs) (hopen : s.closed = false)
    {disk : Disk} {r : Record}
    (hcontent : disk.content s.baseOffset = framing.encAll rs ++ r.frame) (henc : r.Encodable)
    (hoff : r.offset = s.nextOffset) (hroom : s.hasRoomFor r = true) :
    ∃ s', s.advance disk r = (.ok s.position, s') ∧ s'.Holds (rs ++ [r])
      ∧ s'.baseOffset = s.baseOffset ∧ s'.maxBytes = s.maxBytes ∧ s'.closed = false := by
  have hsmall := h.small_append henc hroom
  have hshort := Record.length_le_encAll rs
  have hsize := r.size_eq
  obtain ⟨ix, hix, hs, hb, hc, -⟩ := h.sound.maybeAppend
    (by rw [h.index_closed, hopen]) (by omega) (by omega) r
  have hend : (disk.content s.baseOffset).length = s.position + r.size := by
    rw [hcontent, List.length_append, Record.length_frame, h.position]
  refine ⟨{ s with nextOffset := s.nextOffset + 1, position := s.position + r.size,
                   index := ix }, ?_, ?_, rfl, rfl, hopen⟩
  · unfold Segment.advance
    simp only [hend]
    rw [if_neg (by simp), hoff, h.next, h.position, ← h.index_base, hix]
  · exact h.extend henc hoff hs hb (hc.trans (h.index_closed.trans hopen).symm)

/-- **Appending a record**: its frame goes to the end of the file, and the
segment holds one record more. -/
theorem Holds.append {s : Segment} {rs : List Record} (h : s.Holds rs)
    (hopen : s.closed = false) {disk : Disk} {f : File}
    (hf : disk.view s.baseOffset = some f) (hcontent : f.content = framing.encAll rs)
    {r : Record} (henc : r.Encodable) (hoff : r.offset = s.nextOffset)
    (hroom : s.hasRoomFor r = true) :
    ∃ s', s.append disk r
        = (.ok s.position, s', disk.onLog s.baseOffset (.write r.frame))
      ∧ s'.Holds (rs ++ [r]) ∧ s'.baseOffset = s.baseOffset ∧ s'.maxBytes = s.maxBytes
      ∧ s'.closed = false := by
  have hafter : (disk.onLog s.baseOffset (.write r.frame)).content s.baseOffset
      = framing.encAll rs ++ r.frame := by
    rw [Disk.content_eq, Disk.view_onLog, Function.update_self, hf, Call.write_onFile,
      Option.getD_some, hcontent]
  obtain ⟨s', hadvance, hs'⟩ := h.advance hopen hafter henc hoff hroom
  refine ⟨s', ?_, hs'⟩
  unfold Segment.append
  rw [encodeNext_of_encodable hoff henc hopen]
  simp only [hadvance]

/-- A record that `encode` refuses changes nothing: the exception comes out
before a byte is written. -/
theorem append_refused {s : Segment} (disk : Disk) {r : Record} (hoff : r.offset = s.nextOffset)
    (henc : ¬r.Encodable) :
    ∃ e, r.encode = .error e ∧ s.append disk r = (.error e, s, disk) := by
  cases he : r.encode with
  | ok bs => exact absurd ((Record.encode_eq_ok_iff r bs).mp he).1 henc
  | error e =>
    refine ⟨e, rfl, ?_⟩
    unfold Segment.append
    rw [encodeNext_refused hoff he]

/-- **Syncing** makes the file durable and leaves the segment as it is. -/
theorem Holds.sync {s : Segment} {rs : List Record} (h : s.Holds rs)
    (hopen : s.closed = false) (disk : Disk) :
    ∃ s' disk', s.sync disk = (.ok (), s', disk') ∧ s'.Holds rs
      ∧ s'.baseOffset = s.baseOffset ∧ s'.maxBytes = s.maxBytes ∧ s'.closed = false
      ∧ disk'.view = (disk.onLog s.baseOffset .fsync).view
      ∧ ∀ P, disk'.Always P ↔ (disk.onLog s.baseOffset .fsync).Always P := by
  have hix : s.index.closed = false := by rw [h.index_closed, hopen]
  refine ⟨{ s with index := { s.index with pending := [] } },
    ((disk.onLog s.baseOffset .fsync).onIndex s.index.baseOffset
      (.write s.index.pending)).onIndex s.index.baseOffset .fsync,
    ?_, ?_, rfl, rfl, hopen, rfl, ?_⟩
  · unfold Segment.sync
    rw [if_neg (by simp [hopen])]
    simp only [Index.sync_of_open hix]
  · exact ⟨h.valid, h.consecutive, h.next, h.position, h.sound, h.index_base,
      h.index_closed, h.limit⟩
  · intro P
    rw [Disk.always_onIndex, Disk.always_onIndex]

/-- **Closing an open segment** makes the file durable and seals it. -/
theorem Holds.close {s : Segment} {rs : List Record} (h : s.Holds rs)
    (hopen : s.closed = false) (disk : Disk) :
    ∃ s' disk', s.close disk = (.ok (), s', disk') ∧ s'.Holds rs
      ∧ s'.baseOffset = s.baseOffset ∧ s'.maxBytes = s.maxBytes ∧ s'.closed = true
      ∧ disk'.view = (disk.onLog s.baseOffset .fsync).view
      ∧ ∀ P, disk'.Always P ↔ (disk.onLog s.baseOffset .fsync).Always P := by
  have hix : s.index.closed = false := by rw [h.index_closed, hopen]
  refine ⟨{ s with closed := true, index := { s.index with pending := [], closed := true } },
    ((((disk.onLog s.baseOffset .fsync).onIndex s.index.baseOffset
      (.write s.index.pending)).onIndex s.index.baseOffset .fsync).onIndex s.index.baseOffset
      (.write [])).onIndex s.index.baseOffset .fsync,
    ?_, ?_, rfl, rfl, rfl, rfl, ?_⟩
  · unfold Segment.close Segment.sync
    rw [if_neg (by simp [hopen]), if_neg (by simp [hopen])]
    simp only [Index.sync_of_open hix, Index.close, hix]
    rw [if_neg (by simp), Index.sync_of_open rfl]
  · exact ⟨h.valid, h.consecutive, h.next, h.position, h.sound, h.index_base, rfl,
      h.limit⟩
  · intro P
    simp only [Disk.always_onIndex]

omit [Crc32] in
/-- Closing a closed segment does nothing, so sealing is idempotent. -/
theorem close_of_closed {s : Segment} (h : s.closed = true) (disk : Disk) :
    s.close disk = (.ok (), s, disk) := by
  unfold Segment.close
  rw [if_pos h]

/-! ## Reading

A read is a seek and a scan. The hint of a sound index is the start of a
record, so the scan begins there; the records it passes over are before the
offset asked for. -/

/-- **What a read does with its hint**: a first record that carries the
promised offset starts the scan, an exception other than `CorruptRecord`
ends the read, and everything else sends it to byte 0. -/
theorem iterFrom_eq {s : Segment} {dir : Dir} {f : File} {offset : ℤ}
    (hf : dir.logs.view s.baseOffset = some f) :
    s.iterFrom dir offset =
      match Record.read (f.content.drop (s.index.lookup offset).2) with
      | .error e => if e.isCorruptRecord then scanFrom ⟨f.content, 0⟩ offset else ⟨[], some e⟩
      | .ok none => scanFrom ⟨f.content, 0⟩ offset
      | .ok (some r) =>
        if r.offset ≠ (s.index.lookup offset).1 then scanFrom ⟨f.content, 0⟩ offset
        else scanFrom ⟨f.content, (s.index.lookup offset).2⟩ offset := by
  have hv : dir.logs.lookup s.baseOffset = some f := hf
  unfold iterFrom
  simp only [hv, Stream.seek]
  generalize hp : (s.index.lookup offset).2 = pos
  have hone := Record.readOne_fst ⟨f.content, pos⟩
  rw [show Stream.rest ⟨f.content, pos⟩ = f.content.drop pos from rfl] at hone
  rw [← hone]
  cases hr : Record.readOne ⟨f.content, pos⟩ with
  | mk res f' =>
    cases res with
    | error e => rfl
    | ok o =>
      cases o with
      | none => rfl
      | some r =>
        simp only
        split
        · rfl
        · conv_rhs => rw [scanFrom]
          split
          · next h' => cases hr.symm.trans h'
          · next h' => cases hr.symm.trans h'
          · next h' => cases hr.symm.trans h'; rfl

/-- **Reading a segment** gives the records from the offset on, whatever
torn bytes stand behind them. -/
theorem Holds.readFrom {s : Segment} {rs : List Record} (h : s.Holds rs) {dir : Dir} {f : File}
    (hf : dir.logs.view s.baseOffset = some f) {t : Bytes}
    (hcontent : f.content = framing.encAll rs ++ t) (htorn : Record.Torn t)
    {offset : ℤ} (hoff : s.baseOffset ≤ offset) :
    s.readFrom dir offset = .ok ⟨rs.drop (offset - s.baseOffset).toNat, none⟩ := by
  unfold Segment.readFrom
  rw [if_neg (not_lt.mpr hoff)]
  congr 1
  have hscan : scanFrom ⟨f.content, 0⟩ offset
      = ⟨rs.drop (offset - s.baseOffset).toNat, none⟩ :=
    scanFrom_encAll h.valid h.consecutive (by rw [Stream.rest, List.drop_zero, hcontent])
      htorn offset
  have hoff' : s.index.baseOffset ≤ offset := by rw [h.index_base]; exact hoff
  -- the index answers with the number of a record and the place it starts at
  obtain ⟨n, hn, -, hle, hlook⟩ := h.sound.lookup hoff'
  rw [h.index_base] at hle hlook
  rw [iterFrom_eq hf, hlook]
  simp only
  -- from the hint on, the file holds the rest of the records
  have hdrop : f.content.drop (framing.encAll (rs.take n)).length
      = framing.encAll (rs.drop n) ++ t := by
    rw [hcontent, ← framing.encAll_take_append_drop rs n, List.append_assoc, List.drop_left]
  have hhint : scanFrom ⟨f.content, (framing.encAll (rs.take n)).length⟩ offset
      = ⟨rs.drop (offset - s.baseOffset).toNat, none⟩ := by
    have hfrom : Stream.rest ⟨f.content, (framing.encAll (rs.take n)).length⟩
        = framing.encAll (rs.drop n) ++ t := hdrop
    rw [scanFrom_encAll (fun r hr => h.valid r (List.mem_of_mem_drop hr))
      (h.consecutive.drop hn) hfrom htorn offset, List.drop_drop]
    congr 2
    omega
  split
  · split
    · exact hscan
    · next e he hne =>
      exfalso
      rw [hdrop] at he
      cases hd : rs.drop n with
      | nil =>
        rw [hd, framing.encAll_nil, List.nil_append,
          (Record.read_eq_none_iff t).mpr htorn] at he
        cases he
      | cons r rs' =>
        have henc := h.valid r (List.mem_of_mem_drop (hd ▸ List.mem_cons_self))
        rw [hd, framing.encAll_cons, List.append_assoc, ← Record.read_framing,
          framing.read_enc_append henc] at he
        cases he
  · exact hscan
  · split
    · exact hscan
    · exact hhint

end Segment

end Pyka
