import Pyka.Storage.Opening
import Pyka.Storage.AppendOnly

/-!
# The shape of the chain

One limit for the size of a segment, given at every opening. Whatever a log is
then asked, its segments follow each other without a gap or an overlap, all
but the last are sealed and hold at least one record, and each is within the
limit or holds a single record (`Log.Chained`). With a limit that an index can
address, that is also why nothing ever goes wrong inside of an operation: no
entry is refused, no file ends where it should not, and no append rolls twice
(`Log.chain_and_sizes`).

## The limit is soft

An empty segment takes any record, so that one larger than the limit cannot
roll for ever. A segment is therefore within the limit or holds one record,
and that is the invariant, chunk by chunk (`Log.Fits`). It is kept by a write
because `has_room_for` asks for exactly this, and by a roll because the chunk
does not change when it is sealed. A reopening keeps it if it is given the
same limit; with another one the segments found may well be too large for it,
which is why the limit is one and the operations are made to carry it
(`Op.within`).

## Answers that leave nothing else

An operation answers with the offset of the record, or with what `encode`
raises (`Log.expected`). The statement is about what is *not* answered: the
guards of `Index.maybe_append` and of `Segment.append` raise other exceptions,
and since none of them is among the answers, none of the guards has fired.
-/

namespace Pyka

open Struct (Bytes)
open Record (framing)

variable [Crc32]

/-! ## The limit of the active segment

A segment keeps the limit it was opened with, and a log opens all of them with
its own. -/

/-- Appending leaves a segment's limit as it is. -/
theorem Segment.append_maxBytes {s s' : Segment} {disk disk' : Disk} {r : Record}
    {res : Except PyError ℕ} (h : s.append disk r = (res, s', disk')) :
    s'.maxBytes = s.maxBytes := by
  unfold append at h
  split at h
  · cases h
    rfl
  · simp only [advance] at h
    split_ifs at h
    · cases h
      rfl
    · split at h <;> cases h <;> rfl

namespace OlderHold

variable {closed : Bool} {base : ℤ} {segs : List Segment} {rss : List (List Record)}

/-- There is a segment for each chunk. -/
theorem length_eq (h : OlderHold closed base segs rss) : segs.length = rss.length := by
  induction segs generalizing base rss with
  | nil =>
    cases rss with
    | nil => rfl
    | cons c rss => exact h.elim
  | cons s segs ih =>
    cases rss with
    | nil => exact h.elim
    | cons c rss => rw [List.length_cons, List.length_cons, ih h.2]

/-- A segment of a chain holds one of its chunks, which is in its file. -/
theorem of_mem (h : OlderHold closed base segs rss) {v : ℤ → Option File}
    (hfiled : Filed v base rss) :
    ∀ s ∈ segs, ∃ c ∈ rss, s.Holds c ∧ s.closed = closed ∧ c ≠ []
      ∧ ∃ f, v s.baseOffset = some f ∧ f.content = framing.encAll c := by
  induction segs generalizing base rss with
  | nil => exact fun _ hs => by cases hs
  | cons s segs ih =>
    cases rss with
    | nil => exact h.elim
    | cons c rss =>
      obtain ⟨⟨hs, hb, hclosed⟩, h⟩ := h
      obtain ⟨⟨hne, hf⟩, hfiled⟩ := hfiled
      refine List.forall_mem_cons.mpr ⟨⟨c, List.mem_cons_self, hs, hclosed, hne, by rwa [hb]⟩,
        fun x hx => ?_⟩
      obtain ⟨c', hc', hx⟩ := ih h hfiled x hx
      exact ⟨c', List.mem_cons_of_mem _ hc', hx⟩

/-- Each segment starts where the one before it ends. -/
theorem isChain (h : OlderHold closed base segs rss) {active : Segment}
    (hb : active.baseOffset = base + rss.flatten.length) :
    (segs ++ [active]).IsChain fun s s' => s'.baseOffset = s.nextOffset := by
  induction segs generalizing base rss with
  | nil => exact .singleton _
  | cons s segs ih =>
    cases rss with
    | nil => exact h.elim
    | cons c rss =>
      obtain ⟨⟨hs, hsb, -⟩, h⟩ := h
      have hend : active.baseOffset = base + c.length + rss.flatten.length := by
        rw [hb, List.flatten_cons, List.length_append]
        push_cast
        ring
      have hnext : s.nextOffset = base + c.length := by rw [hs.next, hsb]
      have hrest := ih h hend
      cases segs with
      | nil =>
        cases rss with
        | cons c' rss => exact h.elim
        | nil =>
          refine .cons_cons ?_ hrest
          rw [hend, hnext]
          simp
      | cons s' segs =>
        cases rss with
        | nil => exact h.elim
        | cons c' rss => exact .cons_cons (h.1.2.1.trans hnext.symm) hrest

end OlderHold

/-- The operation, with one limit given at every opening. -/
def Op.within (M : SegmentLimit) : Op → Op
  | .reopen _ => .reopen M
  | op => op

namespace Log

/-- **The limit is `M`**, for the active segment as for those to come. -/
structure Limited (l : Log) (M : ℤ) : Prop where
  log : l.maxSegmentBytes = M
  active : l.active.maxBytes = M

/-- The limit a log is opened with. -/
theorem init_limited {disk disk' : Disk} {directory : String} {M : ℤ} {l : Log}
    (h : init disk directory M = (.ok l, disk')) : l.Limited M := by
  obtain ⟨hsorted, -⟩ := bases_spec disk.dir
  unfold init at h
  simp only at h
  split at h
  · cases h
  · rename_i older active disk₁ hopen
    obtain ⟨-, -, hmax, -⟩ := openAll_eq_ok hopen (hsorted.imp fun hlt => hlt.ne)
    split at h
    · cases h
    · split at h
      · cases h
      · cases h
        exact ⟨rfl, hmax⟩

/-- A roll keeps the limit. -/
theorem Limited.roll {l l' : Log} {M : ℤ} (h : l.Limited M) {disk disk' : Disk}
    (hroll : l.roll disk = (.ok (), l', disk')) : l'.Limited M := by
  unfold Log.roll at hroll
  split_ifs at hroll
  · cases hroll
    exact h
  · split at hroll
    · cases hroll
    · split at hroll
      · cases hroll
      · rename_i active disk₂ hinit
        cases hroll
        obtain ⟨-, -, -, hmax, -⟩ := Segment.init_eq_ok hinit
        exact ⟨h.log, hmax.trans h.log⟩

omit [Crc32] in
/-- So does a sync. -/
theorem Limited.sync {l l' : Log} {M : ℤ} (h : l.Limited M) {disk disk' : Disk}
    {res : Except PyError Unit} (hsync : l.sync disk = (res, l', disk')) : l'.Limited M := by
  unfold Log.sync Segment.sync at hsync
  split_ifs at hsync <;> cases hsync <;> exact ⟨h.log, h.active⟩

/-! ## Sizes

The sizes go with what the log holds, since the size of a segment is the
length of its records' frames. -/

/-- **Records within the limit**, or a single one. -/
def Fits (M : ℤ) (rs : List Record) : Prop :=
  ((framing.encAll rs).length : ℤ) ≤ M ∨ rs.length = 1

/-- **A log all of whose segments are within the limit**, or hold a single
record. -/
def Sized (l : Log) (v : ℤ → Option File) (M : ℤ) : Prop :=
  l.Limited M ∧ ∃ rss rs d, l.Holds v rss rs d ∧ ∀ c ∈ rss ++ [rs], Fits M c

namespace Sized

variable {l : Log} {disk : Disk} {M : ℤ}

/-- An empty chunk is within any limit. -/
theorem fits_nil (h : 0 < M) : Fits M [] := Or.inl (by simpa using h.le)

/-- Rolling seals chunks as they are. -/
theorem roll (h : l.Sized disk.view M) :
    ∃ l' disk', l.roll disk = (.ok (), l', disk') ∧ l'.Sized disk'.view M
      ∧ l'.active.position = 0 ∧ l'.nextOffset = l.nextOffset
      ∧ l'.segments.length ≤ l.segments.length + 1 := by
  obtain ⟨hlimit, rss, rs, d, h, hfits⟩ := h
  by_cases hne : rs = []
  · subst hne
    exact ⟨l, disk, h.roll_of_empty, ⟨hlimit, rss, [], d, h, hfits⟩,
      h.active.position_eq_zero_iff.mpr rfl, rfl, Nat.le_succ _⟩
  · obtain ⟨l', disk', hroll, h', -⟩ := h.roll hne
    have hpos : 0 < M := hlimit.log ▸ h.limit.1
    refine ⟨l', disk', hroll, ⟨hlimit.roll hroll, rss ++ [rs], [], none, h', fun c hc => ?_⟩,
      h'.active.position_eq_zero_iff.mpr rfl, ?_, ?_⟩
    · rcases List.mem_append.mp hc with hc | hc
      · exact hfits c hc
      · rw [List.mem_singleton.mp hc]
        exact fits_nil hpos
    · rw [h'.nextOffset_eq, h.nextOffset_eq]
      simp
    · have hlen := h'.older.length_eq
      have hlen' := h.older.length_eq
      simp only [segments, List.length_append, List.length_singleton, hlen, hlen']
      omega

/-- Writing to a tail with room keeps it within the limit. -/
theorem write (h : l.Sized disk.view M) {r : Record} (henc : r.Encodable)
    (hoff : r.offset = l.nextOffset) (hroom : l.active.hasRoomFor r = true) :
    ∃ active disk', l.active.append disk r = (.ok l.active.position, active, disk')
      ∧ Sized { l with active } disk'.view M := by
  obtain ⟨hlimit, rss, rs, d, h, hfits⟩ := h
  obtain ⟨active, disk', happ, h', -⟩ := h.write henc hoff hroom
  refine ⟨active, disk', happ, ⟨hlimit.log, (Segment.append_maxBytes happ).trans hlimit.active⟩,
    rss, rs ++ [r], d, h', fun c hc => ?_⟩
  rcases List.mem_append.mp hc with hc | hc
  · exact hfits c (List.mem_append_left _ hc)
  · rw [List.mem_singleton.mp hc]
    unfold Segment.hasRoomFor at hroom
    split_ifs at hroom with hempty
    · -- the first record of a segment may be of any size
      rw [h.active.position_eq_zero_iff.mp hempty]
      exact Or.inr rfl
    · rw [decide_eq_true_eq, h.active.position, hlimit.active] at hroom
      refine Or.inl ?_
      rw [framing.encAll_append, List.length_append, framing.encAll_cons, framing.encAll_nil,
        List.append_nil, Record.enc_framing, Record.length_frame]
      exact hroom

/-- What `append` does first. -/
theorem makeRoom (h : l.Sized disk.view M) (r : Record) :
    ∃ l' disk', (if l.active.hasRoomFor r then (.ok (), l, disk) else l.roll disk)
        = (.ok (), l', disk') ∧ l'.Sized disk'.view M ∧ l'.active.hasRoomFor r = true
      ∧ l'.nextOffset = l.nextOffset ∧ l'.segments.length ≤ l.segments.length + 1 := by
  by_cases hroom : l.active.hasRoomFor r = true
  · rw [if_pos hroom]
    exact ⟨l, disk, rfl, h, hroom, rfl, Nat.le_succ _⟩
  · rw [if_neg hroom]
    obtain ⟨l', disk', hroll, h', hempty, hnext, hlen⟩ := h.roll
    refine ⟨l', disk', hroll, h', ?_, hnext, hlen⟩
    unfold Segment.hasRoomFor
    rw [if_pos hempty]

end Sized

/-! ## Operations

Each operation gives the answer that is expected of it and keeps the sizes. An
append adds one segment at most: after a roll the tail is empty and takes the
record. -/

/-- **The answer of an operation**: the next offset, or what `encode`
raises. -/
def expected (l : Log) : Op → Except PyError (Option ℤ)
  | .append key value timestamp clock =>
    (Record.encode ⟨l.nextOffset, timestamp.getD clock, key, value⟩).map fun _ => some l.nextOffset
  | _ => .ok none

/-- An append gives the answer expected, with a roll on the way where the tail
has no room. -/
theorem Sized.append {l : Log} {disk : Disk} {M : ℤ} (h : l.Sized disk.view M)
    (key value : Option Bytes) (timestamp : Option ℤ) (clock : ℤ) :
    ∃ l' disk', Op.exec l disk (.append key value timestamp clock)
        = (l.expected (.append key value timestamp clock), l', disk')
      ∧ l'.Sized disk'.view M ∧ l'.segments.length ≤ l.segments.length + 1 := by
  obtain ⟨r, hr⟩ : ∃ r : Record, r = ⟨l.nextOffset, timestamp.getD clock, key, value⟩ := ⟨_, rfl⟩
  obtain ⟨l₁, disk₁, hmake, h₁, hroom, hnext, hlen⟩ := h.makeRoom r
  have hoff : r.offset = l₁.nextOffset := by rw [hr, hnext]
  cases he : r.encode with
  | ok bs =>
    obtain ⟨active, disk', hwrite, h'⟩ :=
      h₁.write ((Record.encode_eq_ok_iff _ _).mp he).1 hoff hroom
    refine ⟨{ l₁ with active }, disk', ?_, h', by
      simpa only [segments, List.length_append, List.length_singleton] using hlen⟩
    unfold Op.exec Log.append expected
    simp only [← hr, hmake, hwrite, he]
    rfl
  | error e =>
    have henc : ¬r.Encodable := fun henc => by
      rw [Record.encode_of_encodable henc] at he
      cases he
    obtain ⟨e', he', hrefused⟩ := Segment.append_refused disk₁ hoff henc
    cases he.symm.trans he'
    refine ⟨l₁, disk₁, ?_, h₁, hlen⟩
    unfold Op.exec Log.append expected
    simp only [← hr, hmake, hrefused, he]
    rfl

/-- **One operation** gives the answer expected, keeps the sizes, and adds one
segment at most. -/
theorem Sized.exec {l : Log} (disk : Disk) {M : SegmentLimit} (h : l.Sized disk.view M) (op : Op) :
    ∃ l' disk', (op.within M).exec l disk = (l.expected op, l', disk') ∧ l'.Sized disk'.view M
      ∧ l'.segments.length ≤ l.segments.length + 1 := by
  cases op with
  | append key value timestamp clock => exact h.append key value timestamp clock
  | roll =>
    obtain ⟨l', disk', hroll, h', -, -, hlen⟩ := h.roll
    refine ⟨l', disk', ?_, h', hlen⟩
    simp only [Op.within, Op.exec, hroll]
    rfl
  | sync =>
    obtain ⟨hlimit, rss, rs, d, h, hfits⟩ := h
    obtain ⟨l', disk', hsync, h', -⟩ := h.sync
    refine ⟨l', disk', ?_, ⟨hlimit.sync hsync, rss, rs, _, h', hfits⟩, ?_⟩
    · simp only [Op.within, Op.exec, hsync]
      rfl
    · simp only [segments, List.length_append, List.length_singleton, h'.older.length_eq,
        h.older.length_eq]
      omega
  | reopen max =>
    obtain ⟨hlimit, rss, rs, d, h, hfits⟩ := h
    obtain ⟨l₁, disk₁, hclose, hstored, -⟩ := h.close
    obtain ⟨l', disk', hinit, h', -⟩ := init_of_stored _ l₁.directory M.2 hstored
    refine ⟨l', disk', ?_, ⟨init_limited hinit, rss, rs, _, h', hfits⟩, ?_⟩
    · simp only [Op.within, Op.exec, hclose, hinit]
      rfl
    · simp only [segments, List.length_append, List.length_singleton, h'.older.length_eq,
        h.older.length_eq]
      omega

/-! ## The chain

The same facts as a caller sees them: of segments with their bases, positions
and handles, and of their files. -/

/-- **The shape of a log's chain.** -/
structure Chained (l : Log) (dir : Dir) (M : ℤ) : Prop where
  increasing : (l.segments.map Segment.baseOffset).Pairwise (· < ·)
  linked : l.segments.IsChain fun s s' => s'.baseOffset = s.nextOffset
  /-- All but the last are sealed and hold a record. -/
  older : ∀ s ∈ l.older, s.closed = true ∧ s.baseOffset < s.nextOffset
  active : l.active.closed = false
  /-- Within the limit, or with a single record. -/
  size : ∀ s ∈ l.segments, (s.position : ℤ) ≤ M ∨ s.nextOffset = s.baseOffset + 1
  /-- The size is that of the file. -/
  files : ∀ s ∈ l.segments, ∃ f, dir.logs.view s.baseOffset = some f ∧ f.content.length = s.position

/-- A segment whose records are within the limit. -/
theorem Fits.size {M : ℤ} {s : Segment} {rs : List Record} (h : Fits M rs) (hs : s.Holds rs) :
    (s.position : ℤ) ≤ M ∨ s.nextOffset = s.baseOffset + 1 := by
  rw [hs.position, hs.next]
  exact h.imp_right fun hone => by rw [hone]; rfl

/-- A log whose chunks are within the limit has the shape of a chain. -/
theorem Sized.chained {l : Log} {dir : Dir} {M : ℤ} (h : l.Sized dir.logs.view M) :
    l.Chained dir M := by
  obtain ⟨-, rss, rs, d, h, hfits⟩ := h
  have hbase : l.active.baseOffset = 0 + (rss.flatten.length : ℕ) := by rw [h.active_base, zero_add]
  have hfiled := h.stored.sealed.filed
  have hall : ∀ s ∈ l.segments, ∃ c ∈ rss ++ [rs], s.Holds c
      ∧ ∃ f, dir.logs.view s.baseOffset = some f ∧ f.content = framing.encAll c := fun s hs => by
    rcases List.mem_append.mp hs with hs | hs
    · obtain ⟨c, hc, hs, -, -, hf⟩ := h.older.of_mem hfiled s hs
      exact ⟨c, List.mem_append_left _ hc, hs, hf⟩
    · cases List.mem_singleton.mp hs
      exact ⟨rs, by simp, h.active, _, by rw [h.active_base]; exact h.tail, rfl⟩
  exact {
    increasing := by
      unfold segments
      rw [h.older.map_baseOffset hbase]
      exact chainBases_pairwise hfiled.nonempty
    linked := h.older.isChain hbase
    older := fun s hs => by
      obtain ⟨c, -, hs, hclosed, hne, -⟩ := h.older.of_mem hfiled s hs
      have hpos := List.length_pos_iff.mpr hne
      exact ⟨hclosed, by rw [hs.next]; omega⟩
    active := h.active_open
    size := fun s hs => by
      obtain ⟨c, hc, hs, -⟩ := hall s hs
      exact (hfits c hc).size hs
    files := fun s hs => by
      obtain ⟨c, -, hs, f, hf, hcontent⟩ := hall s hs
      exact ⟨f, hf, by rw [hcontent, hs.position]⟩ }

/-- **The chain and the sizes of its segments.** From an empty directory, with
one limit given at every opening, a log put through any operations has the
shape of a chain whose segments are within the limit or hold a single record.
Whatever it is asked next, it answers with the offset of a record or with what
`encode` raises, so that nothing else has been raised on the way, neither by
the index nor by the segment; and it has at most one segment more. -/
theorem chain_and_sizes (directory : String) (M : SegmentLimit) (ops : List Op) :
    ∃ l₀ disk₀, Log.init (.of .empty) directory M = (.ok l₀, disk₀)
      ∧ ∃ answers l dir, Log.machine.run (l₀, disk₀.dir) (ops.map (Op.within M)) = (answers, l, dir)
        ∧ l.Chained dir M
        ∧ ∀ op : Op, ∃ l' disk', (op.within M).exec l (.of dir) = (l.expected op, l', disk')
          ∧ l'.Chained disk'.dir M ∧ l'.segments.length ≤ l.segments.length + 1 := by
  obtain ⟨l₀, disk₀, hinit, h, -⟩ := init_of_stored (.of .empty) directory M.2
    (stored_empty fun _ => rfl)
  have hsized : l₀.Sized disk₀.dir.logs.view M := by
    refine ⟨init_limited hinit, [], [], none, h, fun c hc => ?_⟩
    rw [List.mem_singleton.mp hc]
    exact Sized.fits_nil M.2.1
  refine ⟨l₀, disk₀, hinit, ?_⟩
  clear hinit h
  generalize disk₀.dir = dir₀ at hsized
  obtain ⟨answers, l, dir, hrun, hsized⟩ : ∃ answers l dir,
      Log.machine.run (l₀, dir₀) (ops.map (Op.within M)) = (answers, l, dir)
        ∧ l.Sized dir.logs.view M := by
    induction ops generalizing l₀ dir₀ with
    | nil => exact ⟨[], l₀, dir₀, rfl, hsized⟩
    | cons op ops ih =>
      obtain ⟨l₁, disk₁, hexec, h₁, -⟩ := Sized.exec (.of dir₀) hsized op
      obtain ⟨answers, l, dir, hrun, hsized⟩ := ih l₁ disk₁.dir h₁
      refine ⟨l₀.expected op :: answers, l, dir, ?_, hsized⟩
      have hstep : Log.machine.step (l₀, dir₀) (op.within M) = (l₀.expected op, l₁, disk₁.dir) := by
        simp only [Log.machine, hexec]
      rw [List.map_cons, Machine.run, hstep, hrun]
  refine ⟨answers, l, dir, hrun, hsized.chained, fun op => ?_⟩
  obtain ⟨l', disk', hexec, h', hlen⟩ := Sized.exec (.of dir) hsized op
  have h' : l'.Sized disk'.dir.logs.view M := h'
  exact ⟨l', disk', hexec, h'.chained, hlen⟩

end Log

end Pyka
