import Pyka.Base.Machine
import Pyka.Storage.LogSpec

/-!
# The log is one append-only list

What a log is for, said without segments, files or an index: a list of records
to which `append` adds at the end (`AppendOnly.machine`), and of which
`readFrom` gives a tail. The log over its directory does the same
(`Log.simulates_appendOnly`), whatever the segment limit, wherever it rolls
and however often it is closed and opened again.

`Log.Represents l v records synced` is the relation between the two. Beside
the records it counts those that are durable, which is what a crash is
measured against.

## What the list knows

The list numbers a record by its own length and refuses the records that
`encode` refuses, with the exception `encode` raises. It knows nothing of
limits, so that a roll is no event for it, and nothing of durability, so that
a sync is none either. That a log with one limit and a log with another answer
alike is then no theorem of its own.

## What the relation adds

Beside the simulation each operation says which states its files went through:
all along they kept the records from before or those from after
(`Op.exec_represents`). This is the form in which the module on crashes uses
it, and the reason why `Represents` has a count of durable records: an
operation may raise the count, and none lowers it.

Reads are not operations here, as they change nothing: they are answered from
the relation, at any state of a run (`Represents.readFrom`).
-/

namespace Pyka

open Struct (Bytes)
open Record (framing)

variable [Crc32]

/-- **What `.log` files keep**: the records, in order, and that the first
`synced` of them are durable. -/
def Keeps (v : ℤ → Option File) (records : List Record) (synced : ℕ) : Prop :=
  ∃ rss rs t d, Stored v rss rs t d ∧ rss.flatten ++ rs = records
    ∧ synced ≤ rss.flatten.length + framing.whole rs (d.getD 0)

/-- Fewer records count as durable, too. -/
theorem Keeps.mono {v : ℤ → Option File} {records : List Record} {synced synced' : ℕ}
    (h : Keeps v records synced) (hle : synced' ≤ synced) : Keeps v records synced' := by
  obtain ⟨rss, rs, t, d, h, hrec, hs⟩ := h
  exact ⟨rss, rs, t, d, h, hrec, hle.trans hs⟩

namespace Log

/-- **A log that stands for a list of records**, the first `synced` of them
durable. -/
def Represents (l : Log) (v : ℤ → Option File) (records : List Record) (synced : ℕ) : Prop :=
  ∃ rss rs d, l.Holds v rss rs d ∧ rss.flatten ++ rs = records
    ∧ synced ≤ rss.flatten.length + framing.whole rs (d.getD 0)

namespace Represents

variable {l : Log} {disk : Disk} {records : List Record} {synced : ℕ}

/-- What a log stands for, its files keep. -/
theorem keeps {v : ℤ → Option File} (h : l.Represents v records synced) :
    Keeps v records synced := by
  obtain ⟨rss, rs, d, h, hrec, hs⟩ := h
  exact ⟨rss, rs, [], d, h.stored, hrec, hs⟩

/-- No more records are durable than there are. -/
theorem synced_le_length {v : ℤ → Option File} (h : l.Represents v records synced) :
    synced ≤ records.length := by
  obtain ⟨rss, rs, d, -, rfl, hs⟩ := h
  have := framing.whole_le_length rs (d.getD 0)
  rw [List.length_append]
  omega

/-- The next offset is the number of records. -/
theorem nextOffset_eq (h : l.Represents disk.view records synced) :
    l.nextOffset = records.length := by
  obtain ⟨rss, rs, d, h, rfl, -⟩ := h
  exact h.nextOffset_eq

/-- A read gives the records from the offset on. -/
theorem readFrom {dir : Dir} (h : l.Represents dir.logs.view records synced) {offset : ℤ}
    (hle : 0 ≤ offset) : l.readFrom dir offset = .ok ⟨records.drop offset.toNat, none⟩ := by
  obtain ⟨rss, rs, d, h, rfl, -⟩ := h
  rw [h.serves.readFrom Record.torn_nil hle, sub_zero]

/-- A read from below `0` is refused: nothing is before the first record. -/
theorem readFrom_neg {dir : Dir} (h : l.Represents dir.logs.view records synced) {offset : ℤ}
    (hlt : offset < 0) : ∃ msg, l.readFrom dir offset = .error (.offsetOutOfRange msg) := by
  obtain ⟨rss, rs, d, h, rfl, -⟩ := h
  exact h.serves.readFrom_lt hlt

/-- Sealed chunks stay durable when the tail is sealed. -/
theorem synced_le {rss : List (List Record)} {rs : List Record} {n : ℕ}
    (h : synced ≤ rss.flatten.length + framing.whole rs n) :
    synced ≤ (rss ++ [rs]).flatten.length := by
  have := framing.whole_le_length rs n
  rw [List.flatten_append, List.length_append, List.flatten_singleton]
  omega

/-- A durable tail keeps every record. -/
theorem keeps_durable {v : ℤ → Option File} {rss : List (List Record)} {rs : List Record}
    (h : Stored v rss rs [] (some (framing.encAll rs).length))
    (hs : synced ≤ (rss.flatten ++ rs).length) : Keeps v (rss.flatten ++ rs) synced := by
  refine ⟨rss, rs, [], _, h, rfl, ?_⟩
  rw [Option.getD_some, framing.whole_of_length_le rs le_rfl, ← List.length_append]
  exact hs

/-- **Rolling** changes no record and leaves an empty tail. -/
theorem roll (h : l.Represents disk.view records synced) :
    ∃ l' disk', l.roll disk = (.ok (), l', disk') ∧ l'.Represents disk'.view records synced
      ∧ l'.active.position = 0
      ∧ ∀ P, (∀ v, Keeps v records synced → P v) → disk.Always P → disk'.Always P := by
  obtain ⟨rss, rs, d, h, rfl, hs⟩ := h
  by_cases hne : rs = []
  · subst hne
    exact ⟨l, disk, h.roll_of_empty, ⟨rss, [], d, h, rfl, hs⟩,
      h.active.position_eq_zero_iff.mpr rfl, fun P _ hP => hP⟩
  · obtain ⟨l', disk', hroll, h', ha⟩ := h.roll hne
    have hrep : l'.Represents disk'.view (rss.flatten ++ rs) synced :=
      ⟨rss ++ [rs], [], none, h', by simp, (synced_le hs).trans (Nat.le_add_right _ _)⟩
    refine ⟨l', disk', hroll, hrep, h'.active.position_eq_zero_iff.mpr rfl,
      fun P hP hd => ha P hd (fun v hv => hP v (keeps_durable hv ?_)) (hP _ hrep.keeps)⟩
    simpa using synced_le hs

/-- What `append` does first: after it, the tail takes the record. -/
theorem makeRoom (h : l.Represents disk.view records synced) (r : Record) :
    ∃ l' disk', (if l.active.hasRoomFor r then (.ok (), l, disk) else l.roll disk)
        = (.ok (), l', disk') ∧ l'.Represents disk'.view records synced
      ∧ l'.active.hasRoomFor r = true
      ∧ ∀ P, (∀ v, Keeps v records synced → P v) → disk.Always P → disk'.Always P := by
  by_cases hroom : l.active.hasRoomFor r = true
  · rw [if_pos hroom]
    exact ⟨l, disk, rfl, h, hroom, fun P _ hP => hP⟩
  · rw [if_neg hroom]
    obtain ⟨l', disk', hroll, h', hempty, ha⟩ := h.roll
    refine ⟨l', disk', hroll, h', ?_, ha⟩
    unfold Segment.hasRoomFor
    rw [if_pos hempty]

/-- **Appending a record that can be encoded** answers with its offset. -/
theorem append (h : l.Represents disk.view records synced) {key value : Option Bytes}
    {timestamp : Option ℤ} {clock : ℤ} {r : Record}
    (hr : r = ⟨records.length, timestamp.getD clock, key, value⟩) (henc : r.Encodable) :
    ∃ l' disk', l.append disk key value timestamp clock = (.ok (records.length : ℤ), l', disk')
      ∧ l'.Represents disk'.view (records ++ [r]) synced
      ∧ ∀ P, (∀ v, Keeps v records synced → P v) → (∀ v, Keeps v (records ++ [r]) synced → P v)
        → disk.Always P → disk'.Always P := by
  have hnext := h.nextOffset_eq
  obtain ⟨l₁, disk₁, hmake, h₁, hroom, ha₁⟩ := h.makeRoom r
  have hoff : r.offset = l₁.nextOffset := by rw [h₁.nextOffset_eq, hr]
  obtain ⟨rss, rs, d, h₁, rfl, hs⟩ := h₁
  obtain ⟨active', disk', hwrite, h', ha'⟩ := h₁.write henc hoff hroom
  have hrep : Represents { l₁ with active := active' } disk'.view (rss.flatten ++ rs ++ [r])
      synced := by
    refine ⟨rss, rs ++ [r], d, h', by rw [List.append_assoc], hs.trans ?_⟩
    exact Nat.add_le_add_left (framing.whole_append_le rs [r] _) _
  refine ⟨{ l₁ with active := active' }, disk', ?_, hrep,
    fun P hP hP' hd => ha' P (ha₁ P hP hd) (hP' _ hrep.keeps)⟩
  unfold Log.append
  simp only [hnext, ← hr, hmake, hwrite]

/-- **Appending a record that cannot be encoded** raises what `encode`
raises, and changes no record. -/
theorem append_refused (h : l.Represents disk.view records synced) {key value : Option Bytes}
    {timestamp : Option ℤ} {clock : ℤ} {r : Record}
    (hr : r = ⟨records.length, timestamp.getD clock, key, value⟩) {e : PyError}
    (he : r.encode = .error e) :
    ∃ l' disk', l.append disk key value timestamp clock = (.error e, l', disk')
      ∧ l'.Represents disk'.view records synced
      ∧ ∀ P, (∀ v, Keeps v records synced → P v) → disk.Always P → disk'.Always P := by
  have hnext := h.nextOffset_eq
  obtain ⟨l₁, disk₁, hmake, h₁, -, ha₁⟩ := h.makeRoom r
  have hoff : r.offset = l₁.active.nextOffset := by rw [hr]; exact h₁.nextOffset_eq.symm
  have henc : ¬r.Encodable := fun henc => by
    rw [Record.encode_of_encodable henc] at he
    cases he
  obtain ⟨e', he', hrefused⟩ := Segment.append_refused disk₁ hoff henc
  cases he.symm.trans he'
  refine ⟨l₁, disk₁, ?_, h₁, ha₁⟩
  unfold Log.append
  simp only [hnext, ← hr, hmake, hrefused]

/-- **Syncing** makes every record durable. -/
theorem sync (h : l.Represents disk.view records synced) :
    ∃ l' disk', l.sync disk = (.ok (), l', disk')
      ∧ l'.Represents disk'.view records records.length
      ∧ ∀ P, (∀ v, Keeps v records synced → P v) → disk.Always P → disk'.Always P := by
  obtain ⟨rss, rs, d, h, rfl, hs⟩ := h
  obtain ⟨l', disk', hsync, h', ha⟩ := h.sync
  refine ⟨l', disk', hsync, ⟨rss, rs, _, h', rfl, ?_⟩,
    fun P hP hd => ha P hd (hP _ (keeps_durable h'.stored ?_))⟩
  · rw [Option.getD_some, framing.whole_of_length_le rs le_rfl, List.length_append]
  · simpa using synced_le hs

/-- **Closing** makes every record durable, and leaves the directory to be
opened. -/
theorem close (h : l.Represents disk.view records synced) :
    ∃ l' disk', l.close disk = (.ok (), l', disk') ∧ Keeps disk'.view records records.length
      ∧ ∀ P, (∀ v, Keeps v records synced → P v) → disk.Always P → disk'.Always P := by
  obtain ⟨rss, rs, d, h, rfl, hs⟩ := h
  obtain ⟨l', disk', hclose, h', ha⟩ := h.close
  refine ⟨l', disk', hclose, keeps_durable h' le_rfl,
    fun P hP hd => ha P hd (hP _ (keeps_durable h' ?_))⟩
  simpa using synced_le hs

end Represents

/-- **Opening** a directory gives a log that stands for what it keeps. -/
theorem init_of_keeps (disk : Disk) {maxBytes : ℤ} (directory : String)
    (hmax : 0 < maxBytes ∧ maxBytes ≤ maxU32 + 1) {records : List Record} {synced : ℕ}
    (h : Keeps disk.view records synced) :
    ∃ l disk', init disk directory maxBytes = (.ok l, disk')
      ∧ l.Represents disk'.view records synced
      ∧ ∀ P, (∀ v, Keeps v records synced → P v) → disk.Always P → disk'.Always P := by
  obtain ⟨rss, rs, t, d, h, rfl, hs⟩ := h
  obtain ⟨l, disk', hinit, h', -, ha⟩ := init_of_stored disk directory hmax h
  refine ⟨l, disk', hinit, ⟨rss, rs, d, h', rfl, hs⟩, fun P hP hd => ha P hd (hP _ ?_)
    (hP _ ⟨rss, rs, [], d, h'.stored, rfl, hs⟩)⟩
  exact ⟨rss, rs, t, d,
    h.setTail h.valid_tail h.consecutive_tail h.torn h.small h.durable, rfl, hs⟩

end Log

/-! ## The operations

A reopening is an operation of a log: it closes it, and opens its directory
with a limit that may be another. -/

/-- A segment limit that `Segment.init` accepts, so that an opening does not
fail for its limit. -/
abbrev SegmentLimit := { n : ℤ // 0 < n ∧ n ≤ maxU32 + 1 }

omit [Crc32] in
/-- The limit that a log has by default is one. -/
theorem default_max_segment_bytes : 0 < (2 ^ 30 : ℤ) ∧ (2 ^ 30 : ℤ) ≤ maxU32 + 1 := by decide

/-- **The operations on a log.** Without a timestamp, an append takes the
clock's; reopening closes the log and opens its directory again. -/
inductive Op
  | append (key value : Option Bytes) (timestamp : Option ℤ) (clock : ℤ)
  | roll
  | sync
  | reopen (maxSegmentBytes : SegmentLimit)

namespace Op

/-- Carry out an operation: its answer – the offset, for an append – or the
exception it raised, and the log and the disk after it. -/
def exec (l : Log) (disk : Disk) : Op → Except PyError (Option ℤ) × Log × Disk
  | append key value timestamp clock =>
    let (res, l, disk) := l.append disk key value timestamp clock
    (res.map some, l, disk)
  | roll =>
    let (res, l, disk) := l.roll disk
    (res.map fun _ => none, l, disk)
  | sync =>
    let (res, l, disk) := l.sync disk
    (res.map fun _ => none, l, disk)
  | reopen max =>
    match l.close disk with
    | (.error e, l, disk) => (.error e, l, disk)
    | (.ok (), l, disk) =>
      match Log.init disk l.directory max with
      | (.error e, disk) => (.error e, l, disk)
      | (.ok l, disk) => (.ok none, l, disk)

end Op

/-- The log over its directory, as a machine that answers operations. -/
def Log.machine : Machine (Log × Dir) Op (Except PyError (Option ℤ)) where
  step := fun s op =>
    let (res, l, disk) := op.exec s.1 (Disk.of s.2)
    (res, l, disk.dir)

namespace AppendOnly

/-- **An append-only list.** An append adds a record numbered by the length
of the list, if it can be encoded, and answers with the number; the other
operations do nothing. -/
def step (records : List Record) : Op → Except PyError (Option ℤ) × List Record
  | .append key value timestamp clock =>
    let r : Record := ⟨records.length, timestamp.getD clock, key, value⟩
    match r.encode with
    | .ok _ => (.ok (some records.length), records ++ [r])
    | .error e => (.error e, records)
  | _ => (.ok none, records)

/-- The list as a machine that answers operations. -/
def machine : Machine (List Record) Op (Except PyError (Option ℤ)) where
  step := step

/-- The offsets among the answers: what a caller that appended was told. -/
def offsets (answers : List (Except PyError (Option ℤ))) : List ℤ :=
  answers.filterMap fun answer => match answer with
    | .ok offset => offset
    | .error _ => none

/-- **The answers of the list are consecutive offsets**: a run from some
records counts on from their number. -/
theorem offsets_run (records : List Record) (ops : List Op) :
    ∃ n, offsets (machine.run records ops).1
        = (List.range' records.length n).map (fun n : ℕ => (n : ℤ))
      ∧ (machine.run records ops).2.length = records.length + n := by
  induction ops generalizing records with
  | nil => exact ⟨0, rfl, rfl⟩
  | cons op ops ih =>
    show ∃ n, offsets ((step records op).1 :: (machine.run (step records op).2 ops).1) = _
      ∧ (machine.run (step records op).2 ops).2.length = _
    obtain ⟨n, hoff, hlen⟩ := ih (step records op).2
    cases op with
    | append key value timestamp clock =>
      cases he : Record.encode ⟨records.length, timestamp.getD clock, key, value⟩ with
      | ok bs =>
        simp only [step, he, List.length_append, List.length_singleton] at hoff hlen ⊢
        refine ⟨n + 1, ?_, by omega⟩
        rw [List.range'_succ, List.map_cons, ← hoff]
        rfl
      | error e =>
        simp only [step, he] at hoff hlen ⊢
        exact ⟨n, hoff, hlen⟩
    | roll => exact ⟨n, hoff, hlen⟩
    | sync => exact ⟨n, hoff, hlen⟩
    | reopen max => exact ⟨n, hoff, hlen⟩

end AppendOnly

/-- How many records are durable after an operation, of `n` there are then. -/
def Op.syncedAfter (n synced : ℕ) : Op → ℕ
  | .sync => n
  | .reopen _ => n
  | _ => synced

/-- **One operation.** The log answers as the list does and stands for the
same records after it, and all along its files kept the records from before
or those from after. -/
theorem Op.exec_represents {l : Log} (disk : Disk) {records : List Record} {synced : ℕ}
    (h : l.Represents disk.view records synced) (op : Op) :
    ∃ l' disk', op.exec l disk = ((AppendOnly.step records op).1, l', disk')
      ∧ l'.Represents disk'.view (AppendOnly.step records op).2
          (op.syncedAfter records.length synced)
      ∧ ∀ P, (∀ v, Keeps v records synced → P v)
        → (∀ v, Keeps v (AppendOnly.step records op).2 synced → P v)
        → disk.Always P → disk'.Always P := by
  cases op with
  | append key value timestamp clock =>
    simp only [Op.exec, AppendOnly.step, Op.syncedAfter]
    cases he : Record.encode ⟨records.length, timestamp.getD clock, key, value⟩ with
    | ok bs =>
      obtain ⟨l', disk', happ, h', ha⟩ := h.append
        (r := ⟨records.length, timestamp.getD clock, key, value⟩) rfl
          ((Record.encode_eq_ok_iff _ _).mp he).1
      rw [happ]
      exact ⟨l', disk', rfl, h', ha⟩
    | error e =>
      obtain ⟨l', disk', happ, h', ha⟩ := h.append_refused
        (r := ⟨records.length, timestamp.getD clock, key, value⟩) rfl he
      rw [happ]
      exact ⟨l', disk', rfl, h', fun P hP _ => ha P hP⟩
  | roll =>
    obtain ⟨l', disk', hroll, h', -, ha⟩ := h.roll
    simp only [Op.exec, AppendOnly.step, Op.syncedAfter, hroll]
    exact ⟨l', disk', rfl, h', fun P hP _ => ha P hP⟩
  | sync =>
    obtain ⟨l', disk', hsync, h', ha⟩ := h.sync
    simp only [Op.exec, AppendOnly.step, Op.syncedAfter, hsync]
    exact ⟨l', disk', rfl, h', fun P hP _ => ha P hP⟩
  | reopen max =>
    obtain ⟨l₁, disk₁, hclose, hkeeps, ha₁⟩ := h.close
    obtain ⟨l', disk', hinit, h', ha'⟩ := Log.init_of_keeps _ l₁.directory max.2 hkeeps
    simp only [Op.exec, AppendOnly.step, Op.syncedAfter, hclose, hinit]
    refine ⟨l', disk', rfl, h', fun P hP _ hd => ha' P (fun v hv => hP v ?_) (ha₁ P hP hd)⟩
    exact hv.mono h.synced_le_length

/-- **The log over its directory does what the list does.** -/
theorem Log.simulates_appendOnly : Log.machine.Simulates AppendOnly.machine
    (fun s records => s.1.Represents s.2.logs.view records 0) where
  answer {s records} h op := by
    obtain ⟨l', disk', hexec, -, -⟩ := Op.exec_represents (.of s.2) h op
    simp only [Log.machine, AppendOnly.machine, hexec]
  related {s records} h op := by
    obtain ⟨l', disk', hexec, ⟨rss, rs, d, h', hrec, -⟩, -⟩ :=
      Op.exec_represents (.of s.2) h op
    simp only [Log.machine, AppendOnly.machine, hexec]
    exact ⟨rss, rs, d, h', hrec, Nat.zero_le _⟩

/-- **The segmented log is one append-only list.** Opened on an empty
directory and put through any operations, it gives the answers of the list –
the offsets of the records it takes, in turn, and for a record that does not
encode what `encode` raises – and reads as the list from every offset. -/
theorem Log.append_only (directory : String) (maxSegmentBytes : SegmentLimit) (ops : List Op) :
    ∃ l₀ disk₀, Log.init (Disk.of Dir.empty) directory maxSegmentBytes = (.ok l₀, disk₀)
      ∧ ∃ answers l dir records, Log.machine.run (l₀, disk₀.dir) ops = (answers, l, dir)
        ∧ AppendOnly.machine.run [] ops = (answers, records)
        ∧ AppendOnly.offsets answers = (List.range records.length).map (fun n : ℕ => (n : ℤ))
        ∧ l.nextOffset = records.length
        ∧ (∀ offset, 0 ≤ offset →
            l.readFrom dir offset = .ok ⟨records.drop offset.toNat, none⟩)
        ∧ ∀ offset, offset < 0 →
            ∃ msg, l.readFrom dir offset = .error (.offsetOutOfRange msg) := by
  have hempty : Keeps (Disk.of Dir.empty).view [] 0 :=
    ⟨[], [], [], none, stored_empty fun b => rfl, rfl, Nat.zero_le _⟩
  obtain ⟨l₀, disk₀, hinit, hrep, -⟩ := Log.init_of_keeps _ directory maxSegmentBytes.2 hempty
  obtain ⟨hanswers, hfinal⟩ := Log.simulates_appendOnly.run
    (s := (l₀, disk₀.dir)) (a := []) hrep ops
  have hdisk : Represents _ (Disk.of (Log.machine.run (l₀, disk₀.dir) ops).2.2).view _ 0 := hfinal
  obtain ⟨n, hoffsets, hlen⟩ := AppendOnly.offsets_run [] ops
  refine ⟨l₀, disk₀, hinit, _, _, _, _, rfl, Prod.ext hanswers.symm rfl, ?_,
    hdisk.nextOffset_eq, fun offset => hfinal.readFrom,
    fun offset => hfinal.readFrom_neg⟩
  rw [hanswers, hoffsets, hlen, List.length_nil, Nat.zero_add, List.range_eq_range']

end Pyka
