import Pyka.Storage.AppendOnly

/-!
# Crashes

`Recovery.system` runs a log through its operations, with crashes: at any of
the states the directory passes through during an operation, or while it is
being opened again, the process may be gone and the directory be what
`Dir.Crash` leaves of that state. The system also keeps two things nobody
stores: the records appended so far, and how many of them had been appended
when the last `sync` completed.

Whatever the run, a directory found after a crash opens
(`Recovery.crash_recovery`): to the records that are whole in the bytes kept,
which are the first so many of those appended and among them all that were
synced.

## Where a crash strikes

An operation is not one write. A roll syncs a file, opens another and cuts it;
an opening touches files, cuts a torn rest and syncs what it seals. The
operations carry the states they went through (`Disk.past`), and a crash picks
any of them and then takes away bytes that were not durable in it. A record
counts as appended when the operation in which it was written was cut off,
too: it may be found afterwards or not, and the one that called never learned
which.

## The invariant

`Recovery.Good` has two forms. With a log that runs, the log stands for what
was appended; with a directory that a crash left, the directory keeps the
first so many records. The steps from the one to the other are the crashes,
and the step back is an opening. As a crash can follow a crash before anything
has been opened, the second form has to be kept by crashes as well.
-/

namespace Pyka

open Struct (Bytes)
open Record (framing)

variable [Crc32]

/-- **How many records are wholly contained** in the bytes of the `.log`
files. -/
def Dir.wholeRecords (dir : Dir) : ℕ :=
  (dir.glob.map fun base =>
    (framing.scan ((dir.logs.view base).getD File.empty).content).1.length).sum

namespace Stored

variable {v : ℤ → Option File} {rss : List (List Record)} {rs : List Record} {t : Bytes}
  {d : Option ℕ}

/-- The records of the files of a chain. -/
theorem sum_scan {base : ℤ} (hsealed : Sealed v base rss)
    (hvalid : ∀ r ∈ rss.flatten ++ rs, r.Encodable)
    (htail : (v (base + rss.flatten.length)).getD File.empty = ⟨framing.encAll rs ++ t, d⟩)
    (htorn : Record.Torn t) :
    ((chainBases base rss).map fun b =>
        (framing.scan ((v b).getD File.empty).content).1.length).sum
      = (rss.flatten ++ rs).length := by
  induction rss generalizing base with
  | nil =>
    have hread := (Record.read_eq_none_iff t).mpr htorn
    rw [List.flatten_nil, List.length_nil, Nat.cast_zero, add_zero] at htail
    rw [List.flatten_nil, List.nil_append] at hvalid ⊢
    rw [chainBases, List.map_singleton, List.sum_singleton, htail]
    rw [framing.scan_encAll_append hvalid,
      framing.scan_of_read_ne_some (by simp [Record.read_framing, hread]), List.append_nil]
  | cons c rss ih =>
    obtain ⟨⟨-, -, hf⟩, hsealed⟩ := hsealed
    have hlen : (c ++ (rss.flatten ++ rs)).length = c.length + (rss.flatten ++ rs).length :=
      List.length_append
    rw [List.flatten_cons, List.append_assoc] at hvalid
    rw [List.flatten_cons, List.length_append, Nat.cast_add, ← add_assoc] at htail
    rw [chainBases, List.map_cons, List.sum_cons, hf, Option.getD_some,
      framing.scan_encAll fun r hr => hvalid r (List.mem_append_left _ hr),
      ih hsealed (fun r hr => hvalid r (List.mem_append_right _ hr)) htail, List.flatten_cons,
      List.append_assoc, hlen]

/-- **The whole records of a directory** are those it stores. -/
theorem wholeRecords_eq {dir : Dir} (h : Stored dir.logs.view rss rs t d) :
    dir.wholeRecords = (rss.flatten ++ rs).length := by
  unfold Dir.wholeRecords
  rcases Log.sort_glob h with hs | ⟨rfl, rfl, hglob⟩
  · rw [← sum_scan h.sealed h.valid (by rw [zero_add]; exact h.tail) h.torn, ← hs]
    exact ((List.perm_insertionSort _ _).map _).sum_eq.symm
  · rw [hglob]
    rfl

end Stored

namespace Keeps

variable {records : List Record} {synced : ℕ}

/-- What files keep of records is what is whole in them. -/
theorem wholeRecords_eq {dir : Dir} (h : Keeps dir.logs.view records synced) :
    dir.wholeRecords = records.length := by
  obtain ⟨rss, rs, t, d, h, rfl, -⟩ := h
  exact h.wholeRecords_eq

/-- No more is durable than was appended. -/
theorem synced_le_length {v : ℤ → Option File} (h : Keeps v records synced) :
    synced ≤ records.length := by
  obtain ⟨rss, rs, t, d, -, rfl, hs⟩ := h
  have := framing.whole_le_length rs (d.getD 0)
  rw [List.length_append]
  omega

/-- **A crash leaves the first so many records**, and not fewer than are
durable. -/
theorem crash {v v' : ℤ → Option File} (h : Keeps v records synced)
    (hcrash : ∀ b, File.Crash (v b) (v' b)) :
    ∃ n, n ≤ records.length ∧ Keeps v' (records.take n) synced := by
  obtain ⟨rss, rs, t, d, h, rfl, hs⟩ := h
  have hzero : framing.whole rs 0 = 0 := by
    have hle := ((framing.le_whole_iff rs 0 _).mp le_rfl)
    have := Record.length_le_encAll (rs.take (framing.whole rs 0))
    rw [List.length_take, Nat.min_eq_left hle.1] at this
    omega
  rcases h.crash hcrash with ⟨k, t', hk, -, -, h'⟩ | ⟨rfl, -, ⟨rfl, h'⟩ | ⟨rss₀, rs₀, rfl, h'⟩⟩
  · have hle := framing.whole_le_length rs k
    refine ⟨rss.flatten.length + framing.whole rs k, by rw [List.length_append]; omega,
      rss, rs.take (framing.whole rs k), t', d, h', ?_, hs.trans (Nat.add_le_add_left ?_ _)⟩
    · rw [List.take_length_add_append]
    · obtain ⟨hw, -⟩ := h.durable_take hk
      refine (framing.le_whole_iff _ _ _).mpr ⟨?_, ?_⟩
      · rw [List.length_take, Nat.min_eq_left hle]
        exact hw
      · rw [List.take_take, Nat.min_eq_left hw]
        exact h.durable_whole.le
  · refine ⟨0, Nat.zero_le _, [], [], [], none, h', rfl, ?_⟩
    rw [Option.getD_none, hzero] at hs
    exact hs
  · rw [Option.getD_none, hzero, Nat.add_zero] at hs
    have hflat : (rss₀ ++ [rs₀]).flatten = rss₀.flatten ++ rs₀ := by simp
    refine ⟨(rss₀ ++ [rs₀]).flatten.length, by rw [List.length_append]; omega,
      rss₀, rs₀, [], _, h', ?_, ?_⟩
    · rw [List.take_left, hflat]
    · rw [Option.getD_some, framing.whole_of_length_le rs₀ le_rfl, ← List.length_append, ← hflat]
      exact hs

end Keeps

/-! ## Runs with crashes

The operations are those of `Pyka.Storage.AppendOnly`, carried out by the
functions of the source; the crashes are this module's. -/

/-- Every state a directory has been through. -/
def Disk.states (disk : Disk) : List Dir := disk.dir :: disk.past

omit [Crc32] in
/-- What held throughout held in each of them. -/
theorem Disk.Always.of_mem_states {P : (ℤ → Option File) → Prop} {disk : Disk}
    (h : disk.Always P) {dir : Dir} (hdir : dir ∈ disk.states) : P dir.logs.view := by
  rcases List.mem_cons.mp hdir with rfl | hdir
  · exact h.1
  · exact h.2 dir hdir

/-- The record an operation that answers so writes. -/
def Op.recorded : Op → Except PyError (Option ℤ) → List Record
  | .append key value timestamp clock, .ok (some offset) =>
    [⟨offset, timestamp.getD clock, key, value⟩]
  | _, _ => []

/-- An operation adds to the list what it records. -/
theorem AppendOnly.step_eq (records : List Record) (op : Op) :
    (AppendOnly.step records op).2 = records ++ op.recorded (AppendOnly.step records op).1 := by
  cases op with
  | append key value timestamp clock =>
    cases he : Record.encode ⟨records.length, timestamp.getD clock, key, value⟩ with
    | ok bs => simp only [AppendOnly.step, he, Op.recorded]
    | error e => simp only [AppendOnly.step, he, Op.recorded, List.append_nil]
  | roll => exact (List.append_nil _).symm
  | sync => exact (List.append_nil _).symm
  | reopen max => exact (List.append_nil _).symm

namespace Recovery

/-- A log that runs, or a directory that a crash left; with the records
appended so far, and how many of them were appended before the last `sync`
that completed. -/
structure State where
  log : Option Log
  dir : Dir
  appended : List Record
  synced : ℕ

/-- What happens in a step: an operation or an opening, with a crash in it or
without. -/
inductive Event
  | op (op : Op)
  | crashInOp (op : Op)
  | reopen (maxSegmentBytes : SegmentLimit)
  | crashInOpen (maxSegmentBytes : SegmentLimit)

/-- **The steps of a run with crashes.** -/
inductive Step (directory : String) : State → Event → State → Prop
  /-- An operation completes. -/
  | op {l l' : Log} {dir : Dir} {appended : List Record} {synced : ℕ} {op : Op}
      {answer : Except PyError (Option ℤ)} {disk : Disk}
      (h : op.exec l (Disk.of dir) = (answer, l', disk)) :
      Step directory ⟨some l, dir, appended, synced⟩ (.op op)
        ⟨some l', disk.dir, appended ++ op.recorded answer,
          op.syncedAfter appended.length synced⟩
  /-- A crash at one of the states an operation goes through. The record it
  was about to answer for counts as appended: its bytes may be there. -/
  | crashInOp {l l' : Log} {dir dir₁ dir₂ : Dir} {appended : List Record} {synced : ℕ}
      {op : Op} {answer : Except PyError (Option ℤ)} {disk : Disk}
      (h : op.exec l (Disk.of dir) = (answer, l', disk)) (hmem : dir₁ ∈ disk.states)
      (hcrash : dir₁.Crash dir₂) :
      Step directory ⟨some l, dir, appended, synced⟩ (.crashInOp op)
        ⟨none, dir₂, appended ++ op.recorded answer, synced⟩
  /-- The directory is opened; the records that are not whole in it are gone. -/
  | reopen {l : Log} {dir : Dir} {appended : List Record} {synced : ℕ}
      {max : SegmentLimit} {disk : Disk}
      (h : Log.init (Disk.of dir) directory max = (.ok l, disk)) :
      Step directory ⟨none, dir, appended, synced⟩ (.reopen max)
        ⟨some l, disk.dir, appended.take dir.wholeRecords, synced⟩
  /-- A crash while the directory is being opened. -/
  | crashInOpen {res : Except PyError Log} {dir dir₁ dir₂ : Dir} {appended : List Record}
      {synced : ℕ} {max : SegmentLimit} {disk : Disk}
      (h : Log.init (Disk.of dir) directory max = (res, disk)) (hmem : dir₁ ∈ disk.states)
      (hcrash : dir₁.Crash dir₂) :
      Step directory ⟨none, dir, appended, synced⟩ (.crashInOpen max)
        ⟨none, dir₂, appended, synced⟩

/-- Runs start from an empty directory. -/
def system (directory : String) : System State Event where
  start := fun s => s = ⟨none, Dir.empty, [], 0⟩
  step := Step directory

/-- **The invariant**: a log that runs stands for what was appended, and a
directory keeps the first so many records, all the synced ones among them. -/
def Good (s : State) : Prop :=
  match s.log with
  | some l => l.Represents s.dir.logs.view s.appended s.synced
  | none => ∃ n, n ≤ s.appended.length ∧ Keeps s.dir.logs.view (s.appended.take n) s.synced

/-- A crash among states that keep some of the records leaves a directory
that keeps some of them. -/
theorem good_of_crash {appended : List Record} {synced n : ℕ} {dir₁ dir₂ : Dir}
    (h : Keeps dir₁.logs.view (appended.take n) synced) (hcrash : dir₁.Crash dir₂) :
    ∃ n, n ≤ appended.length ∧ Keeps dir₂.logs.view (appended.take n) synced := by
  obtain ⟨m, hm, hkeeps⟩ := h.crash hcrash
  rw [List.take_take, Nat.min_eq_left (hm.trans (List.length_take_le _ _))] at hkeeps
  rw [List.length_take] at hm
  exact ⟨m, hm.trans (Nat.min_le_right _ _), hkeeps⟩

/-- At the start nothing is appended, and an empty directory keeps it. -/
theorem good_start {directory : String} {s : State} (h : (system directory).start s) : Good s := by
  cases h
  exact ⟨0, le_rfl, [], [], [], none, stored_empty fun b => rfl, rfl, Nat.zero_le _⟩

/-- **Every step keeps the invariant.** -/
theorem good_step {directory : String} {s s' : State} {e : Event} (hs : Good s)
    (h : Step directory s e s') : Good s' := by
  cases h with
  | @op l l' dir appended synced op answer disk h =>
    obtain ⟨l₁, disk₁, hexec, hrep, -⟩ := Op.exec_represents (.of dir) hs op
    rw [hexec] at h
    cases h
    rw [AppendOnly.step_eq] at hrep
    exact hrep
  | @crashInOp l l' dir dir₁ dir₂ appended synced op answer disk h hmem hcrash =>
    obtain ⟨l₁, disk₁, hexec, hrep, ha⟩ := Op.exec_represents (.of dir) hs op
    rw [hexec] at h
    cases h
    rw [AppendOnly.step_eq] at ha
    generalize op.recorded (AppendOnly.step appended op).1 = recorded at ha ⊢
    have hkept := (ha (fun v => ∃ n, Keeps v ((appended ++ recorded).take n) synced)
      (fun v hv => ⟨appended.length, by rwa [List.take_left]⟩)
      (fun v hv => ⟨(appended ++ recorded).length, by rwa [List.take_length]⟩)
      ((Disk.always_of dir).mpr ⟨appended.length, by rw [List.take_left]; exact hs.keeps⟩)
      ).of_mem_states hmem
    obtain ⟨n, hn⟩ := hkept
    exact good_of_crash hn hcrash
  | @reopen l dir appended synced max disk h =>
    obtain ⟨n, hn, hkeeps⟩ := hs
    obtain ⟨l₁, disk₁, hinit, hrep, -⟩ :=
      Log.init_of_keeps (Disk.of dir) directory max.2 hkeeps
    rw [hinit] at h
    cases h
    have hwhole := hkeeps.wholeRecords_eq
    rw [List.length_take, Nat.min_eq_left hn] at hwhole
    show Log.Represents _ _ (appended.take dir.wholeRecords) synced
    rw [hwhole]
    exact hrep
  | @crashInOpen res dir dir₁ dir₂ appended synced max disk h hmem hcrash =>
    obtain ⟨n, hn, hkeeps⟩ := hs
    obtain ⟨l₁, disk₁, hinit, hrep, ha⟩ :=
      Log.init_of_keeps (Disk.of dir) directory max.2 hkeeps
    rw [hinit] at h
    cases h
    have hkept := (ha (fun v => Keeps v (appended.take n) synced) (fun v hv => hv)
      ((Disk.always_of dir).mpr hkeeps)).of_mem_states hmem
    exact good_of_crash hkept hcrash

/-- **Recovery keeps a prefix, and everything that was synced.** However a
run with crashes came to a directory that is to be opened – at whatever
point of whatever operation the last crash struck, or in the middle of
recovering from an earlier one – it opens, for any segment limit; the log
has the records that are whole in the kept bytes, which are the first so
many of those appended and all that were synced; and the next append gets
the next offset and survives a clean reopening. -/
theorem crash_recovery (directory : String) {dir : Dir} {appended : List Record} {synced : ℕ}
    (h : (system directory).Reachable ⟨none, dir, appended, synced⟩) (max : SegmentLimit) :
    ∃ l disk, Log.init (Disk.of dir) directory max = (.ok l, disk)
      ∧ l.nextOffset = dir.wholeRecords
      ∧ synced ≤ dir.wholeRecords
      ∧ dir.wholeRecords ≤ appended.length
      ∧ l.readFrom disk.dir 0 = .ok ⟨appended.take dir.wholeRecords, none⟩
      ∧ ∀ key value timestamp clock bs (max' : SegmentLimit),
          Record.encode ⟨dir.wholeRecords, timestamp.getD clock, key, value⟩ = .ok bs →
          ∃ l₁ disk₁ l₂ disk₂,
            l.append (Disk.of disk.dir) key value timestamp clock
              = (.ok (dir.wholeRecords : ℤ), l₁, disk₁)
            ∧ (Op.reopen max').exec l₁ (Disk.of disk₁.dir) = (.ok none, l₂, disk₂)
            ∧ l₂.readFrom disk₂.dir 0 = .ok ⟨appended.take dir.wholeRecords
                ++ [⟨dir.wholeRecords, timestamp.getD clock, key, value⟩], none⟩ := by
  obtain ⟨n, hn, hkeeps⟩ := h.invariant (fun s hs => good_start hs)
    (fun s e s' hs hstep => good_step hs hstep)
  have hlen : (appended.take n).length = n := by rw [List.length_take, Nat.min_eq_left hn]
  have hwhole : dir.wholeRecords = n := hkeeps.wholeRecords_eq.trans hlen
  obtain ⟨l, disk, hinit, hrep, -⟩ :=
    Log.init_of_keeps (Disk.of dir) directory max.2 hkeeps
  have hsynced := hkeeps.synced_le_length
  rw [hwhole]
  refine ⟨l, disk, hinit, ?_, by rwa [hlen] at hsynced, hn, ?_, ?_⟩
  · rw [hrep.nextOffset_eq, hlen]
  · exact hrep.readFrom le_rfl
  · intro key value timestamp clock bs max' henc
    have hdisk : l.Represents (Disk.of disk.dir).view (appended.take n) synced := hrep
    have hnext : (⟨n, timestamp.getD clock, key, value⟩ : Record)
        = ⟨(appended.take n).length, timestamp.getD clock, key, value⟩ := by rw [hlen]
    obtain ⟨l₁, disk₁, happ, hrep₁, -⟩ :=
      hdisk.append hnext ((Record.encode_eq_ok_iff _ _).mp henc).1
    obtain ⟨l₂, disk₂, hexec, hrep₂, -⟩ :=
      Op.exec_represents (.of disk₁.dir) hrep₁ (.reopen max')
    rw [hlen] at happ
    exact ⟨l₁, disk₁, l₂, disk₂, happ, hexec, hrep₂.readFrom le_rfl⟩

omit [Crc32] in
/-- A record is appended and synced, and the power fails amid the append of
another: ten bytes of its frame are there. The directory opens to the first
record, and the next append gets offset 1. -/
theorem crash_recovery_torn : let _ := Crc32.zlib
    ∃ (dir : Dir) (l : Log) (disk : Disk),
      (system "orders-0").Reachable
          ⟨none, dir, [⟨0, 5, some [], none⟩, ⟨1, 6, some [], none⟩], 1⟩
        ∧ (dir.logs.view 0).map (fun f => f.content.length) = some (32 + 10)
        ∧ Log.init (Disk.of dir) "orders-0" 4096 = (.ok l, disk) ∧ l.nextOffset = 1
        ∧ l.readFrom disk.dir 0 = .ok ⟨[⟨0, 5, some [], none⟩], none⟩
        ∧ ∃ l₁ disk₁, l.append (Disk.of disk.dir) (some []) none (some 7) 0
          = (.ok 1, l₁, disk₁) := by
  intro _
  let max : SegmentLimit := ⟨4096, by decide⟩
  let put (timestamp : ℤ) : Op := .append (some []) none (some timestamp) 0
  have hempty : Keeps (Disk.of Dir.empty).view [] 0 :=
    ⟨[], [], [], none, stored_empty fun b => rfl, rfl, Nat.zero_le _⟩
  obtain ⟨l₀, disk₀, hinit, -⟩ := Log.init_of_keeps _ "orders-0" max.2 hempty
  -- append, sync, append
  let out₁ := (put 5).exec l₀ (.of disk₀.dir)
  let out₂ := Op.sync.exec out₁.2.1 (.of out₁.2.2.dir)
  let out₃ := (put 6).exec out₂.2.1 (.of out₂.2.2.dir)
  let fresh := Log.init (Disk.of Dir.empty) "orders-0" 4096
  have hrun : (fresh.1.toOption.map fun l₀ =>
        let out₁ := (put 5).exec l₀ (.of fresh.2.dir)
        let out₂ := Op.sync.exec out₁.2.1 (.of out₁.2.2.dir)
        let out₃ := (put 6).exec out₂.2.1 (.of out₂.2.2.dir)
        (out₁.1.toOption, out₂.1.toOption, out₃.1.toOption, out₃.2.2.dir.logs.keys))
      = some (some (some 0), some none, some (some 1), [0]) := by
    decide +kernel
  have hfile : (fresh.1.toOption.bind fun l₀ =>
        let out₁ := (put 5).exec l₀ (.of fresh.2.dir)
        let out₂ := Op.sync.exec out₁.2.1 (.of out₁.2.2.dir)
        let out₃ := (put 6).exec out₂.2.1 (.of out₂.2.2.dir)
        (out₃.2.2.dir.logs.lookup 0).map fun f => (f.content, f.durable))
      = some (Record.frame ⟨0, 5, some [], none⟩ ++ Record.frame ⟨1, 6, some [], none⟩,
        some 32) := by
    decide +kernel
  have hinit' : fresh = (.ok l₀, disk₀) := hinit
  rw [hinit'] at hrun hfile
  have hrun : (out₁.1.toOption, out₂.1.toOption, out₃.1.toOption, out₃.2.2.dir.logs.keys)
      = (some (some 0), some none, some (some 1), [0]) := Option.some.inj hrun
  simp only [Prod.mk.injEq] at hrun
  obtain ⟨hanswer₁, hanswer₂, hanswer₃, hkeys⟩ := hrun
  have ok_of_toOption : ∀ {x : Except PyError (Option ℤ)} {a}, x.toOption = some a → x = .ok a :=
    fun {x a} h => by
      cases x with
      | error e => cases h
      | ok b =>
        cases h
        rfl
  have hexec₁ : (put 5).exec l₀ (.of disk₀.dir) = (.ok (some 0), out₁.2.1, out₁.2.2) :=
    Prod.ext (ok_of_toOption hanswer₁) rfl
  have hexec₂ : Op.sync.exec out₁.2.1 (.of out₁.2.2.dir) = (.ok none, out₂.2.1, out₂.2.2) :=
    Prod.ext (ok_of_toOption hanswer₂) rfl
  have hexec₃ : (put 6).exec out₂.2.1 (.of out₂.2.2.dir) = (.ok (some 1), out₃.2.1, out₃.2.2) :=
    Prod.ext (ok_of_toOption hanswer₃) rfl
  -- the second frame is cut
  let frames := Record.frame ⟨0, 5, some [], none⟩ ++ Record.frame ⟨1, 6, some [], none⟩
  let left : Dir := ⟨AList.insert 0 ⟨frames.take 42, some 32⟩ ∅, ∅⟩
  have hcrash : out₃.2.2.dir.Crash left := fun base => by
    by_cases hbase : base = 0
    · subst hbase
      obtain ⟨f, hf, heq⟩ := Option.map_eq_some_iff.mp hfile
      obtain ⟨hcontent, hdurable⟩ := Prod.mk.inj heq
      have hview : out₃.2.2.dir.logs.view 0 = some ⟨frames, some 32⟩ := by
        rw [show (⟨frames, some 32⟩ : File) = ⟨f.content, f.durable⟩ by rw [hcontent, hdurable]]
        exact hf
      rw [hview, show left.logs.view 0 = some ⟨frames.take 42, some 32⟩ from AList.lookup_insert _]
      exact .cut 42 (by decide +kernel)
    · have hgone : out₃.2.2.dir.logs.view base = none := by
        rw [Files.view, AList.lookup_eq_none, AList.mem_keys, hkeys]
        simpa using hbase
      have hleft : left.logs.view base = none := by
        rw [Files.view, AList.lookup_eq_none, AList.mem_insert]
        simpa using hbase
      rw [hgone, hleft]
      exact .absent
  have hopened := @Step.reopen _ "orders-0" l₀ Dir.empty [] 0 max disk₀ hinit
  rw [List.take_nil] at hopened
  have hfirst : Step "orders-0" ⟨some l₀, disk₀.dir, [], 0⟩ (.op (put 5))
      ⟨some out₁.2.1, out₁.2.2.dir, [⟨0, 5, some [], none⟩], 0⟩ := Step.op hexec₁
  have hsynced : Step "orders-0" ⟨some out₁.2.1, out₁.2.2.dir, [⟨0, 5, some [], none⟩], 0⟩
      (.op .sync)
      ⟨some out₂.2.1, out₂.2.2.dir, [⟨0, 5, some [], none⟩], 1⟩ := Step.op hexec₂
  have hcut : Step "orders-0" ⟨some out₂.2.1, out₂.2.2.dir, [⟨0, 5, some [], none⟩], 1⟩
      (.crashInOp (put 6)) ⟨none, left, [⟨0, 5, some [], none⟩, ⟨1, 6, some [], none⟩], 1⟩ :=
    Step.crashInOp hexec₃ List.mem_cons_self hcrash
  have hreach :=
    ((((System.Reachable.start (S := system "orders-0") rfl).step hopened).step hfirst).step
    hsynced).step hcut
  have hwhole : left.wholeRecords = 1 := by decide +kernel
  obtain ⟨l, disk, hopen, hnext, -, -, hread, happend⟩ := crash_recovery "orders-0" hreach max
  rw [hwhole] at hnext hread happend
  have henc : Record.Encodable ⟨1, 7, some [], none⟩ := by decide
  obtain ⟨l₁, disk₁, -, -, happ, -⟩ := happend (some []) none (some 7) 0 _ max
    (Record.encode_of_encodable henc)
  exact ⟨left, l, disk, hreach, by decide +kernel, hopen, hnext, hread, l₁, disk₁, happ⟩

end Recovery

end Pyka
