import Pyka.Base.Bisect
import Pyka.Storage.Disk
import Pyka.Storage.RecordFormat

/-!
# The sparse index

Beside each `.log` file stands a list of entries (relative offset, byte
position), both on four unsigned bytes, one for every `intervalBytes` of log
or so. It is derived: opening a segment discards whatever the file held and
feeds the index again from the log.

`Index.Sound` is what an index fed that way satisfies – an entry points at the
start of the record it names. A look-up in a sound index answers with such a
place (`Index.Sound.lookup`), and feeding it the next record keeps it sound
(`Index.Sound.maybeAppend`).

## The file and the list

The source keeps the entries twice: as a list that look-ups bisect, and in a
file that is written through a buffer and not flushed until a sync.
`Index.entries` is the list and `Index.pending` the buffer. The file is read
at one moment, when an index is opened, and may then hold any bytes; what a
look-up answers in that case is `Index.lookup_mem`. As the first thing that
opening a segment does with its index is to clear it, the file's bytes have no
influence on what a segment answers, and they are modelled so that this can be
a theorem rather than an assumption.

## What it refuses

An entry is due once the interval has passed, and `maybeAppend` looks at
nothing else before that. An entry that is due has to fit, both numbers on
four bytes, and to increase; otherwise a `ValueError` comes out. Records that
count up from the base satisfy the last, and a segment that is bounded by
`maxU32` plus one byte the others.
-/

namespace Pyka

open Struct (Bytes)

/-- `>II`: relative offset, position. -/
def entryFmt : List Struct.Field := [.I, .I]

/-- The size of an entry, the calculated size of its layout. -/
def entrySize : ℕ := 8

/-- The greatest value either field of an entry can hold, from which the bound
on the size of a segment comes. -/
def maxU32 : ℕ := 0xFFFFFFFF

/-- An index: its entries as the reader sees them, and what the buffered
writer has not flushed yet. -/
structure Index where
  baseOffset : ℤ
  intervalBytes : ℕ
  entries : List (ℕ × ℕ)
  pending : Bytes
  closed : Bool
  deriving DecidableEq, Repr

namespace Index

/-- The entries in a whole number of entries' bytes. -/
def iterUnpack (bs : Bytes) : List (ℕ × ℕ) :=
  if bs.length < entrySize then []
  else (Struct.ofBigEndian (slice bs 0 4), Struct.ofBigEndian (slice bs 4 8))
    :: iterUnpack (bs.drop entrySize)
termination_by bs.length
decreasing_by
  unfold entrySize at *
  rw [List.length_drop]
  omega

/-- Open an index file, creating it unless it exists. Bytes after the last
whole entry are cut off. -/
def init (disk : Disk) (baseOffset : ℤ) (intervalBytes : ℕ) : Index × Disk :=
  let disk := disk.onIndex baseOffset .touch
  let bs := ((disk.dir.indexes.lookup baseOffset).getD File.empty).content
  let last := bs.length - bs.length % entrySize
  let disk := if bs.length % entrySize ≠ 0 then disk.onIndex baseOffset (.truncate last)
    else disk
  ({ baseOffset, intervalBytes, entries := iterUnpack (bs.take last), pending := [],
     closed := false }, disk)

/-- The position of the last entry, 0 where there is none: the record at
position 0 never needs an entry. -/
def lastPosition (ix : Index) : ℕ :=
  match ix.entries.getLast? with
  | some e => e.2
  | none => 0

/-- Add an entry for a record and the place it starts at, once
`intervalBytes` have passed since the last one. -/
def maybeAppend (ix : Index) (offset : ℤ) (position : ℕ) : Except PyError Index :=
  if (position : ℤ) - ix.lastPosition < ix.intervalBytes then .ok ix
  else do
    let relative := offset - ix.baseOffset
    raiseIf (¬(0 ≤ relative ∧ relative ≤ maxU32)) (.valueError
      (s!"offset {offset} is {relative} from base {ix.baseOffset}, "
        ++ "outside the u32 an entry can hold"))
    raiseIf (¬position ≤ maxU32) (.valueError
      (s!"position {position} is outside the u32 an entry can hold; "
        ++ s!"a segment cannot exceed {maxU32 + 1} bytes"))
    raiseIf (∃ e ∈ ix.entries.getLast?, relative ≤ (e.1 : ℤ)) (.valueError
      (s!"offsets must increase: {offset} follows "
        ++ s!"{ix.baseOffset + ((ix.entries.getLast?.map Prod.fst).getD 0 : ℕ)}"))
    let bs ← structPack entryFmt [relative, position]
    raiseIf (ix.closed = true) (.valueError "write to closed file")
    return { ix with
      pending := ix.pending ++ bs, entries := ix.entries ++ [(relative.toNat, position)] }

/-- **Where to start reading for an offset**: the last entry at or before
it, or the start of the segment where there is none. -/
def lookup (ix : Index) (offset : ℤ) : ℤ × ℕ :=
  let relative := offset - ix.baseOffset
  match Bisect.bisectRight ix.entries relative (fun e => (e.1 : ℤ)) with
  | 0 => (ix.baseOffset, 0)
  | i + 1 =>
    match ix.entries[i]? with
    | some e => (ix.baseOffset + e.1, e.2)
    | none => (ix.baseOffset, 0)

/-- Forget every entry: flush what is buffered, then cut the file to nothing. -/
def clear (ix : Index) (disk : Disk) : Index × Disk :=
  ({ ix with entries := [], pending := [] },
    (disk.onIndex ix.baseOffset (.write ix.pending)).onIndex ix.baseOffset (.truncate 0))

/-- Flush what is buffered, and make the file durable; a closed index cannot
be flushed. -/
def sync (ix : Index) (disk : Disk) : Except PyError Unit × Index × Disk :=
  if ix.closed then (.error (.valueError "flush of closed file"), ix, disk)
  else (.ok (), { ix with pending := [] },
    (disk.onIndex ix.baseOffset (.write ix.pending)).onIndex ix.baseOffset .fsync)

/-- Sync and give up the file handle; the entries stay. -/
def close (ix : Index) (disk : Disk) : Except PyError Unit × Index × Disk :=
  if ix.closed then (.ok (), ix, disk)
  else
    match ix.sync disk with
    | (.ok (), ix, disk) => (.ok (), { ix with closed := true }, disk)
    | (.error e, ix, disk) => (.error e, ix, disk)

/-! ## Opening and closing leave the log alone

What an index does to its own file does not show in the `.log` files, now or
on the way. -/

@[simp] theorem init_view (disk : Disk) (base : ℤ) (n : ℕ) :
    (init disk base n).2.view = disk.view := by
  unfold init
  dsimp only
  split <;> rfl

@[simp] theorem init_always {P : (ℤ → Option File) → Prop} (disk : Disk) (base : ℤ) (n : ℕ) :
    (init disk base n).2.Always P ↔ disk.Always P := by
  unfold init
  dsimp only
  split <;> simp

@[simp] theorem clear_view (ix : Index) (disk : Disk) :
    (ix.clear disk).2.view = disk.view := rfl

@[simp] theorem clear_always {P : (ℤ → Option File) → Prop} (ix : Index) (disk : Disk) :
    (ix.clear disk).2.Always P ↔ disk.Always P := by
  simp [clear]

/-- Syncing an open index. -/
theorem sync_of_open {ix : Index} (h : ix.closed = false) (disk : Disk) :
    ix.sync disk = (.ok (), { ix with pending := [] },
      (disk.onIndex ix.baseOffset (.write ix.pending)).onIndex ix.baseOffset .fsync) := by
  unfold sync
  rw [if_neg (by simp [h])]

/-! ## A look-up answers with an entry

Nothing is assumed of the entries: they may come from a file that holds
anything. The answer is then no more than one of them. -/

/-- **The answer of a look-up**, whatever the entries: the start of the
segment, or an entry at or before the offset asked for. -/
theorem lookup_mem (ix : Index) (offset : ℤ) :
    ix.lookup offset = (ix.baseOffset, 0)
      ∨ ∃ e ∈ ix.entries, ix.baseOffset + e.1 ≤ offset
          ∧ ix.lookup offset = (ix.baseOffset + e.1, e.2) := by
  unfold lookup
  dsimp only
  cases hi : Bisect.bisectRight ix.entries (offset - ix.baseOffset) (fun e => (e.1 : ℤ)) with
  | zero => exact Or.inl rfl
  | succ i =>
    obtain ⟨e, he, hle⟩ := Bisect.key_le_of_bisectRight hi
    refine Or.inr ⟨e, List.mem_of_getElem? he, by omega, ?_⟩
    simp only [he]

/-! ## Feeding an index

The guards of `maybeAppend` are for the caller's errors; where they are
passed, the index is the same but for an entry at its end and its bytes in the
buffer. -/

/-- **What feeding an index comes to**, if it does not raise: one entry more
where the interval has passed. -/
theorem maybeAppend_eq_ok {ix ix' : Index} {offset : ℤ} {position : ℕ}
    (h : ix.maybeAppend offset position = .ok ix') :
    ix'.entries = ix.entries ++ (if ix.lastPosition + ix.intervalBytes ≤ position
        then [((offset - ix.baseOffset).toNat, position)] else [])
      ∧ ix'.baseOffset = ix.baseOffset ∧ ix'.closed = ix.closed
      ∧ ix'.intervalBytes = ix.intervalBytes := by
  unfold maybeAppend at h
  split at h
  · next hlt =>
    cases h
    rw [if_neg (by omega), List.append_nil]
    exact ⟨rfl, rfl, rfl, rfl⟩
  · next hge =>
    simp only [bind_eq_ok, pure_eq_ok] at h
    obtain ⟨-, -, -, -, -, -, bs, -, -, -, rfl⟩ := h
    rw [if_pos (by omega)]
    exact ⟨rfl, rfl, rfl, rfl⟩

/-! ## Sound indexes

An index and the records it was fed. Soundness is about the entries that are
there and not about which ones are: an index that skips records is sound, and
so is one without any entry. -/

section Codec

variable [Crc32]

/-- **Every entry points at the record it names**: the one that many records
into the segment. -/
def Sound (ix : Index) (rs : List Record) : Prop :=
  ∀ e ∈ ix.entries, e.1 < rs.length ∧ e.2 = (Record.framing.encAll (rs.take e.1)).length

/-- Records that come after do not make an index unsound. -/
theorem Sound.append {ix : Index} {rs : List Record} (h : ix.Sound rs)
    (rs' : List Record) : ix.Sound (rs ++ rs') := by
  intro e he
  obtain ⟨hlt, hpos⟩ := h e he
  refine ⟨by rw [List.length_append]; omega, ?_⟩
  rw [hpos, List.take_append_of_le_length (by omega)]

/-- **A look-up in a sound index** answers with the number of a record at or
before the one asked for, and the place where that record starts. -/
theorem Sound.lookup {ix : Index} {rs : List Record} (h : ix.Sound rs) {offset : ℤ}
    (hoffset : ix.baseOffset ≤ offset) : ∃ n : ℕ, n ≤ rs.length ∧ (n = 0 ∨ n < rs.length)
      ∧ ix.baseOffset + n ≤ offset
      ∧ ix.lookup offset = (ix.baseOffset + n, (Record.framing.encAll (rs.take n)).length) := by
  rcases ix.lookup_mem offset with hl | ⟨e, he, hle, hl⟩
  · exact ⟨0, Nat.zero_le _, Or.inl rfl, by simpa using hoffset, by rw [hl]; simp⟩
  · obtain ⟨hlt, hpos⟩ := h e he
    exact ⟨e.1, hlt.le, Or.inr hlt, hle, by rw [hl, hpos]⟩

/-- An entry that was taken points at the record it is for. -/
theorem Sound.of_maybeAppend {ix ix' : Index} {rs : List Record} (h : ix.Sound rs)
    (happ : ix.maybeAppend (ix.baseOffset + rs.length) (Record.framing.encAll rs).length = .ok ix')
    (r : Record) : ix'.Sound (rs ++ [r]) := by
  obtain ⟨hentries, -⟩ := maybeAppend_eq_ok happ
  intro e he
  rw [hentries, add_sub_cancel_left, Int.toNat_natCast] at he
  rcases List.mem_append.mp he with he | he
  · exact h.append [r] e he
  · split_ifs at he
    · rw [List.mem_singleton] at he
      subst he
      exact ⟨by simp, by rw [List.take_left]⟩
    · cases he

/-- **Feeding the next record keeps the index sound**, as long as the record
starts at a place an entry can hold. -/
theorem Sound.maybeAppend {ix : Index} {rs : List Record} (h : ix.Sound rs)
    (hopen : ix.closed = false) (hlen : rs.length ≤ maxU32)
    (hpos : (Record.framing.encAll rs).length ≤ maxU32) (r : Record) :
    ∃ ix', ix.maybeAppend (ix.baseOffset + rs.length) (Record.framing.encAll rs).length = .ok ix'
      ∧ ix'.Sound (rs ++ [r]) ∧ ix'.baseOffset = ix.baseOffset ∧ ix'.closed = false
      ∧ ix'.intervalBytes = ix.intervalBytes := by
  obtain ⟨ix', happ⟩ : ∃ ix', ix.maybeAppend (ix.baseOffset + rs.length)
      (Record.framing.encAll rs).length = .ok ix' := by
    unfold Index.maybeAppend
    split
    · exact ⟨ix, rfl⟩
    · have hrel : ix.baseOffset + (rs.length : ℤ) - ix.baseOffset = (rs.length : ℤ) := by omega
      have hI : ∀ n : ℕ, n ≤ maxU32 → Struct.Field.I.Holds n := by
        intro n hn
        unfold maxU32 at hn
        show 0 ≤ (n : ℤ) ∧ (n : ℤ) < (256 ^ 4 : ℕ)
        norm_num
        omega
      obtain ⟨bs, hbs⟩ : ∃ bs, structPack entryFmt [(rs.length : ℤ),
          ((Record.framing.encAll rs).length : ℤ)] = .ok bs :=
        ⟨_, structPack_eq_ok.mpr (Struct.pack_cons_eq_some.mpr
          ⟨hI _ hlen, _, Struct.pack_cons_eq_some.mpr ⟨hI _ hpos, _, rfl, rfl⟩, rfl⟩)⟩
      have hlast : ¬∃ e ∈ ix.entries.getLast?, (rs.length : ℤ) ≤ e.1 := by
        rintro ⟨e, he, hle⟩
        have := (h e (List.mem_of_getLast? he)).1
        omega
      refine ⟨{ ix with
          pending := ix.pending ++ bs
          entries := ix.entries ++ [(rs.length, (Record.framing.encAll rs).length)] }, ?_⟩
      simp only [bind_eq_ok, raiseIf_eq_ok, pure_eq_ok, hrel, hbs, hopen]
      refine ⟨(), by omega, (), by omega, (), hlast, bs, rfl, (), by simp, ?_⟩
      simp
  obtain ⟨-, hb, hc, hinterval⟩ := maybeAppend_eq_ok happ
  exact ⟨ix', happ, h.of_maybeAppend happ r, hb, hc.trans hopen, hinterval⟩

end Codec

end Index

end Pyka
