import Pyka.Base.Sparse
import Pyka.Storage.WellFormed

/-!
# The index is the sparse table of its file

Two ways feed an index: the scan that opens a segment, and each append. Both
give it the place where a record starts, so both make the one sparse table of
the sizes of the records (`Index.Canonical`), and a look-up answers with a
place less than an interval before the record asked for
(`Segment.index_canonical`).

That the two ways agree is not a matter of course. The scan feeds the index
from the first record on, in an index that was just cleared; an append feeds
it one record, in an index that has been through everything before. They agree
because what is kept between two records is the list of entries and nothing
else: the place of the last entry decides about the next one. So the table is
a function of the sizes, and a log that is opened again has the index it had
when it was closed.

The bound is in bytes of log, not in records. Between the place a look-up
answers with and the record lie records whose sizes sum up to less than the
interval, which is what a read has to walk over; a record larger than the
interval is never walked over from further away than its own start.
-/

namespace Pyka

open Struct (Bytes)
open Record (framing)

variable [Crc32]

/-- Records take the places of their sizes. -/
theorem Record.length_encAll (rs : List Record) :
    (framing.encAll rs).length = (rs.map Record.size).sum := by
  induction rs with
  | nil => rfl
  | cons r rs ih =>
    rw [framing.encAll_cons, List.length_append, Record.enc_framing, Record.length_frame, ih,
      List.map_cons, List.sum_cons]

namespace Index

/-- **An index that is the sparse table** of its records' sizes. -/
def Canonical (ix : Index) (rs : List Record) : Prop :=
  ix.entries = Sparse.entries ix.intervalBytes 0 0 0 (rs.map Record.size)

omit [Crc32] in
/-- The position of the last entry, as the table has it. -/
theorem lastPosition_eq (ix : Index) : ix.lastPosition = Sparse.lastPlace 0 ix.entries := by
  unfold lastPosition Sparse.lastPlace
  cases ix.entries.getLast? <;> rfl

/-- **One more record** in the file, and in the table. -/
theorem Canonical.of_maybeAppend {ix ix' : Index} {rs : List Record} (h : ix.Canonical rs)
    (happ : ix.maybeAppend (ix.baseOffset + rs.length) (framing.encAll rs).length = .ok ix')
    (r : Record) : ix'.Canonical (rs ++ [r]) := by
  obtain ⟨hentries, -, -, hinterval⟩ := maybeAppend_eq_ok happ
  rw [add_sub_cancel_left, Int.toNat_natCast] at hentries
  unfold Canonical at h ⊢
  rw [hentries, hinterval, List.map_append, Sparse.entries_append, ← h, lastPosition_eq,
    Record.length_encAll, List.length_map, Nat.zero_add, Nat.zero_add]
  rfl

omit [Crc32] in
/-- A look-up in increasing entries answers with none before one that is at or
before the offset. -/
theorem le_lookup {ix : Index}
    (hincreasing : ix.entries.Pairwise fun e e' => e.1 < e'.1 ∧ e.2 < e'.2)
    {e : ℕ × ℕ} (he : e ∈ ix.entries) {offset : ℤ} (hle : ix.baseOffset + e.1 ≤ offset) :
    e.2 ≤ (ix.lookup offset).2 := by
  have hsorted : ix.entries.Pairwise fun e e' => (e.1 : ℤ) ≤ e'.1 :=
    hincreasing.imp fun hlt => by exact_mod_cast hlt.1.le
  obtain ⟨j, hj⟩ := List.getElem?_of_mem he
  unfold lookup
  dsimp only
  cases hi : Bisect.bisectRight ix.entries (offset - ix.baseOffset) (fun e => (e.1 : ℤ)) with
  | zero =>
    have := Bisect.lt_key_of_bisectRight_le hsorted (offset - ix.baseOffset)
      (hi.le.trans (Nat.zero_le j)) hj
    omega
  | succ i =>
    obtain ⟨e', he', -⟩ := Bisect.key_le_of_bisectRight hi
    have hji : j ≤ i := by
      by_contra hlt
      have := Bisect.lt_key_of_bisectRight_le hsorted (offset - ix.baseOffset)
        (j := j) (by rw [hi]; omega) hj
      omega
    simp only [he']
    rcases hji.lt_or_eq with hlt | rfl
    · obtain ⟨hj', rfl⟩ := List.getElem?_eq_some_iff.mp hj
      obtain ⟨hi', rfl⟩ := List.getElem?_eq_some_iff.mp he'
      exact (List.pairwise_iff_getElem.mp hincreasing j i hj' hi' hlt).2.le
    · cases hj.symm.trans he'
      exact le_rfl

omit [Crc32] in
/-- Its entries increase. -/
theorem Canonical.pairwise {ix : Index} {rs : List Record} (h : ix.Canonical rs) :
    ix.entries.Pairwise fun e e' => e.1 < e'.1 ∧ e.2 < e'.2 := by
  unfold Canonical at h
  rw [h]
  refine Sparse.pairwise fun size hsize => ?_
  obtain ⟨r, -, rfl⟩ := List.mem_map.mp hsize
  have := r.size_eq
  omega

/-- **A look-up in a sparse table**: the place it answers with is less than an
interval before the record. -/
theorem Canonical.lookup_near {ix : Index} {rs : List Record} (h : ix.Canonical rs)
    (hinterval : 0 < ix.intervalBytes) {i : ℕ} (hi : i < rs.length) :
    (framing.encAll (rs.take i)).length < (ix.lookup (ix.baseOffset + i)).2 + ix.intervalBytes := by
  have hlt : i < (rs.map Record.size).length := by rwa [List.length_map]
  have hnear := Sparse.near 0 0 0 hinterval hlt
  rw [← List.map_take, ← Record.length_encAll, Nat.zero_add, Nat.zero_add, Nat.zero_add] at hnear
  rcases hnear with hlt | ⟨e, he, hle, hlt⟩
  · omega
  · have hentry : ix.baseOffset + e.1 ≤ ix.baseOffset + i := by omega
    have hle := le_lookup h.pairwise (h ▸ he) hentry
    omega

end Index

namespace Segment

/-- The scan that opens a segment makes the table of what it found. -/
theorem feed_canonical {ix ix' : Index} {rs₀ rs : List Record} (h : ix.Canonical rs₀)
    (hfeed : feed ix (ix.baseOffset + rs₀.length) (framing.encAll rs₀).length rs = .ok ix') :
    ix'.Canonical (rs₀ ++ rs) ∧ ix'.intervalBytes = ix.intervalBytes := by
  refine feed_keeps (P := fun ix' rs => ix'.Canonical rs ∧ ix'.intervalBytes = ix.intervalBytes)
    (fun r hix happ => ?_) ⟨h, rfl⟩ hfeed
  obtain ⟨-, -, -, hinterval⟩ := Index.maybeAppend_eq_ok happ
  exact ⟨hix.1.of_maybeAppend happ r, hinterval.trans hix.2⟩

/-- **A segment that has been opened and written to**, and the disk. Of the
appends, those count that find a place an index entry can hold for the record,
as they do wherever there is room for it (`Holds.position_le`), and of the
others those that do not raise. -/
inductive Reached : Segment → Disk → Prop
  | init {disk disk' : Disk} {base maxBytes : ℤ} {s : Segment}
      (h : Segment.init disk base maxBytes = (.ok s, disk')) : Reached s disk'
  | append {s s' : Segment} {disk disk' : Disk} {r : Record} {res : Except PyError ℕ}
      (h : Reached s disk) (happ : s.append disk r = (res, s', disk'))
      (hplace : s.position ≤ maxU32 ∨ ∃ pos, res = .ok pos) : Reached s' disk'
  | sync {s s' : Segment} {disk disk' : Disk} {res : Except PyError Unit}
      (h : Reached s disk) (hsync : s.sync disk = (res, s', disk')) : Reached s' disk'
  | close {s s' : Segment} {disk disk' : Disk} {res : Except PyError Unit}
      (h : Reached s disk) (hclose : s.close disk = (res, s', disk')) : Reached s' disk'

/-- Where there is room for a record, an index entry can hold its place. -/
theorem Holds.position_le {s : Segment} {rs : List Record} (h : s.Holds rs) {r : Record}
    (hroom : s.hasRoomFor r = true) : s.position ≤ maxU32 := by
  have hlim := h.limit
  have hsize := r.size_eq
  unfold hasRoomFor at hroom
  split at hroom
  · omega
  · rw [decide_eq_true_eq] at hroom
    omega

/-- **A segment that stands for the records in its file**, with the sparse
table of them. -/
structure Tabled (s : Segment) (disk : Disk) (rs : List Record) : Prop where
  holds : s.Holds rs
  file : ∃ f, disk.view s.baseOffset = some f ∧ f.content = framing.encAll rs
  canonical : s.index.Canonical rs
  interval : s.index.intervalBytes = 4096

/-- Opening makes the table. -/
theorem tabled_init {disk disk' : Disk} {base maxBytes : ℤ} {s : Segment}
    (h : Segment.init disk base maxBytes = (.ok s, disk')) : ∃ rs, s.Tabled disk' rs := by
  obtain ⟨rs, hs, hb, -, -, ⟨f, hf, hcontent⟩, -⟩ := init_eq_ok h
  obtain ⟨rs', t, index, hw, hfeed, hmade, f', hf', hcontent'⟩ := init_made h
  -- both say what the file holds
  obtain rfl : f = f' := Option.some_injective _ (hf.symm.trans hf')
  obtain rfl := framing.encAll_injective hs.valid hw.valid (hcontent.symm.trans hcontent')
  have hempty : (freshIndex base).Canonical [] := rfl
  obtain ⟨hc, hinterval⟩ := feed_canonical hempty (by simpa [freshIndex] using hfeed)
  rw [List.nil_append] at hc
  subst hmade
  exact ⟨rs, hs, ⟨f, hf, hcontent⟩, hc, hinterval⟩

namespace Tabled

variable {s s' : Segment} {disk disk' : Disk} {rs : List Record}

/-- **Appending adds to the table.** -/
theorem append (h : s.Tabled disk rs) {r : Record} {res : Except PyError ℕ}
    (happ : s.append disk r = (res, s', disk'))
    (hplace : s.position ≤ maxU32 ∨ ∃ pos, res = .ok pos) : ∃ rs', s'.Tabled disk' rs' := by
  obtain ⟨f, hf, hcontent⟩ := h.file
  unfold Segment.append at happ
  cases hencode : s.encodeNext r with
  | error e =>
    rw [hencode] at happ
    cases happ
    exact ⟨rs, h⟩
  | ok bs =>
    simp only [hencode] at happ
    simp only [encodeNext, bind_eq_ok, raiseIf_eq_ok, pure_eq_ok] at hencode
    obtain ⟨-, hoff, bs', hbs, -, hopen, rfl⟩ := hencode
    obtain ⟨henc, rfl⟩ := (Record.encode_eq_ok_iff _ _).mp hbs
    have hoff : r.offset = s.nextOffset := not_not.mp hoff
    have hopen : s.closed = false := Bool.eq_false_iff.mpr hopen
    have hview : (disk.onLog s.baseOffset (.write r.frame)).view s.baseOffset
        = some { f with content := framing.encAll (rs ++ [r]) } := by
      rw [Disk.view_onLog, Function.update_self, hf, Call.write_onFile, hcontent,
        framing.encAll_append, framing.encAll_cons, framing.encAll_nil, List.append_nil,
        Record.enc_framing]
    have hend : ((disk.onLog s.baseOffset (.write r.frame)).content s.baseOffset).length
        = s.position + r.size := by
      rw [Disk.content_eq, hview, Option.getD_some, h.holds.position, Record.length_encAll,
        Record.length_encAll, List.map_append, List.sum_append]
      simp
    have hfed : s.index.maybeAppend r.offset s.position = s.index.maybeAppend
        (s.index.baseOffset + rs.length) (framing.encAll rs).length := by
      rw [hoff, h.holds.next, h.holds.position, h.holds.index_base]
    unfold advance at happ
    simp only [hend, not_true_eq_false, ne_eq, if_false, hfed] at happ
    cases hix : s.index.maybeAppend (s.index.baseOffset + rs.length) (framing.encAll rs).length with
    | ok ix =>
      rw [hix] at happ
      cases happ
      have hs := h.holds.sound.of_maybeAppend hix r
      obtain ⟨-, hb, hc, hinterval⟩ := Index.maybeAppend_eq_ok hix
      exact ⟨rs ++ [r], h.holds.extend henc hoff hs hb hc, ⟨_, hview, rfl⟩,
        h.canonical.of_maybeAppend hix r, hinterval.trans h.interval⟩
    | error e =>
      -- the index takes every place it can hold
      exfalso
      rw [hix] at happ
      cases happ
      rcases hplace with hle | ⟨pos, hpos⟩
      · rw [h.holds.position] at hle
        have hshort := Record.length_le_encAll rs
        obtain ⟨ix, hok, -⟩ := h.holds.sound.maybeAppend (h.holds.index_closed.trans hopen)
          (by omega) hle r
        cases hix.symm.trans hok
      · cases hpos

/-- Syncing leaves the table alone. -/
theorem sync (h : s.Tabled disk rs) {res : Except PyError Unit}
    (hsync : s.sync disk = (res, s', disk')) : s'.Tabled disk' rs := by
  obtain ⟨hs, ⟨f, hf, hcontent⟩, hc, hinterval⟩ := h
  unfold Segment.sync at hsync
  split at hsync
  · cases hsync
    exact ⟨hs, ⟨f, hf, hcontent⟩, hc, hinterval⟩
  · next hopen =>
    have hix : s.index.closed = false := hs.index_closed.trans (Bool.eq_false_iff.mpr hopen)
    simp only [Index.sync_of_open hix] at hsync
    cases hsync
    refine ⟨⟨hs.valid, hs.consecutive, hs.next, hs.position, hs.sound, hs.index_base,
      hs.index_closed, hs.limit⟩, ?_, hc, hinterval⟩
    rw [Disk.view_onIndex, Disk.view_onIndex, Disk.view_onLog, Function.update_self, hf,
      Call.fsync_onFile]
    exact ⟨_, rfl, hcontent⟩

/-- Sealing does, too. -/
theorem close (h : s.Tabled disk rs) {res : Except PyError Unit}
    (hclose : s.close disk = (res, s', disk')) : s'.Tabled disk' rs := by
  unfold Segment.close at hclose
  split at hclose
  · cases hclose
    exact h
  · cases hsync : s.sync disk with
    | mk res₁ out =>
    obtain ⟨s₁, disk₁⟩ := out
    have h₁ := h.sync hsync
    rw [hsync] at hclose
    cases res₁ with
    | error e =>
      cases hclose
      exact h₁
    | ok _ =>
      have hopen₁ : s₁.index.closed = false := by
        unfold Segment.sync at hsync
        split at hsync
        · cases hsync
        · simp only [Index.sync] at hsync
          split at hsync
          · cases hsync
          · next hix =>
            cases hsync
            exact Bool.eq_false_iff.mpr hix
      simp only [Index.close, hopen₁, Bool.false_eq_true, if_false, Index.sync_of_open] at hclose
      cases hclose
      obtain ⟨hs, hf, hc, hinterval⟩ := h₁
      exact ⟨⟨hs.valid, hs.consecutive, hs.next, hs.position, hs.sound, hs.index_base, rfl,
        hs.limit⟩,
        hf, hc, hinterval⟩

end Tabled

/-- **Every segment reached has the table of its file.** -/
theorem Reached.tabled {s : Segment} {disk : Disk} (h : Reached s disk) :
    ∃ rs, s.Tabled disk rs := by
  induction h with
  | init h => exact tabled_init h
  | append _ happ hplace ih => exact ih.elim fun _ ht => ht.append happ hplace
  | sync _ hsync ih => exact ih.imp fun _ ht => ht.sync hsync
  | close _ hclose ih => exact ih.imp fun _ ht => ht.close hclose

/-- **The index is canonical and its hints are tight.** The entries of every
segment reached are the sparse table of the sizes of the records in its file,
however it came to be fed. They increase, each is the start of the record it
names, and a look-up for a stored record answers with a place at or before its
start, and less than an interval before it. -/
theorem index_canonical {s : Segment} {disk : Disk} (h : Reached s disk) :
    ∃ rs, disk.content s.baseOffset = framing.encAll rs ∧ (∀ r ∈ rs, r.Encodable)
      ∧ Consecutive s.baseOffset rs ∧ s.nextOffset = s.baseOffset + rs.length
      ∧ s.index.intervalBytes = 4096
      ∧ s.index.entries = Sparse.entries s.index.intervalBytes 0 0 0 (rs.map Record.size)
      ∧ (∀ s' disk', Reached s' disk' →
        disk'.content s'.baseOffset = disk.content s.baseOffset →
        s'.index.entries = s.index.entries)
      ∧ s.index.entries.Pairwise (fun e e' => e.1 < e'.1 ∧ e.2 < e'.2)
      ∧ (∀ e ∈ s.index.entries,
        e.1 < rs.length ∧ e.2 = (framing.encAll (rs.take e.1)).length)
      ∧ ∀ i < rs.length,
        (s.index.lookup (s.baseOffset + i)).2 ≤ (framing.encAll (rs.take i)).length
          ∧ (framing.encAll (rs.take i)).length
            < (s.index.lookup (s.baseOffset + i)).2 + s.index.intervalBytes := by
  have hcontent : ∀ {s : Segment} {disk : Disk} {rs}, s.Tabled disk rs →
      disk.content s.baseOffset = framing.encAll rs := fun ht => by
    obtain ⟨f, hf, hcontent⟩ := ht.file
    rw [Disk.content_eq, hf, Option.getD_some, hcontent]
  obtain ⟨rs, ht⟩ := h.tabled
  have hb := ht.holds.index_base
  refine ⟨rs, hcontent ht, ht.holds.valid, ht.holds.consecutive, ht.holds.next, ht.interval,
    ht.canonical, fun s' disk' h' hsame => ?_, ht.canonical.pairwise, ht.holds.sound,
    fun i hi => ⟨?_, ?_⟩⟩
  · obtain ⟨rs', ht'⟩ := h'.tabled
    rw [hcontent ht, hcontent ht'] at hsame
    obtain rfl := framing.encAll_injective ht'.holds.valid ht.holds.valid hsame
    rw [ht.canonical, ht'.canonical, ht.interval, ht'.interval]
  · have hbelow : s.index.baseOffset ≤ s.baseOffset + i := by omega
    obtain ⟨n, -, -, hle, hlook⟩ := ht.holds.sound.lookup hbelow
    rw [hlook]
    exact framing.length_encAll_take_le rs (by omega)
  · rw [← hb]
    exact ht.canonical.lookup_near (by rw [ht.interval]; omega) hi

/-! ## A record that needs an entry -/

/-- A record of more than an interval, and one behind it. -/
def longRecords : List Record := [⟨0, 0, none, some (List.replicate 4100 0)⟩, ⟨1, 0, none, none⟩]

omit [Crc32] in
theorem index_canonical_long : let _ := Crc32.zlib
    ∃ s disk', init (.of ⟨AList.singleton 0 ⟨framing.encAll longRecords, none⟩, ∅⟩) 0 8192
        = (.ok s, disk') ∧ s.index.entries = [(1, 4132)] := by
  intro _
  have hsizes : longRecords.map Record.size = [4132, 32] := by decide +kernel
  have hfile : WellFormed 0 (framing.encAll longRecords) longRecords [] :=
    ⟨(List.append_nil _).symm, by decide +kernel, by decide +kernel, Record.torn_nil⟩
  have hsmall : (framing.encAll longRecords).length ≤ 2 ^ 32 := by
    rw [Record.length_encAll, hsizes]
    decide
  obtain ⟨haccepts, hstate⟩ := init_accepts_iff
    (.of ⟨AList.singleton 0 ⟨framing.encAll longRecords, none⟩, ∅⟩) 0 ⟨8192, by decide⟩ hsmall
  obtain ⟨s, disk', hinit⟩ := haccepts.mpr ⟨_, _, hfile⟩
  obtain ⟨rs, t, -, hunique, ⟨f, hf, hcontent⟩, -⟩ := hstate s disk' hinit
  obtain ⟨rfl, -⟩ := hunique _ _ hfile
  obtain ⟨-, -, hb, -⟩ := init_eq_ok hinit
  obtain ⟨rs', hfile', hvalid, -, -, hinterval, hentries, -⟩ := index_canonical (.init hinit)
  rw [hb, Disk.content_eq, hf, Option.getD_some, hcontent] at hfile'
  obtain rfl := framing.encAll_injective hfile.valid hvalid hfile'
  rw [hsizes, hinterval] at hentries
  exact ⟨s, disk', hinit, hentries⟩

end Segment

end Pyka
