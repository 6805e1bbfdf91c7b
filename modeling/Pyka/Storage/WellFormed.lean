import Pyka.Storage.Faults

/-!
# What opening a segment accepts

A `.log` file is opened exactly where it is well formed: records that count up
from the base, and behind them at most what a torn write can have left
(`Segment.init_accepts_iff`). There is one way to read a file so; the torn
rest is gone afterwards, and opening the file again finds nothing to do.

The predicate is about bytes. It does not say where they come from, so it
covers a file that a crash has cut, one that somebody has edited, and one that
was never a log: each is opened or refused by what is in it. Nor does it
mention the index, whose file is cleared before the scan begins.

Three things can go wrong in the scan, and each is a way not to be well
formed: a rest that is not torn, at which `readOne` raises; a record out of
turn; and records that are more than an index can cover, which is the reason
for the bound on the file's length. With the bound the index takes every entry
it is fed, and the equivalence is exact.

That a second opening changes nothing is what makes it safe to be stopped in
the middle of a recovery: what the first one does is to create the file, to
clear the index and to cut the torn rest, and each of these finds nothing to
do the second time.
-/

namespace Pyka

open Struct (Bytes)
open Record (framing)

variable [Crc32]

/-- **A well-formed file** of records from `base` on, and a torn rest. All
that a reader has to know of the records is a field. -/
structure WellFormed (base : ℤ) (bs : Bytes) (rs : List Record) (t : Bytes) : Prop where
  content : bs = framing.encAll rs ++ t
  valid : ∀ r ∈ rs, r.Encodable
  consecutive : Consecutive base rs
  torn : Record.Torn t

namespace WellFormed

variable {base : ℤ} {bs t t' : Bytes} {rs rs' : List Record}

/-- **There is one way to read a file.** -/
theorem unique (h : WellFormed base bs rs t) (h' : WellFormed base bs rs' t') :
    rs' = rs ∧ t' = t := by
  have hstop : ∀ {t}, Record.Torn t → ∀ r, framing.read t ≠ .ok (some r) := fun {t} ht r hread => by
    rw [Record.read_framing, (Record.read_eq_none_iff t).mpr ht] at hread
    cases hread
  exact framing.scan_unique h'.valid h.valid (hstop h'.torn) (hstop h.torn)
    (h'.content.symm.trans h.content)

/-- Without the rest it is well formed, too. -/
theorem cut (h : WellFormed base bs rs t) : WellFormed base (framing.encAll rs) rs [] :=
  ⟨(List.append_nil _).symm, h.valid, h.consecutive, Record.torn_nil⟩

end WellFormed

namespace Segment

/-- **The scan of a well-formed file** feeds the index its records, and the
torn rest makes no difference. -/
theorem recoverLoop_wellFormed {base : ℤ} {bs t : Bytes} {rs : List Record} (name : String)
    (h : WellFormed base bs rs t) :
    recoverLoop name ⟨bs, 0⟩ (freshIndex base) base 0
      = (feed (freshIndex base) base 0 rs).map
          fun ix => (base + rs.length, (framing.encAll rs).length, ix) := by
  obtain ⟨f', hrest, hloop⟩ := recoverLoop_content name (freshIndex base) h.content h.valid
    h.consecutive
  have htorn : Record.Torn f'.rest := hrest ▸ h.torn
  rw [hloop]
  cases feed (freshIndex base) base 0 rs with
  | error e => rfl
  | ok ix => exact recoverLoop_torn htorn

/-- Opening a well-formed file gives the segment that stands at the end of its
records, if the index takes its entries. -/
theorem init_wellFormed {disk : Disk} {base maxBytes : ℤ} {rs : List Record} {t : Bytes}
    (hmax : 0 < maxBytes ∧ maxBytes ≤ maxU32 + 1) (h : WellFormed base (disk.content base) rs t) :
    (init disk base maxBytes).1 = (feed (freshIndex base) base 0 rs).map fun index =>
      { baseOffset := base, maxBytes, index, nextOffset := base + rs.length,
        position := (framing.encAll rs).length, closed := false } := by
  rw [init_fst hmax, recoverLoop_wellFormed _ h]
  cases feed (freshIndex base) base 0 rs <;> rfl

/-- **What a segment just opened is made of**: the records of its file, which
is well formed, and the index that was fed them. -/
theorem init_made {disk disk' : Disk} {base maxBytes : ℤ} {s : Segment}
    (h : init disk base maxBytes = (.ok s, disk')) :
    ∃ rs t index, WellFormed base (disk.content base) rs t
      ∧ feed (freshIndex base) base 0 rs = .ok index
      ∧ s = { baseOffset := base, maxBytes, index, nextOffset := base + rs.length,
              position := (framing.encAll rs).length, closed := false }
      ∧ ∃ f, disk'.view base = some f ∧ f.content = framing.encAll rs := by
  obtain ⟨_, hs, -, hsmax, -⟩ := init_eq_ok h
  have hmax : 0 < maxBytes ∧ maxBytes ≤ maxU32 + 1 := hsmax ▸ hs.limit
  have hfst : (init disk base maxBytes).1 = _ := init_fst hmax
  rw [h] at hfst
  cases hloop : recoverLoop (logName base) ⟨disk.content base, 0⟩ (freshIndex base) base 0 with
  | error e => rw [hloop] at hfst; cases hfst
  | ok found =>
    obtain ⟨nextOffset, position, index⟩ := found
    obtain ⟨rs, t, hcontent, hvalid, hcons, htorn, -⟩ := recoverLoop_eq_ok hloop
    have hw : WellFormed base (disk.content base) rs t := ⟨hcontent, hvalid, hcons, htorn⟩
    have hmade := init_wellFormed hmax hw
    rw [h] at hmade
    cases hfeed : feed (freshIndex base) base 0 rs with
    | error e => rw [hfeed] at hmade; cases hmade
    | ok index =>
      rw [hfeed] at hmade
      cases hmade
      obtain ⟨f, hf, hcut⟩ := init_content h
      refine ⟨rs, t, index, hw, hfeed, rfl, f, hf, ?_⟩
      rw [hcut, hcontent]
      exact List.take_left

/-- The `.index` file of a segment just opened is empty, and no other has
changed. -/
theorem init_indexes {disk disk' : Disk} {base maxBytes : ℤ} {res : Except PyError Segment}
    (hmax : 0 < maxBytes ∧ maxBytes ≤ maxU32 + 1) (h : init disk base maxBytes = (res, disk'))
    (b : ℤ) : (disk'.dir.indexes.view b).map File.content
      = if b = base then some [] else (disk.dir.indexes.view b).map File.content := by
  obtain ⟨d, hd⟩ : ∃ d, d = ((Index.init disk base 4096).1.clear
    ((Index.init disk base 4096).2.onLog base .touch)).2 := ⟨_, rfl⟩
  have hlast : disk'.dir.indexes = d.dir.indexes := by
    unfold init recover at h
    rw [if_neg (not_not.mpr hmax)] at h
    simp only [← hd] at h
    split at h
    · rename_i hrecover
      split at hrecover <;> cases hrecover
      cases h
      rfl
    · rename_i hrecover
      split at hrecover <;> cases hrecover
      cases h
      split_ifs <;> rfl
  have hindex : d.dir.indexes = ((Index.init disk base 4096).2.dir.indexes.call base
      (.write [])).call base (.truncate 0) := by
    rw [hd]
    rfl
  obtain ⟨f, hf⟩ : ∃ f, (Index.init disk base 4096).2.dir.indexes.view
      = Function.update disk.dir.indexes.view base (some f) := by
    have htouch : (disk.onIndex base .touch).dir.indexes.view = Function.update
        disk.dir.indexes.view base (some ((disk.dir.indexes.view base).getD File.empty)) := by
      show (disk.dir.indexes.call base .touch).view = _
      rw [Files.view_call, Call.touch_onFile]
    have hcut : ∀ n, ∃ f, ((disk.onIndex base .touch).dir.indexes.call base (.truncate n)).view
        = Function.update disk.dir.indexes.view base (some f) := fun n => by
      rw [Files.view_call, htouch, Function.update_self, Call.truncate_onFile, Function.update_idem]
      exact ⟨_, rfl⟩
    unfold Index.init
    dsimp only
    split
    · exact hcut _
    · exact ⟨_, htouch⟩
  rw [hlast, hindex, Files.view_call, Files.view_call, hf]
  by_cases hb : b = base
  · subst hb
    simp
  · simp [hb]

/-- **What opening accepts.** A file of no more than 4 GiB is opened exactly
where it is well formed. Then there is one way to read it, the segment stands
at the end of its records and nothing else is left in the file, and opening
the file again gives the same segment and changes no file. -/
theorem init_accepts_iff (disk : Disk) (base : ℤ) (M : SegmentLimit)
    (hsmall : (disk.content base).length ≤ 2 ^ 32) :
    ((∃ s disk', init disk base M = (.ok s, disk'))
        ↔ ∃ rs t, WellFormed base (disk.content base) rs t)
      ∧ ∀ s disk', init disk base M = (.ok s, disk') →
        ∃ rs t, WellFormed base (disk.content base) rs t
          ∧ (∀ rs' t', WellFormed base (disk.content base) rs' t' → rs' = rs ∧ t' = t)
          ∧ (∃ f, disk'.view base = some f ∧ f.content = framing.encAll rs)
          ∧ s.nextOffset = base + rs.length ∧ s.position = (framing.encAll rs).length
          ∧ ∃ disk'', init disk' base M = (.ok s, disk'') ∧ SameFiles disk'.dir disk''.dir := by
  refine ⟨⟨fun ⟨s, disk', h⟩ => ?_, fun ⟨rs, t, h⟩ => ?_⟩, fun s disk' hinit => ?_⟩
  · obtain ⟨rs, t, -, h, -⟩ := init_made h
    exact ⟨rs, t, h⟩
  · have hfit : (framing.encAll rs).length ≤ maxU32 + 1 := by
      rw [h.content, List.length_append] at hsmall
      unfold maxU32
      omega
    obtain ⟨s, disk', hinit, -⟩ := init_of_rest M.2 h.content h.valid h.consecutive h.torn hfit
    exact ⟨s, disk', hinit⟩
  · obtain ⟨rs, t, index, h, hfeed, rfl, f, hf, hcontent⟩ := init_made hinit
    have hfile : disk'.content base = framing.encAll rs := by
      rw [Disk.content_eq, hf, Option.getD_some, hcontent]
    -- the file is opened again
    have hagain : WellFormed base (disk'.content base) rs [] := hfile ▸ h.cut
    cases hinit' : init disk' base M with
    | mk res disk'' =>
    have hmade' := init_wellFormed M.2 hagain
    rw [hinit', hfeed] at hmade'
    cases hmade'
    obtain ⟨f', hf', hcut'⟩ := init_content hinit'
    obtain ⟨-, -, -, -, -, -, hothers⟩ := init_eq_ok hinit'
    refine ⟨rs, t, h, fun rs' t' h' => h.unique h', ⟨f, hf, hcontent⟩, rfl, rfl, disk'', rfl,
      fun b => ?_, fun b => ?_⟩
    · show (disk''.view b).map File.content = (disk'.view b).map File.content
      by_cases hb : b = base
      · rw [hb, hf, hf', Option.map_some, Option.map_some, hcut', hfile, hcontent,
          List.take_of_length_le le_rfl]
      · rw [hothers b hb]
    · rw [init_indexes M.2 hinit', init_indexes M.2 hinit]
      split_ifs <;> rfl

/-! ## A torn rest

Three bytes behind a record are fewer than the prefix of a frame, and so the
start of one. -/

/-- A file of one record, with three bytes behind it. -/
def tornFile : Disk :=
    .of ⟨AList.singleton 0 ⟨framing.encAll [⟨0, 0, none, none⟩] ++ [1, 2, 3], none⟩, ∅⟩

omit [Crc32] in
theorem init_accepts_iff_torn : let _ := Crc32.zlib
    ∃ s disk', init tornFile 0 1024 = (.ok s, disk') ∧ s.nextOffset = 1 := by
  intro _
  have hcontent : tornFile.content 0 = framing.encAll [⟨0, 0, none, none⟩] ++ [1, 2, 3] := rfl
  have hfile : WellFormed 0 (tornFile.content 0) [⟨0, 0, none, none⟩] [1, 2, 3] :=
    ⟨hcontent, by decide, by decide, by decide⟩
  have hsmall : (tornFile.content 0).length ≤ 2 ^ 32 := by
    rw [hcontent]
    decide +kernel
  obtain ⟨haccepts, hstate⟩ := init_accepts_iff tornFile 0 ⟨1024, by decide⟩ hsmall
  obtain ⟨s, disk', hinit⟩ := haccepts.mpr ⟨_, _, hfile⟩
  obtain ⟨rs, t, -, hunique, -, hnext, -⟩ := hstate s disk' hinit
  obtain ⟨rfl, -⟩ := hunique _ _ hfile
  exact ⟨s, disk', hinit, hnext⟩

end Segment

end Pyka
