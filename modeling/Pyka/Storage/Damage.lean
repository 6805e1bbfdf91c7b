import Pyka.Storage.BitFlip

/-!
# Reading a damaged segment

What a read makes of a segment in whose file a bit has been flipped since it
was opened. The records before the damaged one are read as ever, and those
behind it are too if the index sends the read past it. Where the read comes to
it, it raises, or it takes it for the end of the segment, or it finds a record
of another offset there and goes on (`Segment.iterFrom_met`).

## Reading is not opening

Opening a damaged segment is the subject of `Pyka.Storage.BitFlip`. A read
differs from the scan of an opening in two ways. It does not compare offsets,
so a bit of the offset field leaves a record that the read yields or passes
over by its new offset. And it begins where the index says, which was made
before the damage, so damage in front of that place is not seen at all.

Which of the three outcomes it is depends on the field the bit is in: the
offset (`Record.frame_flipBit_offset`), the size if what it claims is
acceptable and reaches past the end of the file (`Record.torn_flipBit_iff`),
or anything else, where no record is found (`Record.read_flipBit_rest`).

## The first read after the seek

Where the index points at the damaged record itself, the read verifies what it
finds there, and an exception of the right class or an offset that was not
promised sends it back to byte `0`. It then comes to the damage a second time
and makes of it what a scan does; only `struct.error` comes out at once.
-/

namespace Pyka

open Struct (Bytes Field)
open Record (framing)

/-- Flipping a bit of a prefix. -/
theorem flipBit_append_left {bs : Bytes} (s : Bytes) {p : ℕ} (h : p / 8 < bs.length) :
    flipBit (bs ++ s) p = flipBit bs p ++ s := by
  refine List.ext_getElem? fun i => ?_
  unfold flipBit
  rw [List.getElem?_modify, List.getElem?_append, List.getElem?_append, List.length_modify]
  by_cases hi : i < bs.length
  · rw [if_pos hi, if_pos hi, List.getElem?_modify]
  · have hne : p / 8 ≠ i := by omega
    rw [if_neg hi, if_neg hi]
    simp only [if_neg hne]
    cases s[i - bs.length]? <;> rfl

/-- Behind a flipped bit all is as it was. -/
theorem drop_flipBit_of_lt (bs : Bytes) {p n : ℕ} (h : p / 8 < n) :
    (flipBit bs p).drop n = bs.drop n := by
  refine List.ext_getElem? fun i => ?_
  rw [List.getElem?_drop, List.getElem?_drop, getElem?_flipBit_ne bs (by omega)]

/-- A directory in which a bit of a `.log` file is flipped. -/
def Dir.flipBit (dir : Dir) (base : ℤ) (p : ℕ) : Dir :=
  match dir.logs.lookup base with
  | some f =>
    { dir with logs := dir.logs.insert base { f with content := Pyka.flipBit f.content p } }
  | none => dir

/-- Only the damaged file is another one. -/
theorem Dir.view_flipBit {dir : Dir} {base : ℤ} {f : File} (hf : dir.logs.view base = some f)
    (p : ℕ) : (dir.flipBit base p).logs.view
      = Function.update dir.logs.view base
        (some { f with content := Pyka.flipBit f.content p }) := by
  have hf' : dir.logs.lookup base = some f := hf
  unfold Dir.flipBit
  rw [hf']
  funext b
  by_cases hb : b = base
  · subst hb
    rw [Function.update_self]
    exact AList.lookup_insert dir.logs
  · rw [Function.update_of_ne hb]
    exact AList.lookup_insert_ne hb

/-- Only the offset field of a frame depends on the offset. -/
theorem Record.frame_with_offset [Crc32] (r : Record) (offset : ℤ) :
    Record.frame { r with offset } = Field.q.bytes offset ++ r.frame.drop 8 := by
  have hlen : (Field.q.bytes r.offset).length = 8 := Field.length_bytes _ _
  simp only [frame, List.append_assoc]
  rw [← hlen, List.drop_left]
  rfl

/-- A record with another offset can be encoded if the offset can. -/
theorem Record.Encodable.with_offset {r : Record} (h : r.Encodable) {offset : ℤ}
    (hoffset : Field.q.Holds offset) : Record.Encodable { r with offset } where
  offset := hoffset
  timestamp := h.timestamp
  size := h.size

/-- The standard checksum, which this module is about. -/
local instance standardCrc32 : Crc32 := Crc32.zlib

namespace Record

variable {r : Record} {s : Bytes} {p : ℕ}

/-- **A bit of the offset**: what stands there is a record of another offset. -/
theorem frame_flipBit_offset (henc : r.Encodable) (hp : p / 8 < 8) :
    ∃ r' : Record, r'.Encodable ∧ r'.offset ≠ r.offset
      ∧ r'.offset = Field.q.value ((flipBit (r.frame ++ s) p).take 8)
      ∧ flipBit (r.frame ++ s) p = r'.frame ++ s := by
  have hlen : (Field.q.bytes r.offset).length = Field.q.width := Field.length_bytes _ _
  have hlen' : (flipBit (Field.q.bytes r.offset) p).length = Field.q.width := by
    rw [length_flipBit, hlen]
  have hflip : flipBit (r.frame ++ s) p
      = flipBit (Field.q.bytes r.offset) p ++ (r.frame.drop 8 ++ s) := by
    conv_lhs => rw [show r.frame = Field.q.bytes r.offset ++ r.frame.drop 8 from
      frame_with_offset r r.offset, List.append_assoc]
    exact flipBit_append_left _ (by rw [hlen]; exact hp)
  have htake : (flipBit (r.frame ++ s) p).take 8 = flipBit (Field.q.bytes r.offset) p := by
    rw [hflip]
    exact List.take_left' hlen'
  have hlt : p / 8 < (Field.q.bytes r.offset).length := by rwa [hlen]
  have hne := getElem?_flipBit_self hlt
  generalize flipBit (Field.q.bytes r.offset) p = bs at *
  have hholds : Field.q.Holds (Field.q.value bs) := Field.holds_value hlen'
  have hbytes : Field.q.bytes (Field.q.value bs) = bs := Field.bytes_value hlen'
  rw [htake, hflip]
  generalize Field.q.value bs = m at hholds hbytes ⊢
  refine ⟨{ r with offset := m }, henc.with_offset hholds, ?_, rfl, ?_⟩
  · rintro rfl
    exact hne (by rw [hbytes])
  · rw [frame_with_offset r m, hbytes, List.append_assoc]

/-- **Any other bit**: no record is found there. -/
theorem read_flipBit_rest (henc : r.Encodable) (hp : 8 ≤ p / 8) (hp' : p / 8 < r.size) :
    (∃ e, read (flipBit (r.frame ++ s) p) = .error e) ∨ Torn (flipBit (r.frame ++ s) p) := by
  cases hread : read (flipBit (r.frame ++ s) p) with
  | error e => exact Or.inl ⟨e, rfl⟩
  | ok o =>
    cases o with
    | none => exact Or.inr ((read_eq_none_iff _).mp hread)
    | some r' =>
      exfalso
      refine (read_flipBit henc hp').1 r' hread ?_
      obtain ⟨henc', hpre'⟩ := (read_eq_some_iff _ _).mp hread
      have hsize := size_eq r
      have hsize' := size_eq r'
      -- the offset field is as it was
      have hfield : slice r'.frame 0 8 = slice r.frame 0 8 := by
        rw [← slice_eq_frame hpre' (by omega), slice_flipBit _ (Or.inr hp),
          slice_eq_frame (List.prefix_append _ _) (by omega)]
      rw [slice_frame_offset, slice_frame_offset] at hfield
      exact Field.bytes_inj henc'.offset henc.offset hfield

/-- **What is taken for the end of the file**: a size that is not too large in
itself, only too large for what is there. -/
theorem torn_flipBit_iff (henc : r.Encodable) (hp : p / 8 < r.size) :
    Torn (flipBit (r.frame ++ s) p) ↔ (8 ≤ p / 8 ∧ p / 8 < 12)
      ∧ claimed (flipBit (r.frame ++ s) p) ≤ maxSize
      ∧ (r.frame ++ s).length < 12 + claimed (flipBit (r.frame ++ s) p) := by
  have hsize := size_eq r
  have hlen := length_flipBit (r.frame ++ s) p
  constructor
  · intro htorn
    rw [List.length_append, length_frame] at hlen
    obtain ⟨hmax, hshort⟩ := htorn.resolve_left (by omega)
    exact ⟨(read_flipBit henc hp).2 htorn, hmax, by rwa [length_flipBit] at hshort⟩
  · rintro ⟨-, hmax, hshort⟩
    exact Or.inr ⟨hmax, by rwa [hlen]⟩

end Record

namespace Segment

/-- What has become of a file from the damaged record on. -/
def damagedRest (rs₁ : List Record) (r : Record) (rs₂ : List Record) (p : ℕ) : Bytes :=
  flipBit (r.frame ++ framing.encAll rs₂) (p - 8 * (framing.encAll rs₁).length)

/-- **A segment with a damaged file**: it stands for records, and a bit of its
file has been flipped, in `r`. -/
structure Damaged (s : Segment) (v : ℤ → Option File) (rs₁ : List Record) (r : Record)
    (rs₂ : List Record) (p : ℕ) : Prop where
  holds : s.Holds (rs₁ ++ r :: rs₂)
  file : ∃ f, v s.baseOffset = some f ∧ f.content = flipBit (framing.encAll (rs₁ ++ r :: rs₂)) p
  low : (framing.encAll rs₁).length ≤ p / 8
  high : p / 8 < (framing.encAll rs₁).length + r.size

namespace Damaged

variable {s : Segment} {dir : Dir} {rs₁ rs₂ : List Record} {r : Record} {p : ℕ} {offset : ℤ}

/-- The damaged record is one the log wrote. -/
theorem encodable {v : ℤ → Option File} (h : s.Damaged v rs₁ r rs₂ p) : r.Encodable :=
  h.holds.valid r (List.mem_append_right _ List.mem_cons_self)

/-- Its offset counts the records before it. -/
theorem offset_eq {v : ℤ → Option File} (h : s.Damaged v rs₁ r rs₂ p) :
    r.offset = s.baseOffset + rs₁.length :=
  (Consecutive.append_iff.mp h.holds.consecutive).2.1

/-- **Past the damage** a read finds what it asks for. -/
theorem iterFrom_past (h : s.Damaged dir.logs.view rs₁ r rs₂ p) (hoff : s.baseOffset ≤ offset)
    (hpast : r.offset < (s.index.lookup offset).1) :
    s.iterFrom dir offset
      = ⟨(rs₁ ++ r :: rs₂).drop (offset - s.baseOffset).toNat, none⟩ := by
  obtain ⟨f, hf, hcontent⟩ := h.file
  obtain ⟨n, hn, hn0, hle, hlook⟩ := h.holds.sound.lookup (h.holds.index_base ▸ hoff)
  rw [h.holds.index_base] at hle hlook
  rw [hlook, h.offset_eq] at hpast
  have hlt : rs₁.length < n := by simpa using hpast
  have hn : n < (rs₁ ++ r :: rs₂).length := hn0.resolve_left (by omega)
  -- the bit is before the place
  have hplace : p / 8 < (framing.encAll ((rs₁ ++ r :: rs₂).take n)).length := by
    have hsub := framing.length_encAll_take_le (rs₁ ++ r :: rs₂) (Nat.succ_le_of_lt hlt)
    have htake : (rs₁ ++ r :: rs₂).take rs₁.length.succ = rs₁ ++ [r] := by
      rw [List.take_append, List.take_of_length_le (Nat.le_succ _)]
      simp
    have hhigh := h.high
    rw [htake, framing.encAll_append, framing.encAll_cons, framing.encAll_nil, List.append_nil,
      List.length_append, Record.enc_framing, Record.length_frame] at hsub
    omega
  have hdrop : f.content.drop (framing.encAll ((rs₁ ++ r :: rs₂).take n)).length
      = framing.encAll ((rs₁ ++ r :: rs₂).drop n) := by
    rw [hcontent, drop_flipBit_of_lt _ hplace]
    conv_lhs => rw [← framing.encAll_take_append_drop (rs₁ ++ r :: rs₂) n]
    rw [List.drop_left]
  have hcons := h.holds.consecutive.drop hn.le
  have hvalid : ∀ r' ∈ (rs₁ ++ r :: rs₂).drop n, r'.Encodable :=
    fun r' hr' => h.holds.valid r' (List.mem_of_mem_drop hr')
  have hscan := scanFrom_encAll (t := []) hvalid hcons
    (f := ⟨f.content, (framing.encAll ((rs₁ ++ r :: rs₂).take n)).length⟩)
    (by rw [Stream.rest, hdrop, List.append_nil]) Record.torn_nil offset
  have hread : Record.read (framing.encAll ((rs₁ ++ r :: rs₂).drop n))
      = .ok (some (rs₁ ++ r :: rs₂)[n]) := by
    rw [List.drop_eq_getElem_cons hn, framing.encAll_cons, ← Record.read_framing]
    exact framing.read_enc_append (h.holds.valid _ (List.getElem_mem _)) _
  have hfound : (rs₁ ++ r :: rs₂)[n].offset = s.baseOffset + n :=
    h.holds.consecutive.offset_getElem (List.getElem?_eq_getElem hn)
  rw [iterFrom_eq hf, hlook]
  simp only [hdrop, hread, hfound, ne_eq, not_true_eq_false, if_false, hscan, List.drop_drop]
  congr 2
  omega

/-- **Where a read comes to the damage**, it makes of the damaged rest what a
scan makes of it – or it comes there first, by its index, and raises. -/
theorem iterFrom_met (h : s.Damaged dir.logs.view rs₁ r rs₂ p) (hoff : s.baseOffset ≤ offset)
    (hmet : (s.index.lookup offset).1 ≤ r.offset)
    (hother : ∀ r', Record.read (damagedRest rs₁ r rs₂ p) = .ok (some r') → r'.offset ≠ r.offset) :
    s.iterFrom dir offset = ⟨rs₁.drop (offset - s.baseOffset).toNat
          ++ (framing.scan (damagedRest rs₁ r rs₂ p)).1.filter
            (fun r' => decide (offset ≤ r'.offset)),
        raisedBy (Record.read (framing.scan (damagedRest rs₁ r rs₂ p)).2)⟩
      ∨ ∃ e, Record.read (damagedRest rs₁ r rs₂ p) = .error e
        ∧ s.iterFrom dir offset = ⟨[], some e⟩ := by
  obtain ⟨f, hf, hcontent⟩ := h.file
  obtain ⟨n, -, -, hle, hlook⟩ := h.holds.sound.lookup (h.holds.index_base ▸ hoff)
  rw [h.holds.index_base] at hle hlook
  rw [hlook, h.offset_eq] at hmet
  have hn : n ≤ rs₁.length := by simpa using hmet
  rw [List.take_append_of_le_length hn] at hlook
  rw [drop_flipBit h.low] at hcontent
  change f.content = framing.encAll rs₁ ++ damagedRest rs₁ r rs₂ p at hcontent
  have hoffset := h.offset_eq
  generalize damagedRest rs₁ r rs₂ p = bad at hother hcontent ⊢
  have hvalid : ∀ r' ∈ rs₁, r'.Encodable :=
    fun r' hr' => h.holds.valid r' (List.mem_append_left _ hr')
  have hcons : Consecutive s.baseOffset rs₁ := (Consecutive.append_iff.mp h.holds.consecutive).1
  -- from the start of a record before the damage on
  have hdrop : ∀ k, f.content.drop (framing.encAll (rs₁.take k)).length
      = framing.encAll (rs₁.drop k) ++ bad := fun k => by
    rw [hcontent, ← framing.encAll_take_append_drop rs₁ k, List.append_assoc, List.drop_left]
  have hscan : ∀ k, k ≤ rs₁.length → s.baseOffset + k ≤ offset →
      scanFrom ⟨f.content, (framing.encAll (rs₁.take k)).length⟩ offset
        = ⟨rs₁.drop (offset - s.baseOffset).toNat
            ++ (framing.scan bad).1.filter (fun r' => decide (offset ≤ r'.offset)),
          raisedBy (Record.read (framing.scan bad).2)⟩ := by
    intro k hk hle'
    have hvalid' : ∀ r' ∈ rs₁.drop k, r'.Encodable := fun r' hr' =>
      hvalid r' (List.mem_of_mem_drop hr')
    rw [scanFrom_eq, Stream.rest, hdrop, framing.scan_encAll_append hvalid']
    simp only [List.filter_append, (hcons.drop hk).filter_eq_drop, List.drop_drop]
    congr 3
    omega
  have hzero : scanFrom ⟨f.content, 0⟩ offset = _ := hscan 0 (Nat.zero_le _) (by simpa using hoff)
  rw [iterFrom_eq hf, hlook]
  simp only [hdrop, hscan n hn hle, hzero]
  rcases hn.lt_or_eq with hlt | rfl
  · -- the index sends the read to a record before
    have hread : Record.read (framing.encAll (rs₁.drop n) ++ bad) = .ok (some rs₁[n]) := by
      rw [List.drop_eq_getElem_cons hlt, framing.encAll_cons, List.append_assoc,
        ← Record.read_framing]
      exact framing.read_enc_append (hvalid _ (List.getElem_mem _)) _
    have hfound : rs₁[n].offset = s.baseOffset + n :=
      hcons.offset_getElem (List.getElem?_eq_getElem hlt)
    simp only [hread, hfound, ne_eq, not_true_eq_false, if_false]
    exact Or.inl trivial
  · -- the index sends the read to the damaged record
    rw [List.drop_length, framing.encAll_nil, List.nil_append]
    cases hread : Record.read bad with
    | error e =>
      simp only
      split
      · exact Or.inl rfl
      · exact Or.inr ⟨e, rfl, rfl⟩
    | ok o =>
      cases o with
      | none => exact Or.inl rfl
      | some r' =>
        simp only
        rw [if_pos (by rw [← hoffset]; exact hother r' hread)]
        exact Or.inl rfl

/-- Damage that does not read raises, whether the read comes to it by its
index or by scanning. -/
theorem iterFrom_raises (h : s.Damaged dir.logs.view rs₁ r rs₂ p) (hoff : s.baseOffset ≤ offset)
    (hmet : (s.index.lookup offset).1 ≤ r.offset) {e : PyError}
    (he : Record.read (damagedRest rs₁ r rs₂ p) = .error e) :
    (s.iterFrom dir offset).raised ≠ none := by
  rcases h.iterFrom_met hoff hmet (fun r' hr' => by rw [he] at hr'; cases hr') with
    heq | ⟨e', -, heq⟩
  · rw [heq, framing.scan_of_read_ne_some (fun r' hr' => by
      rw [Record.read_framing, he] at hr'; cases hr')]
    simp [he, raisedBy]
  · rw [heq]
    simp

/-- Damage that is taken for the end of the segment: the records before it,
and no exception. -/
theorem iterFrom_short (h : s.Damaged dir.logs.view rs₁ r rs₂ p) (hoff : s.baseOffset ≤ offset)
    (hmet : (s.index.lookup offset).1 ≤ r.offset)
    (htorn : Record.Torn (damagedRest rs₁ r rs₂ p)) :
    s.iterFrom dir offset = ⟨rs₁.drop (offset - s.baseOffset).toNat, none⟩ := by
  have hread := (Record.read_eq_none_iff _).mpr htorn
  rcases h.iterFrom_met hoff hmet (fun r' hr' => by rw [hread] at hr'; cases hr') with
    heq | ⟨e, he, -⟩
  · rw [heq, framing.scan_of_read_ne_some (fun r' hr' => by
      rw [Record.read_framing, hread] at hr'; cases hr')]
    simp [hread, raisedBy]
  · rw [hread] at he
    cases he

/-- Damage that leaves a record of another offset: the records before it, the
renumbered one if its offset is asked for, and those behind it. -/
theorem iterFrom_renumbered (h : s.Damaged dir.logs.view rs₁ r rs₂ p)
    (hoff : s.baseOffset ≤ offset) (hmet : (s.index.lookup offset).1 ≤ r.offset) {r' : Record}
    (henc' : r'.Encodable) (hne : r'.offset ≠ r.offset)
    (hrest : damagedRest rs₁ r rs₂ p = r'.frame ++ framing.encAll rs₂) :
    s.iterFrom dir offset = ⟨rs₁.drop (offset - s.baseOffset).toNat
      ++ ((if offset ≤ r'.offset then [r'] else [])
        ++ rs₂.drop (offset - (r.offset + 1)).toNat), none⟩ := by
  have hread : Record.read (damagedRest rs₁ r rs₂ p) = .ok (some r') := by
    rw [hrest, ← Record.read_framing]
    exact framing.read_enc_append henc' _
  have hvalid : ∀ r₀ ∈ rs₂, r₀.Encodable := fun r₀ hr₀ =>
    h.holds.valid r₀ (List.mem_append_right _ (List.mem_cons_of_mem _ hr₀))
  have hcons : Consecutive (r.offset + 1) rs₂ := by
    rw [h.offset_eq]
    exact (Consecutive.append_iff.mp h.holds.consecutive).2.2
  have hscan : framing.scan (damagedRest rs₁ r rs₂ p) = (r' :: rs₂, []) := by
    rw [hrest, ← Record.enc_framing, framing.scan_enc_append henc', framing.scan_encAll hvalid]
  have hnil : Record.read [] = .ok none := (Record.read_eq_none_iff []).mpr Record.torn_nil
  rcases h.iterFrom_met hoff hmet (fun r₀ hr₀ => by
      rw [hread] at hr₀
      cases hr₀
      exact hne) with heq | ⟨e, he, -⟩
  · rw [heq, hscan, ← hcons.filter_eq_drop offset]
    simp only [List.filter_cons, decide_eq_true_eq, hnil, raisedBy]
    split <;> rfl
  · rw [hread] at he
    cases he

end Damaged

end Segment

end Pyka
