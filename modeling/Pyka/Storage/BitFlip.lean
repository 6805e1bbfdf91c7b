import Pyka.Storage.AppendOnly

/-!
# A flipped bit

What opening a segment makes of a file in which one bit has been flipped.
Offset continuity guards the offset field, the lengths guard the size field
against every value that the file can hold, `MAX_SIZE` guards it against large
ones, and the checksum guards the rest, itself included
(`Record.read_flipBit`). What nothing guards against is a size field that is
not too large in itself, only too large for what is left of the file: that is
how a torn tail looks, and a torn tail is cut off.

So damage is refused but for that one kind
(`Segment.opensIntact_flipBit_iff`), and there it takes every record from the
damaged one on, wherever in the file that is.

## Why the lengths guard the size

A frame's size is written twice: in the size field, and as the sum of the two
lengths with the fixed fields. `decode` compares the two. A size
field that is damaged to a value within the file is therefore refused before
the checksum is computed, and a length that is damaged is refused unless both
lengths change so that their sum stays, which one bit cannot do.

## What is asked of the checksum

Of the checksum it is used that it changes with any single bit of what it
covers, which the standard one does; so this part is about `Crc32.zlib`. The
kind of damage that is not noticed does not depend on it: there the reader
stops before any checksum is computed.
-/

namespace Pyka

open Struct (Bytes Field)
open Record (framing)

/-- The bytes with bit `p` flipped, counting from the low bit of the first. -/
def flipBit (bs : Bytes) (p : ℕ) : Bytes :=
  bs.modify (p / 8) (fun b => b ^^^ (1 <<< UInt8.ofNat (p % 8)))

/-- Damage does not change the length. -/
@[simp] theorem length_flipBit (bs : Bytes) (p : ℕ) : (flipBit bs p).length = bs.length :=
  List.length_modify _ _ _

/-- Flipping a bit changes a byte. -/
theorem xor_bit_ne (b : UInt8) (p : ℕ) : b ^^^ (1 <<< UInt8.ofNat (p % 8)) ≠ b := by
  have hbit : ∀ k : Fin 8, (1 : UInt8) <<< UInt8.ofNat k ≠ 0 := by decide
  intro h
  refine hbit ⟨p % 8, Nat.mod_lt _ (by decide)⟩ ((UInt8.xor_right_inj b).mp ?_)
  rw [UInt8.xor_zero]
  exact h

/-- The other bytes are as they were. -/
theorem getElem?_flipBit_ne (bs : Bytes) {p i : ℕ} (h : p / 8 ≠ i) :
    (flipBit bs p)[i]? = bs[i]? :=
  List.getElem?_modify_ne _ _ h

/-- The byte of the bit is not. -/
theorem getElem?_flipBit_self {bs : Bytes} {p : ℕ} (h : p / 8 < bs.length) :
    (flipBit bs p)[p / 8]? ≠ bs[p / 8]? := by
  unfold flipBit
  rw [List.getElem?_modify_eq, List.getElem?_eq_getElem h]
  exact fun he => xor_bit_ne _ p (Option.some.inj he)

/-- Flipping a bit behind a prefix. -/
theorem flipBit_append (bs s : Bytes) {p : ℕ} (h : 8 * bs.length ≤ p) :
    flipBit (bs ++ s) p = bs ++ flipBit s (p - 8 * bs.length) := by
  refine List.ext_getElem? fun i => ?_
  unfold flipBit
  have hdiv : (p - 8 * bs.length) / 8 = p / 8 - bs.length := by omega
  have hmod : (p - 8 * bs.length) % 8 = p % 8 := by omega
  rw [hdiv, hmod, List.getElem?_modify, List.getElem?_append]
  by_cases hi : i < bs.length
  · have hne : p / 8 ≠ i := by omega
    rw [if_pos hi, List.getElem?_append_left hi]
    simp only [if_neg hne]
    cases bs[i]? <;> rfl
  · have hiff : p / 8 - bs.length = i - bs.length ↔ p / 8 = i := by omega
    rw [if_neg hi, List.getElem?_append_right (by omega), List.getElem?_modify]
    simp only [hiff]

/-- A slice without the flipped bit is as it was. -/
theorem slice_flipBit (bs : Bytes) {p a b : ℕ} (h : p / 8 < a ∨ b ≤ p / 8) :
    slice (flipBit bs p) a b = slice bs a b :=
  slice_congr fun _ _ _ => getElem?_flipBit_ne bs (by omega)

/-- A slice with the flipped bit is not. -/
theorem slice_flipBit_ne {bs : Bytes} {p a b : ℕ} (hlen : p / 8 < bs.length) (ha : a ≤ p / 8)
    (hb : p / 8 < b) : slice (flipBit bs p) a b ≠ slice bs a b := by
  intro h
  refine getElem?_flipBit_self hlen ?_
  rw [← getElem?_slice _ ha hb, h, getElem?_slice _ ha hb]

namespace Record

section Codec

variable [Crc32]

/-- The slices of bytes that start with a frame are the frame's. -/
theorem slice_eq_frame {r : Record} {bs : Bytes} (h : r.frame <+: bs) {a b : ℕ}
    (hb : b ≤ r.size) : slice bs a b = slice r.frame a b := by
  obtain ⟨s, rfl⟩ := h
  refine slice_congr fun i _ hi => ?_
  rw [List.getElem?_append_left (by rw [length_frame]; omega)]

/-- The offset field of a frame. -/
theorem slice_frame_offset (r : Record) : slice r.frame 0 8 = Field.q.bytes r.offset := by
  rw [frame, List.append_assoc, List.append_assoc, List.append_assoc, List.append_assoc]
  exact slice_append_left _ (Field.length_bytes _ _)

/-- The size field of a frame. -/
theorem slice_frame_size (r : Record) :
    slice r.frame 8 12 = Field.I.bytes ((r.size - 12 : ℕ) : ℤ) := by
  rw [frame, List.append_assoc, List.append_assoc, List.append_assoc, List.append_assoc,
    slice_append_right (a := 0) (b := 4) _ (by simp [Field.width])]
  exact slice_append_left _ (Field.length_bytes _ _)

/-- The lengths in a frame. -/
theorem slice_frame_lengths (r : Record) : slice r.frame 24 32
    = Field.i.bytes (lengthField r.key) ++ Field.i.bytes (lengthField r.value) := by
  have h := (slice_frame r).2.1
  have hsub := slice_slice r.frame (n := 16) (a := 8) (b := 16) (m := 16) le_rfl
  have hq : (Field.q.bytes r.timestamp).length = 8 := Field.length_bytes _ _
  rw [h, slice_append_to_end hq (by simp [Field.width])] at hsub
  exact hsub.symm

/-- The checksum of a frame is that of everything behind it. -/
theorem slice_frame_crc (r : Record) : slice r.frame 12 16
    = Field.I.bytes (Crc32.crc32 (slice r.frame 16 r.size) 0).toNat := by
  obtain ⟨-, hbody, hkey, hvalue, hcrc⟩ := slice_frame r
  have hsize := size_eq r
  have hjoin : slice r.frame 16 r.size
      = slice r.frame 16 32 ++ (r.key.getD [] ++ r.value.getD []) := by
    rw [← hkey, ← hvalue, slice_append_slice _ (by omega) (by omega),
      slice_append_slice _ (by omega) (by omega)]
  rw [hcrc, hjoin, checksum, Crc32.crc32_append, Crc32.crc32_append, List.append_assoc]

/-- **Frames with the same checksum field** have the same checksum, as the
field has room for all of it. -/
theorem crc_inj {r r' : Record} (hsize : r.size = r'.size)
    (h : slice r.frame 12 16 = slice r'.frame 12 16) :
    Crc32.crc32 (slice r.frame 16 r.size) 0 = Crc32.crc32 (slice r'.frame 16 r.size) 0 := by
  rw [slice_frame_crc, slice_frame_crc r', ← hsize] at h
  exact BitVec.eq_of_toNat_eq
    (Int.ofNat.inj (Field.bytes_inj (holds_checksum _) (holds_checksum _) h))

/-- The lengths in a frame say how long it is. -/
theorem size_eq_of_lengths {r r' : Record} (h : r.Encodable) (h' : r'.Encodable)
    (he : slice r.frame 24 32 = slice r'.frame 24 32) : r.size = r'.size := by
  rw [slice_frame_lengths, slice_frame_lengths] at he
  obtain ⟨hk, hv⟩ := List.append_inj he (by simp)
  have hkey := Field.bytes_inj h.holds_lengthField.1 h'.holds_lengthField.1 hk
  have hvalue := Field.bytes_inj h.holds_lengthField.2 h'.holds_lengthField.2 hv
  rw [size_eq, size_eq, ← lengthField_getD r.key, ← lengthField_getD r.value, hkey, hvalue,
    lengthField_getD, lengthField_getD]

end Codec

/-- The standard checksum changes with any bit. -/
theorem zlib_slice_flipBit_ne {bs : Bytes} {p a b : ℕ} (ha : a ≤ p / 8) (hb : p / 8 < b)
    (hlen : b ≤ bs.length) :
    Crc32.zlibCrc32 (slice (flipBit bs p) a b) 0 ≠ Crc32.zlibCrc32 (slice bs a b) 0 := by
  have hlt : p / 8 < bs.length := by omega
  have hpre : slice (flipBit bs p) a (p / 8) = slice bs a (p / 8) :=
    slice_flipBit bs (Or.inr le_rfl)
  have hpost : slice (flipBit bs p) (p / 8 + 1) b = slice bs (p / 8 + 1) b :=
    slice_flipBit bs (Or.inl (Nat.lt_succ_self _))
  have hone : ∀ cs : Bytes, (hc : p / 8 < cs.length) →
      slice cs (p / 8) (p / 8 + 1) = [cs[p / 8]] := by
    intro cs hc
    unfold slice
    rw [Nat.add_sub_cancel_left, List.drop_eq_getElem_cons hc]
    rfl
  have hsplit : ∀ cs : Bytes, (hc : p / 8 < cs.length) →
      slice cs a b = slice cs a (p / 8) ++ cs[p / 8] :: slice cs (p / 8 + 1) b := by
    intro cs hc
    rw [← List.singleton_append, ← hone cs hc, slice_append_slice _ (by omega) (by omega),
      slice_append_slice _ ha (by omega)]
  have hlt' : p / 8 < (flipBit bs p).length := by rwa [length_flipBit]
  rw [hsplit _ hlt', hsplit _ hlt, hpre, hpost]
  refine Crc32.zlib_ne_of_set _ _ (fun he => ?_) 0
  have hself := getElem?_flipBit_self hlt
  rw [List.getElem?_eq_getElem hlt', List.getElem?_eq_getElem hlt, he] at hself
  exact hself rfl

section Standard

/-- The standard checksum, which this part is about. -/
local instance : Crc32 := Crc32.zlib

/-- **What `readOne` makes of a record with a flipped bit.** If it still
finds a record, then one of another offset; if it finds the end of the
stream, the bit was in the size field. -/
theorem read_flipBit {r : Record} {s : Bytes} {p : ℕ} (henc : r.Encodable)
    (hp : p / 8 < r.size) :
    (∀ r', read (flipBit (r.frame ++ s) p) = .ok (some r') → r'.offset ≠ r.offset)
      ∧ (Torn (flipBit (r.frame ++ s) p) → 8 ≤ p / 8 ∧ p / 8 < 12) := by
  have hlen : p / 8 < (r.frame ++ s).length := by
    rw [List.length_append, length_frame]
    omega
  have hpre : r.frame <+: r.frame ++ s := List.prefix_append _ _
  have hsize := size_eq r
  have hmax := henc.size_le
  -- a slice of the frame, before and after
  have hsame : ∀ a b, b ≤ r.size → p / 8 < a ∨ b ≤ p / 8 →
      slice (flipBit (r.frame ++ s) p) a b = slice r.frame a b :=
    fun a b hb h => by rw [slice_flipBit _ h, slice_eq_frame hpre hb]
  have hdiff : ∀ a b, b ≤ r.size → a ≤ p / 8 → p / 8 < b →
      slice (flipBit (r.frame ++ s) p) a b ≠ slice r.frame a b :=
    fun a b hb ha h => by
      rw [← slice_eq_frame hpre hb]
      exact slice_flipBit_ne hlen ha h
  have hclaim : p / 8 < 8 ∨ 12 ≤ p / 8 →
      claimed (flipBit (r.frame ++ s) p) = r.size - 12 := by
    intro h
    rw [← claimed_of_frame_front henc hpre]
    unfold claimed
    rw [hsame 8 12 (by omega) h, slice_eq_frame hpre (by omega)]
  refine ⟨fun r' hread hoff => ?_, fun htorn => ?_⟩
  · obtain ⟨henc', hpre'⟩ := (read_eq_some_iff _ _).mp hread
    have hsize' := size_eq r'
    have hmax' := henc'.size_le
    have hclaim' := claimed_of_frame_front henc' hpre'
    have hslice' : ∀ a b, b ≤ r'.size →
        slice r'.frame a b = slice (flipBit (r.frame ++ s) p) a b :=
      fun a b hb => (slice_eq_frame hpre' hb).symm
    by_cases h₁ : p / 8 < 8
    · -- the offset
      refine hdiff 0 8 (by omega) (Nat.zero_le _) h₁ ?_
      rw [← hslice' 0 8 (by omega), slice_frame_offset, slice_frame_offset, hoff]
    by_cases h₂ : p / 8 < 12
    · -- the size, which the lengths contradict
      have heq : r'.size = r.size := by
        refine size_eq_of_lengths henc' henc ?_
        rw [hslice' 24 32 (by omega), hsame 24 32 (by omega) (Or.inl (by omega))]
      refine hdiff 8 12 (by omega) (by omega) h₂ ?_
      rw [← hslice' 8 12 (by omega), slice_frame_size, slice_frame_size, heq]
    have heq : r'.size = r.size := by
      have := hclaim (Or.inr (by omega))
      omega
    by_cases h₃ : p / 8 < 16
    · -- the checksum, of what has not changed
      have hcrc := slice_frame_crc r'
      rw [hslice' 12 16 (by omega), hslice' 16 r'.size le_rfl, heq] at hcrc
      rw [hsame 16 r.size le_rfl (Or.inl h₃), ← slice_frame_crc] at hcrc
      exact hdiff 12 16 (by omega) (by omega) h₃ hcrc
    · -- what the checksum covers
      have hsum := crc_inj heq (by
        rw [hslice' 12 16 (by omega), hsame 12 16 (by omega) (Or.inr (by omega))])
      rw [hslice' 16 r'.size le_rfl, heq, ← slice_eq_frame hpre le_rfl] at hsum
      refine zlib_slice_flipBit_ne (by omega) hp ?_ hsum
      rw [List.length_append, length_frame]
      omega
  · by_contra h
    have hc := hclaim (by omega)
    have hlen' : (flipBit (r.frame ++ s) p).length = r.size + s.length := by
      rw [length_flipBit, List.length_append, length_frame]
    rcases htorn with htorn | ⟨-, htorn⟩ <;> omega

end Standard

end Record

namespace Segment

/-- **Opening gives back exactly these records**, if it succeeds. -/
def OpensIntact [Crc32] (disk : Disk) (base : ℤ) (maxBytes : SegmentLimit) (rs : List Record) :
    Prop :=
  ∀ s disk', init disk base maxBytes = (.ok s, disk') →
    s.nextOffset = base + rs.length ∧ s.readFrom disk'.dir base = .ok ⟨rs, none⟩

/-- **The damage that looks like a torn tail**: the bit is in the size field
of a record, and the size it makes of it is no larger than `MAX_SIZE` and
reaches past the end of the file. (The scan gets that far as long as the
index takes the records before, as in a file of 4 GiB it always does.) -/
def LooksTorn [Crc32] (base : ℤ) (rs : List Record) (p : ℕ) : Prop :=
  ∃ rs₁ r rs₂, rs = rs₁ ++ r :: rs₂
    ∧ (framing.encAll rs₁).length + 8 ≤ p / 8 ∧ p / 8 < (framing.encAll rs₁).length + 12
    ∧ Record.claimed ((flipBit (framing.encAll rs) p).drop (framing.encAll rs₁).length)
        ≤ Record.maxSize
    ∧ (framing.encAll rs).length < (framing.encAll rs₁).length + 12
        + Record.claimed ((flipBit (framing.encAll rs) p).drop (framing.encAll rs₁).length)
    ∧ ∃ ix, feed (freshIndex base) base 0 rs₁ = .ok ix

section Standard

local instance : Crc32 := Crc32.zlib

variable {disk : Disk} {base : ℤ} {rs₁ rs₂ : List Record} {r : Record} {p : ℕ}

/-- The damaged file, from the damaged record on. -/
theorem drop_flipBit (h : (framing.encAll rs₁).length ≤ p / 8) :
    flipBit (framing.encAll (rs₁ ++ r :: rs₂)) p = framing.encAll rs₁
      ++ flipBit (r.frame ++ framing.encAll rs₂) (p - 8 * (framing.encAll rs₁).length) := by
  rw [framing.encAll_append, framing.encAll_cons, flipBit_append _ _ (by omega)]
  rfl

/-- The scan of `recover` comes to the damaged record. -/
theorem recoverLoop_flipBit (name : String) (hvalid : ∀ r' ∈ rs₁ ++ r :: rs₂, r'.Encodable)
    (hcons : Consecutive base (rs₁ ++ r :: rs₂)) (h : (framing.encAll rs₁).length ≤ p / 8) :
    ∃ f', f'.rest
        = flipBit (r.frame ++ framing.encAll rs₂) (p - 8 * (framing.encAll rs₁).length)
      ∧ recoverLoop name ⟨flipBit (framing.encAll (rs₁ ++ r :: rs₂)) p, 0⟩ (freshIndex base)
          base 0 =
        match feed (freshIndex base) base 0 rs₁ with
        | .error e => .error e
        | .ok ix' => recoverLoop name f' ix' (base + rs₁.length) (framing.encAll rs₁).length := by
  exact recoverLoop_content name (freshIndex base) (drop_flipBit h)
    (fun r' hr' => hvalid r' (List.mem_append_left _ hr')) (Consecutive.append_iff.mp hcons).1

/-- Where the damaged record looks torn, opening succeeds without it and all
that follow. -/
theorem init_of_looksTorn (maxBytes : SegmentLimit)
    (hcontent : disk.content base = flipBit (framing.encAll (rs₁ ++ r :: rs₂)) p)
    (hvalid : ∀ r' ∈ rs₁ ++ r :: rs₂, r'.Encodable)
    (hcons : Consecutive base (rs₁ ++ r :: rs₂)) (h : (framing.encAll rs₁).length ≤ p / 8)
    (htorn : Record.Torn (flipBit (r.frame ++ framing.encAll rs₂)
      (p - 8 * (framing.encAll rs₁).length)))
    {ix : Index} (hfeed : feed (freshIndex base) base 0 rs₁ = .ok ix) :
    ∃ s disk', init disk base maxBytes = (.ok s, disk') ∧ s.nextOffset = base + rs₁.length := by
  obtain ⟨f', hrest, hloop⟩ := recoverLoop_flipBit (logName base) hvalid hcons h
  have htorn' : Record.Torn f'.rest := by rwa [hrest]
  rw [hfeed] at hloop
  simp only [recoverLoop_torn htorn'] at hloop
  have hinit : (init disk base maxBytes).1 = _ := init_fst maxBytes.2
  rw [hcontent, hloop] at hinit
  exact ⟨_, (init disk base maxBytes).2, Prod.ext hinit rfl, rfl⟩

/-- **Damage is refused, but for the kind that looks like a torn tail.** A
segment of records that count up, one bit of it flipped, opens – if at all –
to exactly those records, unless the bit is in a size field and what it
makes of the size looks like the end of a torn file; and then it opens
without the records from there on. -/
theorem opensIntact_flipBit_iff {rs : List Record} (hvalid : ∀ r ∈ rs, r.Encodable)
    (hcons : Consecutive base rs) (hp : p / 8 < (framing.encAll rs).length)
    (hcontent : disk.content base = flipBit (framing.encAll rs) p) (maxBytes : SegmentLimit) :
    OpensIntact disk base maxBytes rs ↔ ¬LooksTorn base rs p := by
  have hinit : (init disk base maxBytes).1 = _ := init_fst maxBytes.2
  constructor
  · rintro hintact ⟨rs₁, r, rs₂, rfl, hlo, hhi, hsize, hend, ix, hfeed⟩
    rw [drop_flipBit (by omega), List.drop_left] at hsize hend
    have htorn : Record.Torn (flipBit (r.frame ++ framing.encAll rs₂)
        (p - 8 * (framing.encAll rs₁).length)) := by
      refine Or.inr ⟨hsize, ?_⟩
      rw [framing.encAll_append, framing.encAll_cons, List.length_append] at hend
      rw [length_flipBit]
      have : (r.frame ++ framing.encAll rs₂).length
          = (framing.enc r ++ framing.encAll rs₂).length := rfl
      omega
    obtain ⟨s, disk', hs, hnext⟩ := init_of_looksTorn maxBytes hcontent hvalid
      hcons (by omega) htorn hfeed
    have := (hintact s disk' hs).1
    rw [hnext, List.length_append, List.length_cons] at this
    omega
  · intro hnot s disk' hs
    exfalso
    obtain ⟨rs₁, r, rs₂, rfl, hlo, hhi⟩ := framing.exists_enc_of_lt hp
    have henc := hvalid r (List.mem_append_right _ List.mem_cons_self)
    rw [Record.enc_framing, Record.length_frame] at hhi
    obtain ⟨hsome, hnone⟩ := Record.read_flipBit (s := framing.encAll rs₂)
      (p := p - 8 * (framing.encAll rs₁).length) henc (by omega)
    obtain ⟨f', hrest, hloop⟩ := recoverLoop_flipBit (logName base) hvalid hcons hlo
    rw [hs, hcontent, hloop] at hinit
    cases hfeed : feed (freshIndex base) base 0 rs₁ with
    | error e => rw [hfeed] at hinit; cases hinit
    | ok ix =>
      rw [hfeed] at hinit
      simp only at hinit
      cases hread : Record.read f'.rest with
      | error e => rw [recoverLoop_error hread] at hinit; cases hinit
      | ok o =>
        cases o with
        | some r' =>
          -- the record found is out of turn
          rw [hrest] at hread
          obtain ⟨henc', t, ht⟩ := (Record.read_eq_some_iff _ _).mp hread
          have hoff : r'.offset ≠ base + rs₁.length := by
            rw [← (Consecutive.append_iff.mp hcons).2.1]
            exact hsome r' hread
          obtain ⟨msg, hgap⟩ := recoverLoop_gap (logName base) ix (framing.encAll rs₁).length henc'
            (hrest.trans ht.symm) hoff
          rw [hgap] at hinit
          cases hinit
        | none =>
          rw [hrest] at hread
          have htorn := (Record.read_eq_none_iff _).mp hread
          obtain ⟨h₈, h₁₂⟩ := hnone htorn
          have hlen := length_flipBit (r.frame ++ framing.encAll rs₂)
            (p - 8 * (framing.encAll rs₁).length)
          rw [List.length_append, Record.length_frame] at hlen
          have hsize := r.size_eq
          have htorn' := htorn.resolve_left (by omega)
          refine hnot ⟨rs₁, r, rs₂, rfl, by omega, by omega, ?_, ?_, ix, hfeed⟩
          · rw [drop_flipBit hlo, List.drop_left]
            exact htorn'.1
          · rw [drop_flipBit hlo, List.drop_left, framing.encAll_append, framing.encAll_cons,
              List.length_append, List.length_append, Record.enc_framing, Record.length_frame]
            omega

/-- One record with a bit of its checksum flipped. -/
theorem opensIntact_flipBit_iff_checksum :
    OpensIntact (Disk.of ⟨AList.singleton 0
        ⟨flipBit (framing.encAll [⟨0, 1234, some [], none⟩]) 100, none⟩, ∅⟩) 0 ⟨4096, by decide⟩
        [⟨0, 1234, some [], none⟩]
      ↔ ¬LooksTorn 0 [⟨0, 1234, some [], none⟩] 100 := by
  have hvalid : ∀ r ∈ [(⟨0, 1234, some [], none⟩ : Record)], r.Encodable := by decide
  exact opensIntact_flipBit_iff hvalid ⟨rfl, trivial⟩ (by decide +kernel) rfl ⟨4096, by decide⟩

/-- **Damage that is dropped without a word**: two records, and bit 6 of the
last byte of the first size field flipped. The file opens, and it is empty. -/
theorem damage_dropped :
    ¬OpensIntact (Disk.of ⟨AList.singleton 0
        ⟨flipBit (framing.encAll [⟨0, 1234, some [], none⟩, ⟨1, 1235, none, some []⟩]) 94, none⟩,
          ∅⟩) 0 ⟨4096, by decide⟩ [⟨0, 1234, some [], none⟩, ⟨1, 1235, none, some []⟩] := by
  intro h
  have hvalid : ∀ r ∈ [] ++ ⟨0, 1234, some [], none⟩ :: [(⟨1, 1235, none, some []⟩ : Record)],
      r.Encodable := by decide
  have hcontent : (Disk.of ⟨AList.singleton 0
      ⟨flipBit (framing.encAll [⟨0, 1234, some [], none⟩, ⟨1, 1235, none, some []⟩]) 94, none⟩,
        ∅⟩).content 0 = flipBit (framing.encAll ([] ++ ⟨0, 1234, some [], none⟩
          :: [(⟨1, 1235, none, some []⟩ : Record)])) 94 := rfl
  obtain ⟨s, disk', hs, hnext⟩ := init_of_looksTorn ⟨4096, by decide⟩ hcontent hvalid
    ⟨rfl, rfl, trivial⟩ (Nat.zero_le _) (by decide +kernel) rfl
  have := (h s disk' hs).1
  rw [hnext] at this
  exact absurd this (by decide)

end Standard

end Segment

end Pyka
