import Mathlib.Tactic.Linarith
import Pyka.Base.Framing
import Pyka.Storage.Record

/-!
# The record format

What `Record.encode`, `Record.decode` and `Record.readOne` have to do with
each other. A record that `encode` accepts has one frame, `Record.frame`;
`decode` finds a record at a position exactly when its frame stands there
(`Record.decode_eq_ok_iff`), and `readOne` takes it off a stream exactly when
the stream starts with it (`Record.read_eq_some_iff`).

## The answers of a read

The remaining answers of `readOne` are told apart by the length of what is
left and the size it claims: the rest is torn where it is shorter than a
prefix, or than an acceptable size says (`Record.Torn`); all bytes are there
but too few for the fixed fields (`Record.Undersized`), and unpacking raises
`struct.error`; everything else raises `CorruptRecord`. The three cases
exclude each other and leave none out (`Record.read_eq_none_iff`,
`Record.read_eq_structError_iff`, `Record.read_eq_error`), so a later proof
asks which case it is in and never unfolds a reader.

## Any checksum

All of this holds of any checksum, because a frame and its decoding use the
same one. What a *good* checksum adds, that a changed payload is not taken for
a record, is in the modules on damage.

`Record.framing` packages the format as a `Framing`, which is how the segment
and log layers use it: decompositions into frames, cuts, and the scan that
finds what is whole come from there.
-/

namespace Pyka

open Struct (Bytes Field)
open Crc32 (crc32)

namespace Record

/-- The bytes of an optional payload. -/
theorem lengthField_getD (p : Option Bytes) :
    (max (lengthField p) 0).toNat = (p.getD []).length := by
  cases p with
  | none => rfl
  | some bs => simp [lengthField]

/-- A declared length is never below that of what is absent. -/
theorem null_le_lengthField (p : Option Bytes) : null ≤ lengthField p := by
  cases p with
  | none => exact le_rfl
  | some bs => simp only [lengthField, null]; omega

/-- Only what is absent is declared absent. -/
theorem lengthField_eq_null (p : Option Bytes) : lengthField p = null ↔ p = none := by
  cases p with
  | none => simp [lengthField]
  | some bs => simp [lengthField, null]

/-- A payload is what its declared length and its bytes stand for. -/
theorem payload_lengthField (p : Option Bytes) :
    payload (lengthField p) (p.getD []) = p := by
  cases p with
  | none => rfl
  | some bs => rw [payload, if_pos (by simp [lengthField_eq_null])]; rfl

/-- A declared length that is not below -1 is the declared length of the
payload it stands for. -/
theorem lengthField_payload {len : ℤ} {bs : Bytes} (h : null ≤ len)
    (hbs : bs.length = (max len 0).toNat) :
    lengthField (payload len bs) = len ∧ (payload len bs).getD [] = bs := by
  unfold null at h
  by_cases hlen : len = null
  · have hnil : bs = [] := by
      rw [hlen] at hbs
      exact List.length_eq_zero_iff.mp hbs
    rw [payload, if_neg (not_not.mpr hlen), hlen, hnil]
    exact ⟨rfl, rfl⟩
  · rw [payload, if_pos hlen]
    unfold null at hlen
    refine ⟨?_, rfl⟩
    simp only [lengthField]
    omega

/-- The size in one sum, an absent payload counting as no bytes. -/
theorem size_eq (r : Record) :
    r.size = 32 + (r.key.getD []).length + (r.value.getD []).length := by
  unfold size headerSize
  cases r.key <;> cases r.value <;> rfl

/-- **What `encode` accepts**: offset and timestamp on eight signed bytes,
and no more than `maxSize` bytes after the size field. -/
structure Encodable (r : Record) : Prop where
  offset : Field.q.Holds r.offset
  timestamp : Field.q.Holds r.timestamp
  size : 20 + (r.key.getD []).length + (r.value.getD []).length ≤ maxSize

theorem encodable_iff (r : Record) : r.Encodable ↔
    Field.q.Holds r.offset ∧ Field.q.Holds r.timestamp
      ∧ 20 + (r.key.getD []).length + (r.value.getD []).length ≤ maxSize :=
  ⟨fun h => ⟨h.1, h.2, h.3⟩, fun h => ⟨h.1, h.2.1, h.2.2⟩⟩

instance (r : Record) : Decidable r.Encodable :=
  decidable_of_iff _ (encodable_iff r).symm

theorem Encodable.size_le {r : Record} (h : r.Encodable) : r.size ≤ 12 + maxSize := by
  rw [size_eq]
  have := h.size
  omega

theorem maxSize_eq : maxSize = 1048576 := rfl

/-- The lengths of an encodable record fit their fields. -/
theorem Encodable.holds_lengthField {r : Record} (h : r.Encodable) :
    Field.i.Holds (lengthField r.key) ∧ Field.i.Holds (lengthField r.value) := by
  have hsize := h.size
  rw [maxSize_eq] at hsize
  have hi : ∀ p : Option Bytes, (p.getD []).length ≤ 1048576 →
      Field.i.Holds (lengthField p) := by
    intro p hp
    cases p with
    | none => decide
    | some bs =>
      have hb : bs.length ≤ 1048576 := hp
      show -((256 ^ 4 : ℕ) / 2 : ℤ) ≤ (bs.length : ℤ) ∧ (bs.length : ℤ) < (256 ^ 4 : ℕ) / 2
      norm_num
      omega
  exact ⟨hi _ (by omega), hi _ (by omega)⟩

theorem calcsize_prefixFmt : Struct.calcsize prefixFmt = 12 := rfl

theorem calcsize_crcBodyFmt : Struct.calcsize crcBodyFmt = 16 := rfl

theorem calcsize_qI : Struct.calcsize [.q, .I] = 12 := rfl

theorem calcsize_I : Struct.calcsize [.I] = 4 := rfl

theorem calcsize_qii : Struct.calcsize [.q, .i, .i] = 16 := rfl

theorem holds_size {n : ℕ} (h : n ≤ maxSize) : Field.I.Holds n := by
  rw [maxSize_eq] at h
  show 0 ≤ (n : ℤ) ∧ (n : ℤ) < (256 ^ 4 : ℕ)
  norm_num
  omega

/-- The size field at the front of a byte string. -/
def claimed (bs : Bytes) : ℕ := Struct.ofBigEndian (slice bs 8 12)

/-- The claim is in the first twelve bytes. -/
theorem claimed_take (bs : Bytes) {n : ℕ} (h : 12 ≤ n) :
    claimed (bs.take n) = claimed bs := by
  unfold claimed slice
  rw [List.drop_take, List.take_take, Nat.min_eq_left (by omega)]

/-- **A torn rest**: too short for a prefix, or for the record it claims. -/
def Torn (bs : Bytes) : Prop :=
  bs.length < 12 ∨ claimed bs ≤ maxSize ∧ bs.length < 12 + claimed bs

/-- Nothing at all is torn: the end of a file looks like the start of a frame. -/
theorem torn_nil : Torn [] := Or.inl (by simp)

/-- **An undersized frame**: all the bytes it claims are there, and they
are fewer than the checksum, timestamp and lengths take. -/
def Undersized (bs : Bytes) : Prop :=
  12 + claimed bs ≤ bs.length ∧ 12 ≤ bs.length ∧ claimed bs < 20

instance (bs : Bytes) : Decidable (Torn bs) :=
  inferInstanceAs (Decidable (_ ∨ _ ∧ _))

instance (bs : Bytes) : Decidable (Undersized bs) :=
  inferInstanceAs (Decidable (_ ∧ _ ∧ _))

/-- A torn rest cut shorter is torn, whether the cut leaves its claim or not. -/
theorem Torn.take {bs : Bytes} (h : Torn bs) (k : ℕ) : Torn (bs.take k) := by
  by_cases hk : (bs.take k).length < 12
  · exact Or.inl hk
  · rw [List.length_take] at hk
    refine Or.inr ?_
    rw [claimed_take bs (by omega), List.length_take]
    rcases h with h | h
    · omega
    · exact ⟨h.1, by omega⟩

section Codec

variable [Crc32]

omit [Crc32] in
theorem holds_checksum (c : BitVec 32) : Field.I.Holds c.toNat := by
  have := c.isLt
  show 0 ≤ (c.toNat : ℤ) ∧ (c.toNat : ℤ) < (256 ^ 4 : ℕ)
  norm_num
  omega

/-- The frame of a record, in the pieces `encode` joins: it is written down
for any record, and means something for those that can be encoded. -/
def frame (r : Record) : Bytes :=
  let crcBody := Field.q.bytes r.timestamp ++
    (Field.i.bytes (lengthField r.key) ++ Field.i.bytes (lengthField r.value))
  let crc := (checksum crcBody (r.key.getD []) (r.value.getD [])).toNat
  Field.q.bytes r.offset ++ Field.I.bytes ((r.size - 12 : ℕ) : ℤ)
    ++ Field.I.bytes crc ++ crcBody ++ r.key.getD [] ++ r.value.getD []

/-- A frame has its record's size. -/
@[simp] theorem length_frame (r : Record) : r.frame.length = r.size := by
  rw [size_eq]
  simp only [frame, List.length_append, Field.length_bytes, Field.width]

/-- **`encode` writes the frame of an encodable record and refuses every
other record.** -/
theorem encode_eq_ok_iff (r : Record) (bs : Bytes) :
    r.encode = .ok bs ↔ r.Encodable ∧ r.frame = bs := by
  have hn : r.size - 12 = 4 + Struct.calcsize crcBodyFmt + (r.key.getD []).length
      + (r.value.getD []).length := by
    rw [size_eq, calcsize_crcBodyFmt]; omega
  simp only [encode, bind_eq_ok, raiseIf_eq_ok, structPack_eq_ok, pure_eq_ok]
  simp only [crcBodyFmt, prefixFmt, Struct.pack_cons_eq_some, Struct.pack_nil_eq_some]
  constructor
  · rintro ⟨_, ⟨hts, _, ⟨-, _, ⟨-, _, rfl, rfl⟩, rfl⟩, rfl⟩, _, ⟨-, _, rfl, rfl⟩, -, hsize,
      _, ⟨hoff, _, ⟨-, _, rfl, rfl⟩, rfl⟩, rfl⟩
    rw [← crcBodyFmt, calcsize_crcBodyFmt] at hsize
    refine ⟨⟨hoff, hts, by omega⟩, ?_⟩
    simp only [frame, hn, List.append_nil, List.append_assoc]
    rfl
  · rintro ⟨henc, rfl⟩
    obtain ⟨hk, hv⟩ := henc.holds_lengthField
    have hle := henc.size
    refine ⟨_, ⟨henc.timestamp, _, ⟨hk, _, ⟨hv, _, rfl, rfl⟩, rfl⟩, rfl⟩, _,
      ⟨holds_checksum _, _, rfl, rfl⟩, (), ?_, _,
      ⟨henc.offset, _, ⟨holds_size ?_, _, rfl, rfl⟩, rfl⟩, ?_⟩
    · show ¬4 + 16 + _ + _ > maxSize
      omega
    · show 4 + 16 + _ + _ ≤ maxSize
      omega
    · simp only [frame, hn, List.append_nil, List.append_assoc]
      rfl

/-- What can be encoded is encoded to its frame. -/
theorem encode_of_encodable {r : Record} (h : r.Encodable) : r.encode = .ok r.frame :=
  (encode_eq_ok_iff r _).mpr ⟨h, rfl⟩

/-- What `encode` raises: a number that does not fit is `struct.error`, a
record that is too long a `ValueError`. -/
theorem encode_error {r : Record} {e : PyError} (h : r.encode = .error e) :
    e = .structError ∨ ∃ msg, e = .valueError msg := by
  simp only [encode, bind_eq_error, raiseIf_eq_error] at h
  rcases h with h | ⟨_, _, h | ⟨_, _, ⟨_, rfl⟩ | ⟨_, _, h | ⟨_, _, h⟩⟩⟩⟩
  · exact Or.inl (structPack_eq_error h)
  · exact Or.inl (structPack_eq_error h)
  · exact Or.inr ⟨_, rfl⟩
  · exact Or.inl (structPack_eq_error h)
  · cases h

/-! ## What `decode` finds

`decode` cuts the buffer into the pieces that `encode` joined and compares
checksums. One direction takes a decoded record and rebuilds its frame from
the pieces; the other slices a frame that stands in the buffer. -/

/-- **A decoded record stands in the buffer**: from its position on, the
buffer holds the frame `encode` writes. -/
theorem frame_of_decode {buf : Bytes} {pos : ℕ} {r : Record}
    (h : decode buf pos = .ok r) : r.Encodable ∧ pos + r.size ≤ buf.length
      ∧ slice buf pos (pos + r.size) = r.frame := by
  simp only [decode, bind_eq_ok] at h
  obtain ⟨_, hhead, h⟩ := h
  rw [structUnpackFrom_eq_ok] at hhead
  simp only [prefixFmt, Struct.pack_cons_left, Struct.pack_nil_left] at hhead
  obtain ⟨hpre, offset, _, rfl, hoff, _, ⟨size, _, rfl, hI, _, ⟨rfl, rfl⟩, rfl⟩, hhead⟩ :=
    hhead
  simp only [bind_eq_ok, raiseIf_eq_ok] at h
  obtain ⟨-, hmax, -, hfit, _, hcrc, h⟩ := h
  rw [structUnpackFrom_eq_ok] at hcrc
  simp only [Struct.pack_cons_left, Struct.pack_nil_left] at hcrc
  obtain ⟨hcrclen, crc, _, rfl, -, _, ⟨rfl, rfl⟩, hcrc⟩ := hcrc
  simp only [bind_eq_ok] at h
  obtain ⟨_, hbody, h⟩ := h
  rw [structUnpack_eq_ok] at hbody
  simp only [crcBodyFmt, Struct.pack_cons_left, Struct.pack_nil_left] at hbody
  obtain ⟨timestamp, _, rfl, hts, _, ⟨klen, _, rfl, hk, _, ⟨vlen, _, rfl, hv, _,
    ⟨rfl, rfl⟩, rfl⟩, rfl⟩, hbody⟩ := hbody
  simp only [bind_eq_ok, raiseIf_eq_ok, pure_eq_ok] at h
  obtain ⟨-, hneg, -, hexp, -, hsum, rfl⟩ := h
  rw [not_or, not_lt, not_lt] at hneg
  rw [not_not] at hexp hsum
  rw [gt_iff_lt, not_lt] at hfit
  simp only [prefixSize, headerSize, calcsize_crcBodyFmt, calcsize_qI, calcsize_I, calcsize_qii,
    Nat.add_assoc, Nat.reduceAdd, Nat.cast_ofNat] at *
  -- the payloads, whose lengths the size field bounds by the buffer's end
  generalize hkn : (max klen 0).toNat = kn at *
  generalize hvn : (max vlen 0).toNat = vn at *
  have hend : pos + (32 + (kn + vn)) ≤ buf.length := by omega
  generalize hkey : slice buf (pos + 32) (pos + (32 + kn)) = key at *
  generalize hvalue : slice buf (pos + (32 + kn)) (pos + (32 + (kn + vn))) = value at *
  have hkeylen : key.length = kn := by
    rw [← hkey, length_slice (by omega)]; omega
  have hvaluelen : value.length = vn := by
    rw [← hvalue, length_slice hend]; omega
  obtain ⟨hlk, hgk⟩ := lengthField_payload hneg.1 (hkeylen.trans hkn.symm)
  obtain ⟨hlv, hgv⟩ := lengthField_payload hneg.2 (hvaluelen.trans hvn.symm)
  have hsize : Record.size ⟨offset, timestamp, payload klen key, payload vlen value⟩
      = 32 + (kn + vn) := by
    rw [size_eq, hgk, hgv, hkeylen, hvaluelen, Nat.add_assoc]
  refine ⟨⟨hoff, hts, ?_⟩, by rw [hsize]; exact hend, ?_⟩
  · simp only [hgk, hgv]
    omega
  · simp only [List.append_nil] at hhead hcrc hbody
    have hsub : ((Record.size ⟨offset, timestamp, payload klen key, payload vlen value⟩ - 12 : ℕ)
        : ℤ) = size := by
      rw [hsize]; omega
    unfold frame
    simp only [hsub, hlk, hlv, hgk, hgv, hhead, hbody, hsum, hcrc]
    rw [hsize, ← hkey, ← hvalue, slice_append_slice _ (by omega) (by omega),
      slice_append_slice _ (by omega) (by omega), slice_append_slice _ (by omega) (by omega),
      slice_append_slice _ (by omega) (by omega)]

/-- The slices of a frame, in the pieces `decode` cuts it into. -/
theorem slice_frame (r : Record) :
    slice r.frame 0 12 = Field.q.bytes r.offset ++ Field.I.bytes ((r.size - 12 : ℕ) : ℤ)
    ∧ slice r.frame 16 32 = Field.q.bytes r.timestamp ++
        (Field.i.bytes (lengthField r.key) ++ Field.i.bytes (lengthField r.value))
    ∧ slice r.frame 32 (32 + (r.key.getD []).length) = r.key.getD []
    ∧ slice r.frame (32 + (r.key.getD []).length) r.size = r.value.getD []
    ∧ slice r.frame 12 16 = Field.I.bytes (checksum (slice r.frame 16 32)
        (r.key.getD []) (r.value.getD [])).toNat := by
  have hsize := size_eq r
  have hbody : slice r.frame 16 32 = Field.q.bytes r.timestamp ++
      (Field.i.bytes (lengthField r.key) ++ Field.i.bytes (lengthField r.value)) := by
    rw [frame, List.append_assoc, List.append_assoc,
      slice_append_right (a := 0) (b := 16) _ (by simp [Field.width]),
      slice_append_left _ (by simp [Field.width])]
  refine ⟨?_, hbody, ?_, ?_, ?_⟩
  · rw [frame, List.append_assoc, List.append_assoc, List.append_assoc,
      slice_append_left _ (by simp [Field.width])]
  · rw [frame, List.append_assoc,
      slice_append_right (a := 0) _ (by simp [Field.width]), slice_append_left _ rfl]
  · rw [hsize, frame]
    exact slice_append_to_end (by simp [Field.width]; omega) rfl
  · rw [hbody, frame, List.append_assoc, List.append_assoc, List.append_assoc,
      slice_append_right (a := 0) (b := 4) _ (by simp [Field.width]),
      slice_append_left _ (by simp [Field.width])]

/-- **`decode` finds the record whose frame stands there.** -/
theorem decode_of_slice {buf : Bytes} {pos : ℕ} {r : Record} (henc : r.Encodable)
    (hlen : pos + r.size ≤ buf.length) (h : slice buf pos (pos + r.size) = r.frame) :
    decode buf pos = .ok r := by
  have hsize := size_eq r
  have hle := henc.size
  obtain ⟨hk, hv⟩ := henc.holds_lengthField
  obtain ⟨hhead, hbody, hkey, hvalue, hcrc⟩ := slice_frame r
  have hsub : ∀ a b, b ≤ r.size → slice buf (pos + a) (pos + b) = slice r.frame a b :=
    fun a b hb => by rw [← h, slice_slice _ hb]
  have hpacked : structUnpackFrom prefixFmt buf pos = .ok [r.offset, (r.size - 12 : ℕ)] := by
    rw [structUnpackFrom_eq_ok, calcsize_prefixFmt]
    have := hsub 0 12 (by omega)
    rw [Nat.add_zero] at this
    rw [this, hhead]
    simp only [prefixFmt, Struct.pack_cons_eq_some, Struct.pack_nil_eq_some]
    exact ⟨by omega, henc.offset, _, ⟨holds_size (by omega), _, rfl, rfl⟩, by simp⟩
  have hsum : structUnpackFrom [.I] buf (pos + prefixSize)
      = .ok [((checksum (slice r.frame 16 32) (r.key.getD []) (r.value.getD [])).toNat : ℤ)] := by
    rw [structUnpackFrom_eq_ok, calcsize_I, prefixSize, Nat.add_assoc, hsub 12 16 (by omega), hcrc]
    simp only [Struct.pack_cons_eq_some, Struct.pack_nil_eq_some]
    exact ⟨by omega, holds_checksum _, _, rfl, by simp⟩
  have hfixed : structUnpack crcBodyFmt (slice r.frame 16 32)
      = .ok [r.timestamp, lengthField r.key, lengthField r.value] := by
    rw [structUnpack_eq_ok, hbody]
    simp only [crcBodyFmt, Struct.pack_cons_eq_some, Struct.pack_nil_eq_some]
    exact ⟨henc.timestamp, _, ⟨hk, _, ⟨hv, _, rfl, rfl⟩, rfl⟩, by simp⟩
  have hs₁ : slice buf (pos + prefixSize + 4)
      (pos + prefixSize + 4 + Struct.calcsize crcBodyFmt) = slice r.frame 16 32 := by
    rw [prefixSize, calcsize_crcBodyFmt, ← hsub 16 32 (by omega)]
  have hs₂ : slice buf (pos + headerSize)
      (pos + headerSize + (r.key.getD []).length) = r.key.getD [] := by
    rw [headerSize, Nat.add_assoc, hsub _ _ (by omega), hkey]
  have hs₃ : slice buf (pos + headerSize + (r.key.getD []).length)
      (pos + headerSize + (r.key.getD []).length + (r.value.getD []).length)
        = r.value.getD [] := by
    rw [headerSize, Nat.add_assoc, Nat.add_assoc, ← hsize, hsub _ _ le_rfl, hvalue]
  have hfields : Record.mk r.offset r.timestamp r.key r.value = r := rfl
  simp only [decode, bind_eq_ok]
  refine ⟨_, hpacked, ?_⟩
  simp only [bind_eq_ok, raiseIf_eq_ok]
  refine ⟨(), by omega, (), by simp only [prefixSize]; omega, _, hsum, ?_⟩
  simp only [bind_eq_ok, hs₁]
  refine ⟨_, hfixed, ?_⟩
  simp only [bind_eq_ok, raiseIf_eq_ok, pure_eq_ok, lengthField_getD, hs₂, hs₃,
    payload_lengthField, hfields]
  refine ⟨(), ?_, (), ?_, (), not_not.mpr rfl, trivial⟩
  · rw [not_or, not_lt, not_lt]
    exact ⟨null_le_lengthField _, null_le_lengthField _⟩
  · rw [not_not, calcsize_crcBodyFmt]
    omega

/-- **`decode` finds a record exactly where its frame stands.** -/
theorem decode_eq_ok_iff (buf : Bytes) (pos : ℕ) (r : Record) :
    decode buf pos = .ok r ↔ r.Encodable ∧ r.frame <+: buf.drop pos := by
  constructor
  · intro h
    obtain ⟨henc, -, hslice⟩ := frame_of_decode h
    refine ⟨henc, ?_⟩
    rw [← hslice]
    exact List.take_prefix _ _
  · rintro ⟨henc, s, hs⟩
    have hlen := congrArg List.length hs
    rw [List.length_append, length_frame, List.length_drop] at hlen
    have hpos : 0 < r.size := by rw [size_eq]; omega
    refine decode_of_slice henc (by omega) ?_
    unfold slice
    rw [← hs, Nat.add_sub_cancel_left, List.take_left' (length_frame r)]

/-! ## What `readOne` answers

The answer depends on the bytes left in the stream only. `read` names it,
and `claimed` the size field it goes by. -/

/-- What `readOne` answers on a stream that holds these bytes. It is a
function of the bytes alone, as the answer does not depend on what was read
before (`readOne_fst`). -/
def read (bs : Bytes) : Except PyError (Option Record) := (readOne ⟨bs, 0⟩).1

omit [Crc32] in
theorem unpack_head (bs : Bytes) (h : 12 ≤ bs.length) :
    structUnpack prefixFmt (bs.take 12)
      = .ok [Field.q.value (bs.take 8), (claimed bs : ℤ)] := by
  have hlen : (bs.take 12).length = Struct.calcsize prefixFmt := by
    rw [List.length_take, calcsize_prefixFmt]; omega
  unfold structUnpack Struct.unpack
  rw [if_pos hlen]
  have hsize : ((bs.take 12).drop 8).take 4 = slice bs 8 12 := by
    rw [List.drop_take, List.take_take]; rfl
  simp only [prefixFmt, Struct.fields, Field.width, List.take_take, hsize]
  rfl

/-- The stream `readOne` leaves behind, and its answer. -/
theorem readOne_eq (f : Stream) : readOne f =
    if f.rest.length < 12 then (.ok none, { f with pos := f.pos + f.rest.length })
    else if maxSize < claimed f.rest then
      (.error (.corruptRecord s!"size {(claimed f.rest : ℤ)} exceeds MAX_SIZE"),
        { f with pos := f.pos + 12 })
    else if f.rest.length < 12 + claimed f.rest then
      (.ok none, { f with pos := f.pos + f.rest.length })
    else ((decode (f.rest.take (12 + claimed f.rest)) 0).map some,
      { f with pos := f.pos + (12 + claimed f.rest) }) := by
  have hdrop : f.content.drop (f.pos + 12) = f.rest.drop 12 := by
    rw [Stream.rest, List.drop_drop]
  unfold readOne Stream.read
  simp only [← Stream.rest.eq_def, prefixSize, List.length_take]
  by_cases hlen : f.rest.length < 12
  · rw [if_pos hlen, if_pos (by omega), Nat.min_eq_right (by omega)]
  · rw [if_neg hlen, if_neg (by omega), unpack_head _ (by omega), Nat.min_eq_left (by omega)]
    simp only [Int.toNat_natCast, Nat.cast_lt, gt_iff_lt]
    by_cases hmax : maxSize < claimed f.rest
    · rw [if_pos hmax, if_pos hmax]
    · rw [if_neg hmax, if_neg hmax]
      simp only [hdrop, List.length_drop, Nat.add_assoc]
      by_cases hfit : f.rest.length < 12 + claimed f.rest
      · rw [if_pos (by omega), if_pos hfit, Nat.min_eq_right (by omega)]
        congr 2
        omega
      · rw [if_neg (by omega), if_neg hfit, Nat.min_eq_left (by omega), ← List.take_add]

/-- The answer depends on what is left in the stream only. -/
theorem readOne_fst (f : Stream) : (readOne f).1 = read f.rest := by
  have hrest : Stream.rest ⟨f.rest, 0⟩ = f.rest := List.drop_zero
  rw [read, readOne_eq, readOne_eq, hrest]
  split_ifs <;> rfl

/-- `readOne` reports the end of the stream exactly on a torn rest. -/
theorem read_eq_none_iff (bs : Bytes) : read bs = .ok none ↔ Torn bs := by
  have hrest : Stream.rest ⟨bs, 0⟩ = bs := List.drop_zero
  rw [read, readOne_eq, hrest, Torn]
  split_ifs with hlen hmax hfit
  · simp [hlen]
  · simp [hlen, hmax]
  · simp [hfit, not_lt.mp hmax]
  · cases decode (bs.take (12 + claimed bs)) 0 <;> simp [Except.map, hlen, hfit]

/-- A frame in front claims what its record takes behind the size field. -/
theorem claimed_of_frame_front {bs : Bytes} {r : Record} (henc : r.Encodable)
    (h : r.frame <+: bs) : claimed bs = r.size - 12 := by
  obtain ⟨s, rfl⟩ := h
  have hle := henc.size
  have hsize := size_eq r
  have hslice : slice (r.frame ++ s) 8 12 = Field.I.bytes ((r.size - 12 : ℕ) : ℤ) := by
    rw [frame, List.append_assoc, List.append_assoc, List.append_assoc, List.append_assoc,
      List.append_assoc]
    rw [slice_append_right (a := 0) (b := 4) _ (by simp [Field.width]),
      slice_append_left _ (by simp [Field.width])]
  have hval := Field.value_bytes (holds_size (n := r.size - 12) (by omega))
  rw [claimed, hslice]
  exact Int.ofNat.inj hval

/-- `readOne` finds a record exactly where its frame stands. -/
theorem read_eq_some_iff (bs : Bytes) (r : Record) :
    read bs = .ok (some r) ↔ r.Encodable ∧ r.frame <+: bs := by
  have hrest : Stream.rest ⟨bs, 0⟩ = bs := List.drop_zero
  have hsize := size_eq r
  rw [read, readOne_eq, hrest]
  constructor
  · intro h
    by_cases hlen : bs.length < 12
    · rw [if_pos hlen] at h; cases h
    by_cases hmax : maxSize < claimed bs
    · rw [if_neg hlen, if_pos hmax] at h; cases h
    by_cases hfit : bs.length < 12 + claimed bs
    · rw [if_neg hlen, if_neg hmax, if_pos hfit] at h; cases h
    rw [if_neg hlen, if_neg hmax, if_neg hfit] at h
    cases hd : decode (bs.take (12 + claimed bs)) 0 with
    | error e => rw [hd] at h; cases h
    | ok r' =>
      rw [hd] at h
      cases h
      obtain ⟨henc, hp⟩ := (decode_eq_ok_iff _ _ _).mp hd
      exact ⟨henc, hp.trans (List.take_prefix _ _)⟩
  · rintro ⟨henc, hp⟩
    have hle := henc.size
    have hclaim := claimed_of_frame_front henc hp
    have hlen := hp.length_le
    rw [length_frame] at hlen
    rw [if_neg (by omega), if_neg (by omega), if_neg (by omega)]
    have hd : decode (bs.take (12 + claimed bs)) 0 = .ok r := by
      refine (decode_eq_ok_iff _ _ _).mpr ⟨henc, ?_⟩
      rw [List.drop_zero, List.prefix_take_iff, length_frame]
      exact ⟨hp, by omega⟩
    rw [hd]
    rfl

/-- `decode` on an undersized frame runs out of bytes to unpack. -/
theorem decode_of_undersized {buf : Bytes} (hlen : buf.length = 12 + claimed buf)
    (hsize : claimed buf < 20) : decode buf 0 = .error .structError := by
  have hpacked : structUnpackFrom prefixFmt buf 0
      = .ok [Field.q.value (buf.take 8), (claimed buf : ℤ)] := by
    have h := unpack_head buf (by omega)
    rw [structUnpack_eq_ok] at h
    rw [structUnpackFrom_eq_ok, calcsize_prefixFmt]
    exact ⟨by omega, h⟩
  simp only [decode, bind_eq_error]
  refine Or.inr ⟨_, hpacked, ?_⟩
  simp only [bind_eq_error, raiseIf_eq_error, raiseIf_eq_ok]
  refine Or.inr ⟨(), by rw [maxSize_eq]; omega, Or.inr ⟨(), by
    simp only [prefixSize]; omega, ?_⟩⟩
  by_cases hcrc : claimed buf < 4
  · exact Or.inl (structUnpackFrom_eq_error.mpr ⟨by
      rw [calcsize_I, prefixSize]; omega, rfl⟩)
  · have hlen4 : (slice buf (0 + prefixSize) (0 + prefixSize + Struct.calcsize [.I])).length
        = Struct.calcsize [.I] := by
      rw [length_slice (by rw [calcsize_I, prefixSize]; omega), Nat.add_sub_cancel_left]
    refine Or.inr ⟨_, structUnpackFrom_eq_ok.mpr ⟨by
      rw [calcsize_I, prefixSize]; omega, Struct.pack_fields hlen4⟩, ?_⟩
    simp only [Struct.fields, bind_eq_error]
    refine Or.inl (structUnpack_eq_error.mpr ⟨?_, rfl⟩)
    unfold slice
    rw [calcsize_crcBodyFmt, prefixSize, List.length_take, List.length_drop]
    omega

/-- `decode` on a whole frame raises nothing but `CorruptRecord`: with the
fixed fields there, nothing is unpacked that is too short. -/
theorem isCorruptRecord_of_decode {buf : Bytes} (hlen : 12 + claimed buf ≤ buf.length)
    (hsize : 20 ≤ claimed buf) {e : PyError} (h : decode buf 0 = .error e) :
    e.isCorruptRecord = true := by
  have hpacked : structUnpackFrom prefixFmt buf 0
      = .ok [Field.q.value (buf.take 8), (claimed buf : ℤ)] := by
    have h := unpack_head buf (by omega)
    rw [structUnpack_eq_ok] at h
    rw [structUnpackFrom_eq_ok, calcsize_prefixFmt]
    exact ⟨by omega, h⟩
  simp only [decode, bind_eq_error] at h
  rcases h with h | ⟨_, hp, h⟩
  · rw [hpacked] at h; cases h
  cases hpacked.symm.trans hp
  simp only [bind_eq_error, raiseIf_eq_error, raiseIf_eq_ok] at h
  rcases h with ⟨-, rfl⟩ | ⟨-, -, ⟨-, rfl⟩ | ⟨-, -, h⟩⟩
  · rfl
  · rfl
  rcases h with h | ⟨_, hcrc, h⟩
  · rw [structUnpackFrom_eq_error, calcsize_I, prefixSize] at h
    omega
  rw [structUnpackFrom_eq_ok] at hcrc
  simp only [Struct.pack_cons_left, Struct.pack_nil_left] at hcrc
  obtain ⟨-, crc, _, rfl, -, _, ⟨rfl, rfl⟩, -⟩ := hcrc
  simp only [bind_eq_error] at h
  rcases h with h | ⟨_, hbody, h⟩
  · rw [structUnpack_eq_error, length_slice (by
      rw [calcsize_crcBodyFmt, prefixSize]; omega), Nat.add_sub_cancel_left] at h
    exact absurd rfl h.1
  rw [structUnpack_eq_ok] at hbody
  simp only [crcBodyFmt, Struct.pack_cons_left, Struct.pack_nil_left] at hbody
  obtain ⟨timestamp, _, rfl, -, _, ⟨klen, _, rfl, -, _, ⟨vlen, _, rfl, -, _,
    ⟨rfl, rfl⟩, rfl⟩, rfl⟩, -⟩ := hbody
  simp only [bind_eq_error, raiseIf_eq_error, raiseIf_eq_ok] at h
  rcases h with ⟨-, rfl⟩ | ⟨-, -, ⟨-, rfl⟩ | ⟨-, -, ⟨-, rfl⟩ | ⟨-, -, h⟩⟩⟩
  · rfl
  · rfl
  · rfl
  · cases h

/-- **What `readOne` can raise**: `struct.error` on an undersized frame,
`CorruptRecord` everywhere else. -/
theorem read_eq_error {bs : Bytes} {e : PyError} (h : read bs = .error e) :
    if Undersized bs then e = .structError else e.isCorruptRecord = true := by
  have hrest : Stream.rest ⟨bs, 0⟩ = bs := List.drop_zero
  rw [read, readOne_eq, hrest] at h
  by_cases hlen : bs.length < 12
  · rw [if_pos hlen] at h; cases h
  by_cases hmax : maxSize < claimed bs
  · rw [if_neg hlen, if_pos hmax] at h
    cases h
    rw [if_neg (fun hu => by have := hu.2.2; rw [maxSize_eq] at hmax; omega)]
    rfl
  by_cases hfit : bs.length < 12 + claimed bs
  · rw [if_neg hlen, if_neg hmax, if_pos hfit] at h; cases h
  rw [if_neg hlen, if_neg hmax, if_neg hfit] at h
  have hclaim : claimed (bs.take (12 + claimed bs)) = claimed bs := claimed_take bs (by omega)
  have htake : (bs.take (12 + claimed bs)).length = 12 + claimed bs := by
    rw [List.length_take]; omega
  have hd : decode (bs.take (12 + claimed bs)) 0 = .error e := by
    cases hd : decode (bs.take (12 + claimed bs)) 0 with
    | error e' => rw [hd] at h; cases h; rfl
    | ok r => rw [hd] at h; cases h
  split_ifs with hu
  · rw [decode_of_undersized (by rw [hclaim, htake]) (by rw [hclaim]; exact hu.2.2)] at hd
    exact (Except.error.inj hd).symm
  · refine isCorruptRecord_of_decode (by rw [hclaim, htake]) ?_ hd
    rw [hclaim]
    by_contra hlt
    exact hu ⟨by omega, by omega, by omega⟩

/-- `readOne` raises `struct.error` exactly on an undersized frame. -/
theorem read_eq_structError_iff (bs : Bytes) :
    read bs = .error .structError ↔ Undersized bs := by
  constructor
  · intro h
    by_contra hu
    have := read_eq_error h
    rw [if_neg hu] at this
    cases this
  · intro hu
    cases h : read bs with
    | error e =>
      have := read_eq_error h
      rw [if_pos hu] at this
      rw [this]
    | ok o =>
      have hmax : claimed bs ≤ maxSize := by have := hu.2.2; rw [maxSize_eq]; omega
      cases o with
      | none =>
        rcases (read_eq_none_iff bs).mp h with ht | ht
        · exact absurd hu.2.1 (by omega)
        · exact absurd hu.1 (by omega)
      | some r =>
        obtain ⟨henc, hp⟩ := (read_eq_some_iff bs r).mp h
        have hclaim := claimed_of_frame_front henc hp
        have := hu.2.2
        rw [hclaim, size_eq] at this
        omega

/-- **Records as a framing**: `readOne` and `encode` are a reader and a
writer of self-delimiting frames. -/
def framing : Framing Record UInt8 PyError where
  Valid := Encodable
  enc := frame
  read := read
  read_some := read_eq_some_iff
  read_torn r t henc hp hne := by
    rw [read_eq_none_iff]
    have hlt : t.length < r.frame.length :=
      lt_of_le_of_ne hp.length_le (fun he => hne (hp.eq_of_length he))
    rw [length_frame] at hlt
    by_cases hk : t.length < 12
    · exact Or.inl hk
    · have hclaim : claimed t = r.size - 12 := by
        obtain ⟨s, hs⟩ := hp
        -- the piece claims what the frame does, as it is long enough to hold the
        -- claim
        rw [← claimed_of_frame_front henc (List.prefix_refl _), ← hs,
          ← claimed_take (t ++ s) (n := t.length) (by omega), List.take_left]
      have := henc.size_le
      exact Or.inr ⟨by omega, by omega⟩
  torn_take t k h := by
    rw [read_eq_none_iff] at h ⊢
    exact h.take k
  read_nil := (read_eq_none_iff []).mpr (Or.inl (by simp))

/-- Taking a record off a stream moves the stream past its frame. -/
theorem readOne_of_frame {f : Stream} {r : Record} (henc : r.Encodable)
    (h : r.frame <+: f.rest) :
    readOne f = (.ok (some r), { f with pos := f.pos + r.size }) := by
  have hread : (readOne f).1 = .ok (some r) := by
    rw [readOne_fst]
    exact (read_eq_some_iff _ _).mpr ⟨henc, h⟩
  have hclaim := claimed_of_frame_front henc h
  have hlen := h.length_le
  have hsize := size_eq r
  have hle := henc.size_le
  rw [length_frame] at hlen
  have hpos : (readOne f).2 = { f with pos := f.pos + r.size } := by
    rw [readOne_eq, if_neg (by omega), if_neg (by omega), if_neg (by omega), hclaim]
    rw [show 12 + (r.size - 12) = r.size by omega]
  exact Prod.ext hread hpos

/-- **When `readOne` takes a record off a stream**, and where it leaves the
stream. -/
theorem readOne_eq_some_iff {f f' : Stream} {r : Record} :
    readOne f = (.ok (some r), f')
      ↔ r.Encodable ∧ r.frame <+: f.rest ∧ f' = { f with pos := f.pos + r.size } := by
  constructor
  · intro h
    have hread : read f.rest = .ok (some r) := by rw [← readOne_fst, h]
    obtain ⟨henc, hp⟩ := (read_eq_some_iff _ _).mp hread
    have hf := readOne_of_frame henc hp
    rw [h] at hf
    exact ⟨henc, hp, (Prod.mk.inj hf).2⟩
  · rintro ⟨henc, hp, rfl⟩
    exact readOne_of_frame henc hp

/-- Taking a record off a stream leaves less to read, so a loop that does so
comes to an end. -/
theorem readOne_lt {f f' : Stream} {r : Record} (h : readOne f = (.ok (some r), f')) :
    f'.content.length - f'.pos < f.content.length - f.pos := by
  obtain ⟨-, hp, rfl⟩ := readOne_eq_some_iff.mp h
  have hlen := hp.length_le
  have hsize := size_eq r
  rw [length_frame, Stream.rest, List.length_drop] at hlen
  dsimp only
  omega

end Codec

/-! ## The format is a bijection

The facts above, in terms of the functions of the source alone: the numbers of
a record are bounded by what their fields hold, and no predicate of this
module is mentioned. -/

/-- The integers of eight signed bytes. -/
theorem holds_q_iff (z : ℤ) : Field.q.Holds z ↔ -2 ^ 63 ≤ z ∧ z < 2 ^ 63 := by
  have hspan : Field.q.span = 18446744073709551616 := rfl
  have hpow : (2 : ℤ) ^ 63 = 9223372036854775808 := rfl
  simp only [Field.Holds, Field.signed, if_true, hspan, hpow]
  omega

/-- **Encoding and decoding are inverse to each other.** A record whose
numbers fit encodes to `size` bytes, which decode to it between any other
bytes and read off any stream; and whatever decodes anywhere is, byte for
byte, what encoding it gives. So no two records share an encoding – an
absent payload and an empty one among them – and nothing `encode` emits is
refused by `readOne`. -/
theorem encode_decode_bijection [Crc32] :
    (∀ r : Record, -2 ^ 63 ≤ r.offset → r.offset < 2 ^ 63 →
      -2 ^ 63 ≤ r.timestamp → r.timestamp < 2 ^ 63 →
      20 + (r.key.getD []).length + (r.value.getD []).length ≤ maxSize →
      ∃ bs, r.encode = .ok bs ∧ bs.length = r.size
        ∧ (∀ p s, decode (p ++ bs ++ s) p.length = .ok r)
        ∧ ∀ s, ∃ f, readOne ⟨bs ++ s, 0⟩ = (.ok (some r), f)
          ∧ f.content = bs ++ s ∧ f.rest = s)
    ∧ (∀ buf pos r, decode buf pos = .ok r →
        r.encode = .ok (slice buf pos (pos + r.size)))
    ∧ (∀ (r r' : Record) bs, r.encode = .ok bs → r'.encode = .ok bs → r = r')
    ∧ ∀ (r : Record) bs, r.encode = .ok bs → (readOne ⟨bs, 0⟩).1 = .ok (some r) := by
  have hrest : ∀ bs, Stream.rest ⟨bs, 0⟩ = bs := fun _ => List.drop_zero
  refine ⟨fun r ho ho' ht ht' hs => ?_, fun buf pos r h => ?_, fun r r' bs h h' => ?_,
    fun r bs h => ?_⟩
  · have henc : r.Encodable := ⟨(holds_q_iff _).mpr ⟨ho, ho'⟩, (holds_q_iff _).mpr ⟨ht, ht'⟩, hs⟩
    refine ⟨r.frame, encode_of_encodable henc, length_frame r, fun p s => ?_, fun s => ?_⟩
    · refine (decode_eq_ok_iff _ _ _).mpr ⟨henc, ?_⟩
      rw [List.append_assoc, List.drop_left]
      exact List.prefix_append _ _
    · refine ⟨_, readOne_of_frame henc ?_, rfl, ?_⟩
      · rw [hrest]
        exact List.prefix_append _ _
      · rw [Stream.rest, Nat.zero_add, ← length_frame r, List.drop_left]
  · obtain ⟨henc, -, hslice⟩ := frame_of_decode h
    rw [encode_of_encodable henc, hslice]
  · obtain ⟨henc, rfl⟩ := (encode_eq_ok_iff r bs).mp h
    obtain ⟨henc', he⟩ := (encode_eq_ok_iff r' _).mp h'
    exact framing.enc_injective henc henc' he.symm
  · obtain ⟨henc, rfl⟩ := (encode_eq_ok_iff r bs).mp h
    rw [readOne_fst, hrest]
    exact (read_eq_some_iff _ _).mpr ⟨henc, List.prefix_refl _⟩

/-- The bijection at a tombstone with an empty key. -/
theorem encode_decode_bijection_tombstone :
    ∃ bs, @encode Crc32.zlib ⟨7, 1234, some [], none⟩ = .ok bs ∧ bs.length = 32
      ∧ (∀ p s, @decode Crc32.zlib (p ++ bs ++ s) p.length = .ok ⟨7, 1234, some [], none⟩)
      ∧ ∀ s, ∃ f, @readOne Crc32.zlib ⟨bs ++ s, 0⟩ = (.ok (some ⟨7, 1234, some [], none⟩), f)
        ∧ f.content = bs ++ s ∧ f.rest = s :=
  (@encode_decode_bijection Crc32.zlib).1 ⟨7, 1234, some [], none⟩ (by decide) (by decide)
    (by decide) (by decide) (by decide)

end Record

end Pyka
