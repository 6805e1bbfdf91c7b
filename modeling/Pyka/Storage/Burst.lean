import Pyka.Storage.BitFlip

/-!
# Short bursts of damage

Up to four consecutive bytes of a record's encoding are replaced by others,
all in the checksum field or all behind it. `decode` cuts the bytes by the
lengths it finds in them, and the damage may have changed those; but it goes
on only if they add up to the size field, which has not changed, so it
computes the checksum of the same stretch of bytes as before. Then either that
stretch is as it was and the stored checksum is not, or the other way round,
and the standard CRC-32 tells bursts of four bytes apart.

The point of the argument is that the damaged lengths do not matter. If
`decode` returned a record, its frame would be all of the damaged bytes
(`Record.frame_eq_of_decode`), because the record found there encodes to what
it was decoded from and takes as many bytes as the size field claims. Two
frames of one size whose bytes from the timestamp on differ in a burst would
then have one checksum, or two frames with the same bytes there two checksums;
the first is what `Crc32.zlib_ne_of_burst` excludes, and the second what it is
to be a function.

A burst across the border between the checksum and what follows it is left
out, since there both sides of the comparison change and can agree. The offset
field is guarded by the layers above, and the size field by the file.
-/

namespace Pyka

open Struct (Bytes)

namespace Record

section Codec

variable [Crc32]

/-- **A record read off the bytes of another one**, of which the offset and
the size field are left, is all of those bytes. -/
theorem frame_eq_of_decode {r r' : Record} {bs : Bytes} (henc : r.Encodable)
    (hlen : bs.length = r.size) (hclaim : claimed bs = claimed r.frame)
    (h : decode bs 0 = .ok r') : r'.frame = bs := by
  obtain ⟨henc', hpre⟩ := (decode_eq_ok_iff bs 0 r').mp h
  rw [List.drop_zero] at hpre
  have hclaim' := claimed_of_frame_front henc' hpre
  rw [hclaim, claimed_of_frame_front henc (List.prefix_refl _)] at hclaim'
  have hsize := size_eq r
  have hsize' := size_eq r'
  exact hpre.eq_of_length (by rw [length_frame, hlen]; omega)

/-- What `decode` raises on them is `CorruptRecord`. -/
theorem decode_of_claimed {r : Record} {bs : Bytes} (henc : r.Encodable)
    (hlen : bs.length = r.size) (hclaim : claimed bs = claimed r.frame) :
    (∃ r', decode bs 0 = .ok r') ∨ ∃ msg, decode bs 0 = .error (.corruptRecord msg) := by
  have hsize := size_eq r
  rw [claimed_of_frame_front henc (List.prefix_refl _)] at hclaim
  cases h : decode bs 0 with
  | ok r' => exact Or.inl ⟨r', rfl⟩
  | error e =>
    have hcorrupt := isCorruptRecord_of_decode (by omega) (by omega) h
    cases e with
    | corruptRecord msg => exact Or.inr ⟨msg, rfl⟩
    | _ => cases hcorrupt

end Codec

section Standard

/-- The standard checksum, which this part is about. -/
local instance : Crc32 := Crc32.zlib

/-- **Short bursts are detected.** Where at most four consecutive bytes of
what `encode` writes are replaced by others, all of them in the checksum
field or all of them behind it, `decode` raises `CorruptRecord`. -/
theorem decode_burst {r : Record} {front old new back : Bytes}
    (henc : r.encode = .ok (front ++ old ++ back)) (hlen : new.length = old.length)
    (hburst : old.length ≤ 4) (hne : new ≠ old)
    (hwhere : 12 ≤ front.length ∧ front.length + old.length ≤ 16 ∨ 16 ≤ front.length) :
    ∃ msg, decode (front ++ new ++ back) 0 = .error (.corruptRecord msg) := by
  obtain ⟨henc, hframe⟩ := (encode_eq_ok_iff _ _).mp henc
  have hsize : front.length + old.length + back.length = r.size := by
    rw [← length_frame r, hframe, List.length_append, List.length_append]
  have hwhole : (front ++ new ++ back).length = r.size := by
    rw [List.length_append, List.length_append]
    omega
  -- a slice without the burst, before and after
  have hsame : ∀ a b, b ≤ front.length ∨ front.length + old.length ≤ a →
      slice (front ++ new ++ back) a b = slice r.frame a b := fun a b hout => by
    rw [hframe]
    refine slice_congr fun i ha hb => ?_
    rw [List.append_assoc, List.append_assoc]
    by_cases hi : i < front.length
    · rw [List.getElem?_append_left hi, List.getElem?_append_left hi]
    · rw [List.getElem?_append_right (by omega), List.getElem?_append_right (by omega),
        List.getElem?_append_right (by omega), List.getElem?_append_right (by omega), hlen]
  have hclaim : claimed (front ++ new ++ back) = claimed r.frame := by
    unfold claimed
    rw [hsame 8 12 (Or.inl (by omega))]
  refine (decode_of_claimed henc hwhole hclaim).resolve_left fun ⟨r', hread⟩ => ?_
  have hframe' := frame_eq_of_decode henc hwhole hclaim hread
  have hsize' : r.size = r'.size := by rw [← length_frame r', hframe', hwhole]
  rcases hwhere with ⟨hlo, hhi⟩ | hlo
  · -- the stretch is as it was, so its checksum is
    have hbody : slice r'.frame 16 r.size = slice r.frame 16 r.size := by
      rw [hframe', hsame 16 r.size (Or.inr hhi)]
    have hcrc : slice r'.frame 12 16 = slice r.frame 12 16 := by
      rw [slice_frame_crc, slice_frame_crc r, ← hbody, hsize']
    have hhead : slice r'.frame 0 12 = slice r.frame 0 12 := by
      rw [hframe', hsame 0 12 (Or.inl hlo)]
    have hcut : ∀ q : Record, r.size = q.size →
        q.frame = slice q.frame 0 12 ++ (slice q.frame 12 16 ++ slice q.frame 16 r.size) := by
      intro q hq
      have hfits := size_eq q
      rw [slice_append_slice _ (by omega) (by omega), slice_append_slice _ (by omega) (by omega)]
      exact (List.take_of_length_le (by rw [length_frame]; omega)).symm
    have heq : front ++ new ++ back = front ++ old ++ back := by
      rw [← hframe', ← hframe, hcut r' hsize', hcut r rfl, hhead, hcrc, hbody]
    exact hne (List.append_cancel_left (List.append_cancel_right heq))
  · -- the checksum is as it was, and the stretch is not
    have hsum := crc_inj hsize'.symm (by rw [hframe', hsame 12 16 (Or.inl hlo)])
    have hcut : ∀ m : Bytes, front.length + m.length + back.length = r.size →
        slice (front ++ m ++ back) 16 r.size = front.drop 16 ++ m ++ back := by
      intro m hm
      unfold slice
      rw [List.append_assoc, List.drop_append_of_le_length hlo, ← List.append_assoc,
        List.take_of_length_le]
      rw [List.length_append, List.length_append, List.length_drop]
      omega
    rw [← hsize', hframe', hframe, hcut new (by omega), hcut old hsize] at hsum
    exact Crc32.zlib_ne_of_burst _ _ hlen (hlen ▸ hburst) hne 0 hsum

/-- A `vlen` from 0 to -1: the lengths add up as before, and the value would
be absent. -/
theorem decode_burst_absent :
    let r : Record := ⟨0, 1234, some [107], some []⟩
    ∃ msg, decode (r.frame.take 28 ++ [255, 255, 255, 255] ++ r.frame.drop 32) 0
      = .error (.corruptRecord msg) := by
  intro r
  have henc : r.encode = .ok (r.frame.take 28 ++ [0, 0, 0, 0] ++ r.frame.drop 32) := by
    decide +kernel
  exact decode_burst henc rfl (by decide) (by decide) (Or.inr (by decide +kernel))

end Standard

end Record

end Pyka
