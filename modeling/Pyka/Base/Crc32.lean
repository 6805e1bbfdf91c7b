import Mathlib.Logic.Function.Basic
import Mathlib.Logic.Function.Iterate
import Pyka.Base.Struct

/-!
# CRC-32

`Crc32` is what a caller of a checksum function may rely on: a fixed function
to 32 bits that can be fed a byte string in pieces. `Crc32.zlib` is the
standard one, reflected, with polynomial `0xEDB88320` and both complements.

## A class, and one instance of it

Most of what is said about data that carries a checksum holds of *any*
checksum: what was written is read back because the same function is computed
twice. Such results take `[Crc32]` and no more. What only a good checksum
gives – that damage is noticed – is said of `Crc32.zlib`, by name. The
instance is not global: a development that evaluates a checksum chooses it
where it does.

## Bursts

The standard one detects every change within four bytes
(`Crc32.zlib_ne_of_burst`). The argument has two parts. Steps of the register
lose nothing (`bitStep_injective`), since the polynomial has its top bit set
and the bit that fell out can be read off the result; registers that differ
therefore stay different over the same bytes that follow. And steps are linear
(`bitStep_xor`), so up to four bytes are taken in at once, as one number of 32
bits (`Crc32.word`, `foldl_byteStep_eq`): two different strings of at most
four bytes are two different numbers, and leave the register in two different
states. Five bytes are more than 32 bits and can cancel, so the bound is not
an artefact of the proof.
-/

open Struct (Bytes)

/-- **A 32-bit checksum that can be continued**: `crc32 data value` goes on
from the checksum `value` of what came before, `0` being the checksum of
nothing. -/
class Crc32 where
  /-- The checksum of `data`, continuing from `value`. -/
  crc32 : Bytes → BitVec 32 → BitVec 32
  /-- Feeding two pieces is feeding their concatenation. -/
  crc32_append : ∀ a b, crc32 b (crc32 a 0) = crc32 (a ++ b) 0

namespace Crc32

/-- The reflected polynomial: its lowest coefficient is the top bit. -/
def polynomial : BitVec 32 := 0xEDB88320#32

/-- One bit of the register: shift right, and add the polynomial when a one
falls out. -/
def bitStep (s : BitVec 32) : BitVec 32 :=
  if s.getLsbD 0 then (s >>> 1) ^^^ polynomial else s >>> 1

/-- One byte into the register: added to its low end, then eight bit steps. -/
def byteStep (s : BitVec 32) (b : UInt8) : BitVec 32 :=
  bitStep^[8] (s ^^^ b.toBitVec.setWidth 32)

/-- **The standard CRC-32**: the register begins and ends complemented, so
that a checksum can be continued from the one before it. -/
def zlibCrc32 (data : Bytes) (value : BitVec 32) : BitVec 32 :=
  ~~~(data.foldl byteStep (~~~value))

/-- The standard CRC-32, as a checksum. -/
@[reducible] def zlib : Crc32 where
  crc32 := zlibCrc32
  crc32_append a b := by
    simp only [zlibCrc32, BitVec.not_not, List.foldl_append]

/-- The top bit of a stepped register is the bit that fell out, since the
polynomial has its top bit set. -/
theorem getLsbD_bitStep_top (s : BitVec 32) :
    (bitStep s).getLsbD 31 = s.getLsbD 0 := by
  have hpoly : polynomial.getLsbD 31 = true := by decide
  unfold bitStep
  split
  · next h =>
    have hs : (s >>> 1).getLsbD 31 = false := by simp
    rw [BitVec.getLsbD_xor, hpoly, hs, h]
    rfl
  · next h => simpa using h

/-- **One bit step loses nothing.** The top bit of the result says whether the
polynomial was added, and the rest is the register shifted. -/
theorem bitStep_injective : Function.Injective bitStep := by
  intro s t h
  have hlow : s.getLsbD 0 = t.getLsbD 0 := by
    rw [← getLsbD_bitStep_top s, ← getLsbD_bitStep_top t, h]
  have hshift : s >>> 1 = t >>> 1 := by
    unfold bitStep at h
    rw [hlow] at h
    split at h
    · exact (BitVec.xor_left_inj _).mp h
    · exact h
  apply BitVec.eq_of_getLsbD_eq
  intro i hi
  cases i with
  | zero => exact hlow
  | succ i =>
    have hbit := congrArg (fun x : BitVec 32 => x.getLsbD i) hshift
    simpa [BitVec.getLsbD_ushiftRight, Nat.add_comm] using hbit

/-- A byte step loses nothing either, the byte being the same. -/
theorem byteStep_injective_left (b : UInt8) :
    Function.Injective (fun s => byteStep s b) := fun _ _ h =>
  (BitVec.xor_left_inj _).mp ((bitStep_injective.iterate 8) h)

/-- Registers that differ stay different over the same bytes. -/
theorem foldl_byteStep_injective (bs : Bytes) :
    Function.Injective (fun s => bs.foldl byteStep s) := by
  induction bs with
  | nil => exact fun _ _ h => h
  | cons b bs ih => exact fun _ _ h => byteStep_injective_left b (ih h)

/-! ## Bursts

A burst is a change within so many bytes that follow one another, with the
bytes before and behind it as they were. What comes before a burst of four
bytes leaves one register, the burst two, and what comes behind keeps them
apart. -/

/-- Steps of the register are linear: the bit that falls out of a sum is the
sum of the bits that fall out. -/
theorem bitStep_xor (s t : BitVec 32) : bitStep (s ^^^ t) = bitStep s ^^^ bitStep t := by
  have hshift : (s ^^^ t) >>> 1 = (s >>> 1) ^^^ (t >>> 1) := BitVec.ushiftRight_xor_distrib ..
  have htwice : ∀ x y p : BitVec 32, x ^^^ y = (x ^^^ p) ^^^ (y ^^^ p) := fun x y p => by
    rw [BitVec.xor_comm y p, BitVec.xor_assoc, ← BitVec.xor_assoc p p y, BitVec.xor_self,
      BitVec.zero_xor]
  unfold bitStep
  rw [BitVec.getLsbD_xor, hshift]
  cases s.getLsbD 0 <;> cases t.getLsbD 0
  · rfl
  · exact BitVec.xor_assoc ..
  · show ((s >>> 1) ^^^ (t >>> 1)) ^^^ polynomial = ((s >>> 1) ^^^ polynomial) ^^^ (t >>> 1)
    rw [BitVec.xor_assoc, BitVec.xor_assoc, BitVec.xor_comm polynomial]
  · exact htwice _ _ polynomial

/-- So are several steps. -/
theorem iterate_bitStep_xor (k : ℕ) (s t : BitVec 32) :
    bitStep^[k] (s ^^^ t) = bitStep^[k] s ^^^ bitStep^[k] t := by
  induction k generalizing s t with
  | zero => rfl
  | succ k ih => rw [Function.iterate_succ_apply, bitStep_xor, ih]; rfl

/-- What is far enough up only moves down: no bit of it falls out within these
steps, and the polynomial is never added. -/
theorem iterate_bitStep_shiftLeft (k : ℕ) {t : BitVec 32} (h : t.toNat * 2 ^ k < 2 ^ 32) :
    bitStep^[k] (t <<< k) = t := by
  induction k with
  | zero => exact BitVec.shiftLeft_zero t
  | succ k ih =>
    have hpow : t.toNat * 2 ^ (k + 1) = 2 * (t.toNat * 2 ^ k) := by ring
    have hup : (t <<< (k + 1)).toNat = 2 * (t.toNat * 2 ^ k) := by
      rw [BitVec.toNat_shiftLeft, Nat.shiftLeft_eq, Nat.mod_eq_of_lt h, hpow]
    have hlow : (t <<< (k + 1)).getLsbD 0 = false := by
      simp
    have hdown : (t <<< (k + 1)) >>> 1 = t <<< k := by
      apply BitVec.eq_of_toNat_eq
      rw [BitVec.toNat_ushiftRight, hup, BitVec.toNat_shiftLeft, Nat.shiftLeft_eq,
        Nat.mod_eq_of_lt (by omega), Nat.shiftRight_eq_div_pow]
      omega
    rw [Function.iterate_succ_apply, bitStep, hlow, hdown]
    exact ih (by omega)

/-- Bytes as one number, the first the lowest. -/
def word : Bytes → BitVec 32
  | [] => 0
  | b :: bs => b.toBitVec.setWidth 32 ^^^ (word bs <<< 8)

theorem toNat_setWidth_lt (b : UInt8) : (b.toBitVec.setWidth 32).toNat < 2 ^ 8 := by
  rw [BitVec.toNat_setWidth]
  exact (Nat.mod_le _ _).trans_lt b.toBitVec.isLt

theorem toNat_word_lt (bs : Bytes) : (word bs).toNat < 2 ^ (8 * bs.length) := by
  induction bs with
  | nil => exact Nat.one_pos
  | cons b bs ih =>
    have hpow : 2 ^ (8 * (bs.length + 1)) = 2 ^ (8 * bs.length) * 2 ^ 8 := by ring
    rw [word, BitVec.toNat_xor, List.length_cons]
    refine Nat.xor_lt_two_pow ((toNat_setWidth_lt b).trans_le ?_) ?_
    · exact Nat.pow_le_pow_right (by omega) (by omega)
    · rw [BitVec.toNat_shiftLeft, Nat.shiftLeft_eq, hpow]
      exact (Nat.mod_le _ _).trans_lt (Nat.mul_lt_mul_of_pos_right ih (by omega))

/-- Three bytes leave room for one below them. -/
theorem toNat_word_mul_lt {bs : Bytes} (h : bs.length ≤ 3) : (word bs).toNat * 2 ^ 8 < 2 ^ 32 := by
  have hlt := toNat_word_lt bs
  have hle : 2 ^ (8 * bs.length) ≤ 2 ^ 24 := Nat.pow_le_pow_right (by omega) (by omega)
  omega

/-- **Four bytes at most are taken in at once**: adding a byte and stepping
eight times, byte after byte, is adding all of them first and then taking all
the steps. -/
theorem foldl_byteStep_eq (s : BitVec 32) {bs : Bytes} (h : bs.length ≤ 4) :
    bs.foldl byteStep s = bitStep^[8 * bs.length] (s ^^^ word bs) := by
  induction bs generalizing s with
  | nil => exact (BitVec.xor_zero).symm
  | cons b bs ih =>
    rw [List.length_cons] at h
    have hmul : 8 * (b :: bs).length = 8 * bs.length + 8 := rfl
    rw [List.foldl_cons, ih _ (by omega), hmul, Function.iterate_add_apply, word,
      ← BitVec.xor_assoc, iterate_bitStep_xor 8,
      iterate_bitStep_shiftLeft 8 (toNat_word_mul_lt (by omega))]
    rfl

/-- Byte strings of one length, four at most, that are one number are one
string. -/
theorem word_injective {bs bs' : Bytes} (hlen : bs.length = bs'.length) (h : bs.length ≤ 4)
    (he : word bs = word bs') : bs = bs' := by
  induction bs generalizing bs' with
  | nil => exact (List.eq_nil_of_length_eq_zero hlen.symm).symm
  | cons b bs ih =>
    cases bs' with
    | nil => cases hlen
    | cons b' bs' =>
      rw [List.length_cons] at h
      have hlen : bs.length = bs'.length := Nat.succ.inj hlen
      have hbyte : b = b' := by
        apply UInt8.toBitVec_inj.mp
        apply BitVec.eq_of_getLsbD_eq
        intro i hi
        have hbit := congrArg (fun x : BitVec 32 => x.getLsbD i) he
        have hi32 : i < 32 := by omega
        simpa [word, BitVec.getLsbD_xor, BitVec.getLsbD_shiftLeft, hi, hi32] using hbit
      have hrest : word bs <<< 8 = word bs' <<< 8 := by
        rw [word, word, hbyte] at he
        exact (BitVec.xor_right_inj _).mp he
      have hroom : (word bs).toNat * 2 ^ 8 < 2 ^ 32 := toNat_word_mul_lt (by omega)
      have hroom' : (word bs').toNat * 2 ^ 8 < 2 ^ 32 := toNat_word_mul_lt (by omega)
      have heq : word bs = word bs' := by
        rw [← iterate_bitStep_shiftLeft 8 hroom, hrest, iterate_bitStep_shiftLeft 8 hroom']
      rw [hbyte, ih hlen (by omega) heq]

/-- **A burst of four bytes at most changes the checksum.** Registers that
differ stay different behind it. -/
theorem zlib_ne_of_burst (pre post : Bytes) {bs bs' : Bytes} (hlen : bs.length = bs'.length)
    (h : bs.length ≤ 4) (hne : bs ≠ bs') (value : BitVec 32) :
    zlibCrc32 (pre ++ bs ++ post) value ≠ zlibCrc32 (pre ++ bs' ++ post) value := by
  intro hsame
  have hfold := BitVec.not_inj.mp hsame
  simp only [List.foldl_append] at hfold
  have hburst := foldl_byteStep_injective post hfold
  rw [foldl_byteStep_eq (pre.foldl byteStep (~~~value)) h,
    foldl_byteStep_eq (pre.foldl byteStep (~~~value)) (hlen ▸ h), hlen] at hburst
  have hword := (BitVec.xor_right_inj _).mp ((bitStep_injective.iterate _) hburst)
  exact hne (word_injective hlen h hword)

/-- **A change of one byte changes the checksum.** -/
theorem zlib_ne_of_set (pre post : Bytes) {b b' : UInt8} (hb : b ≠ b')
    (value : BitVec 32) :
    zlibCrc32 (pre ++ b :: post) value ≠ zlibCrc32 (pre ++ b' :: post) value := by
  have hlen : [b].length = [b'].length := rfl
  rw [List.append_cons, List.append_cons pre b' post]
  exact zlib_ne_of_burst pre post hlen (by decide : 1 ≤ 4) (fun h =>
    hb (List.singleton_inj.mp h)) value

example : zlibCrc32 [0x31, 0x32, 0x33, 0x34, 0x35, 0x36, 0x37, 0x38, 0x39] 0
    = 0xCBF43926#32 := by decide +kernel

end Crc32
