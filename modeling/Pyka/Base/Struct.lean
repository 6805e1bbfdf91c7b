import Mathlib.Data.List.Basic
import Mathlib.Data.Int.Basic
import Mathlib.Tactic.Ring
import Mathlib.Tactic.Positivity

/-!
# Fixed-width integer layouts

The big-endian layouts of a `struct` format string such as `>qIi`: a list of
fields, each an integer of a fixed width, signed (two's complement) or not,
packed most significant byte first with no padding.

`pack` refuses an integer outside its field, and a list of the wrong length;
`unpack` refuses a buffer of the wrong length. On what they accept they are
inverse to each other, in both directions (`unpack_pack` and `pack_unpack`): a
layout has no slack, so every buffer of the right length is the packing of
what it unpacks to.

## Three layers

Naturals and their big-endian bytes come first, without a width being exceeded
or not: `w` bytes spell a natural modulo `256 ^ w`. A field reads the spelling
as signed or unsigned, and holds the integers it can tell apart
(`Field.Holds`); a field's bytes and its value are inverse on these
(`Field.value_bytes`, `Field.bytes_value`). A layout is a list of fields, and
its results are those of its fields by induction on the list.

## Errors

What Python raises as `struct.error` is `none` here. There is one reason for
it in each direction: an integer that its field does not hold, and a buffer of
the wrong size. Which of the two messages Python has for it is for the caller
to say, where a caller shows it.
-/

namespace Struct

/-- A byte string. -/
abbrev Bytes := List UInt8

/-! ## Big-endian naturals

The bytes of a natural and the natural of bytes. Lists are written from the
most significant byte on, so the recursion takes the largest power first. -/

/-- The `w` low bytes of `n`, most significant first. -/
def bigEndian : ℕ → ℕ → Bytes
  | 0, _ => []
  | w + 1, n => UInt8.ofNat (n / 256 ^ w) :: bigEndian w n

/-- The natural a byte string spells, most significant byte first. -/
def ofBigEndian : Bytes → ℕ
  | [] => 0
  | b :: bs => b.toNat * 256 ^ bs.length + ofBigEndian bs

/-- So many bytes are written as were asked for. -/
@[simp] theorem length_bigEndian (w n : ℕ) : (bigEndian w n).length = w := by
  induction w with
  | zero => rfl
  | succ w ih => rw [bigEndian, List.length_cons, ih]

/-- What bytes spell fits into them. -/
theorem ofBigEndian_lt (bs : Bytes) : ofBigEndian bs < 256 ^ bs.length := by
  induction bs with
  | nil => exact Nat.one_pos
  | cons b bs ih =>
    have hb : b.toNat + 1 ≤ 256 := b.toNat_lt
    calc b.toNat * 256 ^ bs.length + ofBigEndian bs
        < b.toNat * 256 ^ bs.length + 256 ^ bs.length := by omega
      _ = (b.toNat + 1) * 256 ^ bs.length := by ring
      _ ≤ 256 * 256 ^ bs.length := Nat.mul_le_mul_right _ hb
      _ = 256 ^ (bs.length + 1) := by ring

/-- Reading back `w` bytes gives the natural modulo what `w` bytes hold. -/
theorem ofBigEndian_bigEndian (w n : ℕ) :
    ofBigEndian (bigEndian w n) = n % 256 ^ w := by
  induction w with
  | zero => simp [bigEndian, ofBigEndian, Nat.mod_one]
  | succ w ih =>
    have hb : (UInt8.ofNat (n / 256 ^ w)).toNat = n / 256 ^ w % 256 := by
      simp
    rw [bigEndian, ofBigEndian, ih, hb, length_bigEndian, pow_succ,
      Nat.mod_mul]
    ring

/-- Only the natural modulo what `w` bytes hold is written. -/
theorem bigEndian_mod (w k n : ℕ) (h : w ≤ k) :
    bigEndian w (n % 256 ^ k) = bigEndian w n := by
  induction w with
  | zero => rfl
  | succ w ih =>
    have hdigit : UInt8.ofNat (n % 256 ^ k / 256 ^ w)
        = UInt8.ofNat (n / 256 ^ w) := by
      apply UInt8.toNat_inj.mp
      obtain ⟨d, rfl⟩ : ∃ d, k = w + 1 + d := ⟨k - (w + 1), by omega⟩
      have hk : 256 ^ (w + 1 + d) = 256 ^ w * (256 * 256 ^ d) := by ring
      rw [hk, Nat.mod_mul_right_div_self]
      simp only [UInt8.toNat_ofNat']
      exact Nat.mod_mul_right_mod _ 256 _
    rw [bigEndian, bigEndian, hdigit, ih (by omega)]

/-- Every byte string is the spelling of the natural it spells. -/
theorem bigEndian_ofBigEndian (bs : Bytes) :
    bigEndian bs.length (ofBigEndian bs) = bs := by
  induction bs with
  | nil => rfl
  | cons b bs ih =>
    have hlt := ofBigEndian_lt bs
    have hdiv : (b.toNat * 256 ^ bs.length + ofBigEndian bs) / 256 ^ bs.length
        = b.toNat := by
      rw [Nat.mul_comm, Nat.mul_add_div (by positivity),
        Nat.div_eq_of_lt hlt, Nat.add_zero]
    have hmod : bigEndian bs.length (b.toNat * 256 ^ bs.length + ofBigEndian bs)
        = bigEndian bs.length (ofBigEndian bs) := by
      rw [← bigEndian_mod bs.length bs.length _ le_rfl, Nat.mul_comm,
        Nat.mul_add_mod, Nat.mod_eq_of_lt hlt]
    rw [List.length_cons, ofBigEndian, bigEndian, hdiv, hmod, ih,
      UInt8.ofNat_toNat]

/-! ## Fields

The three formats that the program's layouts use. Each takes a fixed number of
bytes, and each of these bytes counts: two integers that a field holds have
different bytes, and any bytes of its width are some integer's. -/

/-- The integer formats: `q` and `i` are signed on eight and four bytes,
`I` is unsigned on four. -/
inductive Field
  | q
  | I
  | i
  deriving DecidableEq, Repr

namespace Field

/-- The bytes a field takes. -/
def width : Field → ℕ
  | q => 8
  | I => 4
  | i => 4

/-- Whether the field is read in two's complement. -/
def signed : Field → Bool
  | q => true
  | I => false
  | i => true

/-- How many integers a field tells apart. -/
def span (f : Field) : ℕ := 256 ^ f.width

/-- The integers a field holds: half of its span below zero if it is signed. -/
def Holds (f : Field) (z : ℤ) : Prop :=
  if f.signed then -(f.span / 2 : ℤ) ≤ z ∧ z < f.span / 2
  else 0 ≤ z ∧ z < f.span

instance (f : Field) (z : ℤ) : Decidable (f.Holds z) :=
  inferInstanceAs (Decidable (if f.signed then -(f.span / 2 : ℤ) ≤ z ∧ z < f.span / 2
    else 0 ≤ z ∧ z < f.span))

/-- The bytes of an integer: its residue, so a negative one is written in
two's complement. -/
def bytes (f : Field) (z : ℤ) : Bytes :=
  bigEndian f.width (z % f.span).toNat

/-- The integer a field's bytes spell, the balanced residue of the natural
they spell if the field is signed. -/
def value (f : Field) (bs : Bytes) : ℤ :=
  if f.signed then Int.bmod (ofBigEndian bs) f.span else ofBigEndian bs

theorem span_pos (f : Field) : 0 < f.span := by
  unfold span
  positivity

theorem even_span (f : Field) : f.span % 2 = 0 := by
  cases f <;> rfl

/-- An integer takes its field's width, whether the field holds it or not. -/
@[simp] theorem length_bytes (f : Field) (z : ℤ) :
    (f.bytes z).length = f.width := length_bigEndian _ _

/-- The bytes spell the integer's residue. -/
theorem ofBigEndian_bytes (f : Field) (z : ℤ) :
    ((ofBigEndian (f.bytes z) : ℕ) : ℤ) = z % f.span := by
  have hpos : (0 : ℤ) < f.span := by exact_mod_cast f.span_pos
  have hnonneg : 0 ≤ z % f.span := Int.emod_nonneg _ hpos.ne'
  have hlt : (z % f.span).toNat < f.span := by
    have := Int.emod_lt_of_pos z hpos
    omega
  rw [bytes, ofBigEndian_bigEndian]
  change (((z % f.span).toNat % f.span : ℕ) : ℤ) = z % f.span
  rw [Nat.mod_eq_of_lt hlt, Int.toNat_of_nonneg hnonneg]

/-- **A field reads back what it was given.** -/
theorem value_bytes {f : Field} {z : ℤ} (h : f.Holds z) :
    f.value (f.bytes z) = z := by
  have heven := f.even_span
  unfold value
  rw [ofBigEndian_bytes]
  unfold Holds at h
  split at h
  · next hs =>
    rw [if_pos hs, Int.emod_bmod]
    exact Int.bmod_eq_of_le (by omega) (by omega)
  · next hs =>
    rw [if_neg hs]
    exact Int.emod_eq_of_lt h.1 h.2

/-- Numbers a field can hold have different bytes. -/
theorem bytes_inj {f : Field} {z z' : ℤ} (h : f.Holds z) (h' : f.Holds z')
    (he : f.bytes z = f.bytes z') : z = z' := by
  rw [← value_bytes h, he, value_bytes h']

/-- What a field reads, it holds. -/
theorem holds_value {f : Field} {bs : Bytes} (h : bs.length = f.width) :
    f.Holds (f.value bs) := by
  have hlt : ofBigEndian bs < f.span := by
    have := ofBigEndian_lt bs
    rwa [h] at this
  have heven := f.even_span
  unfold Holds value
  split
  · have h₁ := Int.le_bmod (x := ofBigEndian bs) f.span_pos
    have h₂ := Int.bmod_lt (x := ofBigEndian bs) f.span_pos
    exact ⟨by omega, by omega⟩
  · exact ⟨Int.natCast_nonneg _, by exact_mod_cast hlt⟩

/-- **A field writes back what it read.** -/
theorem bytes_value {f : Field} {bs : Bytes} (h : bs.length = f.width) :
    f.bytes (f.value bs) = bs := by
  have hlt : (ofBigEndian bs : ℤ) < f.span := by
    have := ofBigEndian_lt bs
    rw [h] at this
    exact_mod_cast this
  have hmod := Int.emod_eq_of_lt (Int.natCast_nonneg (ofBigEndian bs)) hlt
  have hres : f.value bs % f.span = (ofBigEndian bs : ℤ) := by
    unfold value
    split
    · rw [Int.bmod_emod, hmod]
    · exact hmod
  rw [bytes, hres, Int.toNat_natCast, ← h, bigEndian_ofBigEndian]

end Field

/-! ## Layouts

Fields one after the other with nothing between them. Packing is defined by
recursion on both lists, so that a list of the wrong length is refused where
it shows; unpacking looks at the length of the buffer first. -/

/-- The bytes a layout takes. -/
def calcsize (fmt : List Field) : ℕ := (fmt.map Field.width).sum

/-- Pack one integer per field; `none` is `struct.error`. -/
def pack : List Field → List ℤ → Option Bytes
  | [], [] => some []
  | f :: fmt, z :: zs =>
    if f.Holds z then (pack fmt zs).map (f.bytes z ++ ·) else none
  | _, _ => none

/-- Read the fields one after the other, whatever the length. -/
def fields : List Field → Bytes → List ℤ
  | [], _ => []
  | f :: fmt, bs => f.value (bs.take f.width) :: fields fmt (bs.drop f.width)

/-- Unpack a buffer of exactly the layout's size; `none` is
`struct.error`. -/
def unpack (fmt : List Field) (bs : Bytes) : Option (List ℤ) :=
  if bs.length = calcsize fmt then some (fields fmt bs) else none

/-- Unpack from a position on; `none` is `struct.error`, a buffer that
ends too early. -/
def unpackFrom (fmt : List Field) (bs : Bytes) (pos : ℕ) : Option (List ℤ) :=
  if pos + calcsize fmt ≤ bs.length then
    some (fields fmt ((bs.drop pos).take (calcsize fmt)))
  else none

@[simp] theorem pack_nil_eq_some {bs : Bytes} : pack [] [] = some bs ↔ [] = bs := by
  rw [pack, Option.some.injEq]

/-- A packing is the first field's bytes and the packing of the rest. -/
@[simp] theorem pack_cons_eq_some {f : Field} {fmt : List Field} {z : ℤ} {zs : List ℤ}
    {bs : Bytes} : pack (f :: fmt) (z :: zs) = some bs
      ↔ f.Holds z ∧ ∃ bs', pack fmt zs = some bs' ∧ f.bytes z ++ bs' = bs := by
  rw [pack]
  split
  · next h => rw [Option.map_eq_some_iff, and_iff_right h]
  · next h => simp [h]

/-- A field in front takes its width more. -/
theorem calcsize_cons (f : Field) (fmt : List Field) :
    calcsize (f :: fmt) = f.width + calcsize fmt := by
  simp [calcsize]

/-- What is packed has the layout's size. -/
theorem length_of_pack {fmt : List Field} {zs : List ℤ} {bs : Bytes}
    (h : pack fmt zs = some bs) : bs.length = calcsize fmt := by
  induction fmt, zs using pack.induct generalizing bs with
  | case1 => cases h; rfl
  | case2 f fmt z zs hz ih =>
    rw [pack, if_pos hz] at h
    obtain ⟨bs', hbs', rfl⟩ := Option.map_eq_some_iff.mp h
    rw [List.length_append, Field.length_bytes, calcsize_cons, ih hbs']
  | case3 f fmt z zs hz => rw [pack, if_neg hz] at h; cases h
  | case4 => simp [pack] at h

/-- Reading a packed layout gives the integers back, whatever follows
it. -/
theorem fields_of_pack {fmt : List Field} {zs : List ℤ} {bs : Bytes}
    (h : pack fmt zs = some bs) (rest : Bytes) :
    fields fmt (bs ++ rest) = zs := by
  induction fmt, zs using pack.induct generalizing bs with
  | case1 => rfl
  | case2 f fmt z zs hz ih =>
    rw [pack, if_pos hz] at h
    obtain ⟨bs', hbs', rfl⟩ := Option.map_eq_some_iff.mp h
    rw [fields, List.append_assoc,
      List.take_left' (Field.length_bytes f z),
      List.drop_left' (Field.length_bytes f z), Field.value_bytes hz, ih hbs']
  | case3 f fmt z zs hz => rw [pack, if_neg hz] at h; cases h
  | case4 => simp [pack] at h

/-- **A layout reads back what was packed.** -/
theorem unpack_pack {fmt : List Field} {zs : List ℤ} {bs : Bytes}
    (h : pack fmt zs = some bs) : unpack fmt bs = some zs := by
  rw [unpack, if_pos (length_of_pack h)]
  simpa using fields_of_pack h []

/-- **Every buffer of the right size is a packing**, of what it unpacks
to. -/
theorem pack_fields {fmt : List Field} {bs : Bytes}
    (h : bs.length = calcsize fmt) : pack fmt (fields fmt bs) = some bs := by
  induction fmt generalizing bs with
  | nil =>
    have : bs = [] := List.length_eq_zero_iff.mp h
    rw [this]; rfl
  | cons f fmt ih =>
    rw [calcsize_cons] at h
    have htake : (bs.take f.width).length = f.width := by
      rw [List.length_take]; omega
    have hdrop : (bs.drop f.width).length = calcsize fmt := by
      rw [List.length_drop]; omega
    rw [fields, pack, if_pos (Field.holds_value htake), ih hdrop,
      Option.map_some, Field.bytes_value htake, List.take_append_drop]

/-- What unpacks is the packing of what it unpacks to. -/
theorem pack_unpack {fmt : List Field} {zs : List ℤ} {bs : Bytes}
    (h : unpack fmt bs = some zs) : pack fmt zs = some bs := by
  rw [unpack] at h
  split at h
  · next hlen => cases h; exact pack_fields hlen
  · cases h

/-- **Packing and unpacking are one relation** read in two directions. -/
theorem unpack_eq_some_iff {fmt : List Field} {zs : List ℤ} {bs : Bytes} :
    unpack fmt bs = some zs ↔ pack fmt zs = some bs :=
  ⟨pack_unpack, unpack_pack⟩

/-- An empty layout packs nothing, to nothing. -/
theorem pack_nil_left {zs : List ℤ} {bs : Bytes} :
    pack [] zs = some bs ↔ zs = [] ∧ bs = [] := by
  cases zs with
  | nil => rw [pack_nil_eq_some]; exact ⟨fun h => ⟨rfl, h.symm⟩, fun h => h.2.symm⟩
  | cons z zs => simp [pack]

/-- What packs along a layout has the layout's shape. -/
theorem pack_cons_left {f : Field} {fmt : List Field} {zs : List ℤ} {bs : Bytes} :
    pack (f :: fmt) zs = some bs ↔ ∃ z zs', zs = z :: zs' ∧ f.Holds z
      ∧ ∃ bs', pack fmt zs' = some bs' ∧ f.bytes z ++ bs' = bs := by
  cases zs with
  | nil => simp [pack]
  | cons z zs =>
    rw [pack_cons_eq_some]
    constructor
    · intro h
      exact ⟨z, zs, rfl, h⟩
    · rintro ⟨_, _, hz, h⟩
      cases hz
      exact h

end Struct
