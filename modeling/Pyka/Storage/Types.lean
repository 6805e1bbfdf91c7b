import Pyka.Base.Struct

/-!
# Numbers, exceptions and packing

An offset, a logical record number, is an integer and not a natural: eight
signed bytes of a file can spell a negative one, and a reader has to be able
to see that. A position, a byte count within a `.log` file, is a natural.

`PyError` is the exceptions the storage and topic layers raise, with their
texts. Several of them are subclasses of `ValueError`
(`PyError.isValueError`), which the callers above rely on: a handler that
catches `ValueError` turns a damaged log and an offset out of range into
answers of their own, and lets `struct.error` and `RuntimeError` through. The
texts are kept because they are part of what a client is told.

## Slices and fallible calls

A Python slice clamps its ends, and never raises; `slice` does the same, with
the arithmetic of slices of slices beside it, since frames are cut out of
buffers and buffers out of files. Code that can raise is in `Except PyError`
and written with `do`, in the order in which the source evaluates, so that
which of two errors comes out is a fact of the definition. The lemmas of the
section on calls take such code apart: a sequence returns when all of it does,
and raises what its first failing call raises.

`struct` calls are those of `Pyka.Base.Struct` with the exception named.
-/

namespace Pyka

open Struct (Bytes)

/-- The exceptions that can come out of a call, with their messages where the
source composes one. -/
inductive PyError
  /-- `struct.error`, a direct subclass of `Exception`. -/
  | structError
  | valueError (msg : String)
  | corruptRecord (msg : String)
  | corruptLog (msg : String)
  | offsetOutOfRange (msg : String)
  | runtimeError (msg : String)
  | fileNotFound
  /-- `OSError`, from a write that the system did not finish. -/
  | osError
  | unknownTopic (name : String)
  | partitionNotLocal (msg : String)
  /-- `json.JSONDecodeError`, for a text that is not JSON. -/
  | jsonDecodeError
  /-- `ExceptionGroup`, for errors collected along the way. -/
  | exceptionGroup (msg : String)
  deriving DecidableEq, Repr

namespace PyError

/-- The exceptions an `except ValueError` catches: the class itself, and those
that the source and the standard library derive from it. -/
def isValueError : PyError → Bool
  | valueError _ => true
  | corruptRecord _ => true
  | corruptLog _ => true
  | offsetOutOfRange _ => true
  | jsonDecodeError => true
  | _ => false

/-- The exceptions an `except CorruptRecord` catches, which no other class
derives from. -/
def isCorruptRecord : PyError → Bool
  | corruptRecord _ => true
  | _ => false

end PyError

/-- `bs[start:stop]`, both ends clamped to the length. -/
def slice (bs : Bytes) (start stop : ℕ) : Bytes :=
  (bs.drop start).take (stop - start)

/-- Slices that meet are one slice. -/
theorem slice_append_slice (bs : Bytes) {a b c : ℕ} (hab : a ≤ b) (hbc : b ≤ c) :
    slice bs a b ++ slice bs b c = slice bs a c := by
  unfold slice
  rw [show bs.drop b = (bs.drop a).drop (b - a) by rw [List.drop_drop]; congr 1; omega,
    ← List.take_add]
  congr 1
  omega

/-- A slice of what is behind a place is counted from that place. -/
theorem slice_drop (bs : Bytes) (n a b : ℕ) :
    slice (bs.drop n) a b = slice bs (n + a) (n + b) := by
  unfold slice
  rw [List.drop_drop, Nat.add_sub_add_left]

/-- A slice of a slice, counted from where the outer one starts. -/
theorem slice_slice (bs : Bytes) {n a b m : ℕ} (h : b ≤ m) :
    slice (slice bs n (n + m)) a b = slice bs (n + a) (n + b) := by
  unfold slice
  rw [Nat.add_sub_cancel_left, Nat.add_sub_add_left, List.drop_take, List.drop_drop,
    List.take_take, Nat.min_eq_left (by omega)]

/-- The front of two strings, as long as the first, is the first. -/
theorem slice_append_left {A : Bytes} (B : Bytes) {n : ℕ} (h : A.length = n) :
    slice (A ++ B) 0 n = A := by
  unfold slice
  rw [List.drop_zero, Nat.sub_zero, List.take_left' h]

/-- What is sliced behind the first of two strings is sliced of the second. -/
theorem slice_append_right {A : Bytes} (B : Bytes) {n a b : ℕ} (h : A.length = n) :
    slice (A ++ B) (n + a) (n + b) = slice B a b := by
  rw [← slice_drop, List.drop_left' h]

/-- The rest behind the first of two strings is the second. -/
theorem slice_append_to_end {A B : Bytes} {n m : ℕ} (h : A.length = n)
    (hm : m = n + B.length) : slice (A ++ B) n m = B := by
  rw [hm, ← Nat.add_zero n, Nat.add_assoc, slice_append_right B h, Nat.zero_add]
  unfold slice
  rw [List.drop_zero, Nat.sub_zero, List.take_length]

/-- A slice that ends within the string is as long as its bounds say. -/
theorem length_slice {bs : Bytes} {a b : ℕ} (h : b ≤ bs.length) :
    (slice bs a b).length = b - a := by
  unfold slice
  rw [List.length_take, List.length_drop]
  omega

/-- The bytes of a slice are those of the string, where they stand. -/
theorem getElem?_slice (bs : Bytes) {a b i : ℕ} (ha : a ≤ i) (hb : i < b) :
    (slice bs a b)[i - a]? = bs[i]? := by
  unfold slice
  rw [List.getElem?_take_of_lt (by omega), List.getElem?_drop]
  congr 1
  omega

/-- A slice depends on the bytes within it only. -/
theorem slice_congr {bs bs' : Bytes} {a b : ℕ}
    (h : ∀ i, a ≤ i → i < b → bs[i]? = bs'[i]?) : slice bs a b = slice bs' a b := by
  refine List.ext_getElem? fun i => ?_
  by_cases hi : i < b - a
  · have h₁ := getElem?_slice bs (Nat.le_add_right a i) (by omega : a + i < b)
    have h₂ := getElem?_slice bs' (Nat.le_add_right a i) (by omega : a + i < b)
    rw [Nat.add_sub_cancel_left] at h₁ h₂
    rw [h₁, h₂, h (a + i) (by omega) (by omega)]
  · unfold slice
    rw [List.getElem?_take_eq_none (by omega), List.getElem?_take_eq_none (by omega)]

/-! ## Calls that can raise

`Except` stands for Python's exceptions: a call returns or raises, and what
comes after a call that raises is not carried out. A comprehension over calls
is `mapM`, which stops at the first that raises. -/

section Except

variable {α β ε : Type}

/-- `if c: raise e`, the guards at the head of a call. -/
def raiseIf (c : Prop) [Decidable c] (e : ε) : Except ε Unit :=
  if c then .error e else .ok ()

@[simp] theorem raiseIf_eq_ok {c : Prop} {_ : Decidable c} {e : ε} {u : Unit} :
    raiseIf c e = .ok u ↔ ¬c := by
  unfold raiseIf
  by_cases h : c <;> simp [h]

@[simp] theorem raiseIf_eq_error {c : Prop} {_ : Decidable c} {e e' : ε} :
    raiseIf c e = .error e' ↔ c ∧ e = e' := by
  unfold raiseIf
  by_cases h : c <;> simp [h]

/-- A sequence of calls returns when both do. -/
theorem bind_eq_ok {x : Except ε α} {f : α → Except ε β} {b : β} :
    x >>= f = .ok b ↔ ∃ a, x = .ok a ∧ f a = .ok b := by
  cases x with
  | error e => exact ⟨fun h => (by cases h), fun ⟨_, h, _⟩ => (by cases h)⟩
  | ok a => exact ⟨fun h => ⟨a, rfl, h⟩, fun ⟨_, h, h'⟩ => (by cases h; exact h')⟩

/-- A sequence of calls raises what the first raises, or the second. -/
theorem bind_eq_error {x : Except ε α} {f : α → Except ε β} {e : ε} :
    x >>= f = .error e ↔ x = .error e ∨ ∃ a, x = .ok a ∧ f a = .error e := by
  cases x with
  | error e' =>
    exact ⟨fun h => Or.inl (by cases h; rfl), fun h => by
      rcases h with h | ⟨_, h, _⟩ <;> cases h; rfl⟩
  | ok a =>
    exact ⟨fun h => Or.inr ⟨a, rfl, h⟩, fun h => by
      rcases h with h | ⟨_, h, h'⟩ <;> cases h; exact h'⟩

/-- Calls made on the elements of a list, all of which return. -/
theorem mapM_eq_ok {f : α → Except ε β} {xs : List α} {ys : List β} (h : xs.mapM f = .ok ys) :
    List.Forall₂ (fun x y => f x = .ok y) xs ys := by
  induction xs generalizing ys with
  | nil =>
    rw [List.mapM_nil] at h
    cases h
    exact .nil
  | cons x xs ih =>
    rw [List.mapM_cons, bind_eq_ok] at h
    obtain ⟨y, hy, h⟩ := h
    rw [bind_eq_ok] at h
    obtain ⟨ys', hys, h⟩ := h
    cases h
    exact .cons hy (ih hys)

/-- Each of them returns, if the whole does. -/
theorem eq_ok_of_mapM {f : α → Except ε β} {xs : List α} {ys : List β} (h : xs.mapM f = .ok ys)
    {x : α} (hx : x ∈ xs) : ∃ y, f x = .ok y := by
  have hall := mapM_eq_ok h
  clear h
  induction hall with
  | nil => cases hx
  | cons hxy _ ih =>
    rcases List.mem_cons.mp hx with rfl | hx
    · exact ⟨_, hxy⟩
    · exact ih hx

/-- Calls of which one raises: the first such is what comes out. -/
theorem mapM_eq_error {f : α → Except ε β} {xs : List α} {e : ε} (h : xs.mapM f = .error e) :
    ∃ x ∈ xs, f x = .error e := by
  induction xs with
  | nil => cases h
  | cons x xs ih =>
    rw [List.mapM_cons, bind_eq_error] at h
    rcases h with h | ⟨y, -, h⟩
    · exact ⟨x, List.mem_cons_self, h⟩
    · rcases bind_eq_error.mp h with h | ⟨_, -, h⟩
      · obtain ⟨x', hx', hf⟩ := ih h
        exact ⟨x', List.mem_cons_of_mem _ hx', hf⟩
      · cases h

/-- Calls that all return come to a plain map. -/
theorem mapM_eq_map {f : α → Except ε β} {g : α → β} {xs : List α} (h : ∀ x ∈ xs, f x = .ok (g x)) :
    xs.mapM f = .ok (xs.map g) := by
  induction xs with
  | nil => rfl
  | cons x xs ih =>
    rw [List.mapM_cons, bind_eq_ok]
    refine ⟨g x, h x List.mem_cons_self, ?_⟩
    rw [bind_eq_ok]
    exact ⟨xs.map g, ih fun y hy => h y (List.mem_cons_of_mem _ hy), rfl⟩

/-- What is returned is what was given to `return`. -/
theorem pure_eq_ok {a b : α} : (pure a : Except ε α) = .ok b ↔ a = b :=
  ⟨Except.ok.inj, congrArg Except.ok⟩

end Except

/-! ## Packing

The three calls of the `struct` module that the source makes. A buffer of the
wrong size and a number that does not fit raise the same exception. -/

/-- `struct.pack`. -/
def structPack (fmt : List Struct.Field) (zs : List ℤ) : Except PyError Bytes :=
  match Struct.pack fmt zs with
  | some bs => .ok bs
  | none => .error .structError

/-- `struct.unpack`. -/
def structUnpack (fmt : List Struct.Field) (bs : Bytes) : Except PyError (List ℤ) :=
  match Struct.unpack fmt bs with
  | some zs => .ok zs
  | none => .error .structError

/-- `struct.unpack_from`. -/
def structUnpackFrom (fmt : List Struct.Field) (bs : Bytes) (pos : ℕ) :
    Except PyError (List ℤ) :=
  match Struct.unpackFrom fmt bs pos with
  | some zs => .ok zs
  | none => .error .structError

/-- Packing returns what the layout packs. -/
theorem structPack_eq_ok {fmt : List Struct.Field} {zs : List ℤ} {bs : Bytes} :
    structPack fmt zs = .ok bs ↔ Struct.pack fmt zs = some bs := by
  unfold structPack
  cases Struct.pack fmt zs <;> simp

/-- Packing raises nothing else than `struct.error`. -/
theorem structPack_eq_error {fmt : List Struct.Field} {zs : List ℤ} {e : PyError}
    (h : structPack fmt zs = .error e) : e = .structError := by
  unfold structPack at h
  cases hp : Struct.pack fmt zs with
  | some bs => rw [hp] at h; cases h
  | none => rw [hp] at h; cases h; rfl

/-- Unpacking returns the numbers whose packing the buffer is. -/
theorem structUnpack_eq_ok {fmt : List Struct.Field} {zs : List ℤ} {bs : Bytes} :
    structUnpack fmt bs = .ok zs ↔ Struct.pack fmt zs = some bs := by
  rw [← Struct.unpack_eq_some_iff]
  unfold structUnpack
  cases Struct.unpack fmt bs <;> simp

/-- Unpacking raises on a buffer of the wrong size, and on no other. -/
theorem structUnpack_eq_error {fmt : List Struct.Field} {bs : Bytes} {e : PyError} :
    structUnpack fmt bs = .error e
      ↔ bs.length ≠ Struct.calcsize fmt ∧ .structError = e := by
  unfold structUnpack Struct.unpack
  by_cases h : bs.length = Struct.calcsize fmt <;> simp [h]

/-- Unpacking from a place returns the numbers whose packing stands there. -/
theorem structUnpackFrom_eq_ok {fmt : List Struct.Field} {zs : List ℤ} {bs : Bytes}
    {pos : ℕ} : structUnpackFrom fmt bs pos = .ok zs
      ↔ pos + Struct.calcsize fmt ≤ bs.length
        ∧ Struct.pack fmt zs = some (slice bs pos (pos + Struct.calcsize fmt)) := by
  rw [← Struct.unpack_eq_some_iff]
  unfold structUnpackFrom Struct.unpackFrom Struct.unpack
  by_cases h : pos + Struct.calcsize fmt ≤ bs.length
  · rw [if_pos h, if_pos (by rw [length_slice h]; omega), and_iff_right h]
    unfold slice
    rw [Nat.add_sub_cancel_left]
    simp
  · rw [if_neg h]
    simp [h]

/-- Unpacking from a place raises where the buffer ends too early, and nowhere
else. -/
theorem structUnpackFrom_eq_error {fmt : List Struct.Field} {bs : Bytes}
    {pos : ℕ} {e : PyError} : structUnpackFrom fmt bs pos = .error e
      ↔ ¬pos + Struct.calcsize fmt ≤ bs.length ∧ .structError = e := by
  unfold structUnpackFrom Struct.unpackFrom
  by_cases h : pos + Struct.calcsize fmt ≤ bs.length <;> simp [h]

end Pyka
