import Pyka.Storage.Segment

/-!
# The two scans of a segment

A segment is scanned when it is opened (`Segment.recoverLoop`) and when it is
read (`Segment.scanFrom`). Both take records off a stream until
`Record.readOne` finds none, so what they answer is a matter of the one
decomposition of the bytes into frames and a rest: the records of
`Record.framing.scan`, and what `readOne` says of the rest.

## Reading

`Segment.scanFrom_eq` is that statement for a read, with no condition on the
bytes: of the records the bytes decompose into it yields those at or past the
offset, and it ends with the exception the rest raises, if any. Whether the
records count up is not looked at by a read.

## Recovery

The scan of `recover` checks more on the way – each record's offset, and
whether the index takes its entry – so its lemmas go record by record: one
turn (`recoverLoop_cons`), records that count up (`recoverLoop_encAll`), a
record out of turn (`recoverLoop_gap`), and the two ways to stop at a rest
(`recoverLoop_torn`, `recoverLoop_error`). What it does to the index is
`feed`, apart from the bytes, so that a fact about indexes is an induction
over a list of records and not over a file (`feed_keeps`).

`Consecutive` is what "counts up" means. Of records that count up from a base
the ones at or past an offset are what is left after dropping a prefix, which
turns the filter of a read into a `List.drop`.
-/

namespace Pyka

open Struct (Bytes)

/-! ## Consecutive offsets

The offsets of a segment's records, and of a chain's, count up by one from the
first. The predicate is decidable, so that a list of records can be asked. -/

/-- Records whose offsets count up from a base. -/
def Consecutive : ℤ → List Record → Prop
  | _, [] => True
  | base, r :: rs => r.offset = base ∧ Consecutive (base + 1) rs

namespace Consecutive

instance decidable : (base : ℤ) → (rs : List Record) → Decidable (Consecutive base rs)
  | _, [] => isTrue trivial
  | base, r :: rs =>
    haveI := decidable (base + 1) rs
    inferInstanceAs (Decidable (r.offset = base ∧ Consecutive (base + 1) rs))

@[simp] theorem nil (base : ℤ) : Consecutive base [] := trivial

/-- Records count up where the front does, and the rest from behind it. -/
theorem append_iff {base : ℤ} {rs rs' : List Record} :
    Consecutive base (rs ++ rs')
      ↔ Consecutive base rs ∧ Consecutive (base + rs.length) rs' := by
  induction rs generalizing base with
  | nil => simp
  | cons r rs ih =>
    rw [List.cons_append, Consecutive, Consecutive, ih, and_assoc, List.length_cons,
      show base + ((rs.length + 1 : ℕ) : ℤ) = base + 1 + rs.length by push_cast; ring]

theorem singleton {base : ℤ} {r : Record} : Consecutive base [r] ↔ r.offset = base := by
  simp [Consecutive]

/-- The first of records that count up do. -/
theorem take {base : ℤ} {rs : List Record} (h : Consecutive base rs) (n : ℕ) :
    Consecutive base (rs.take n) := by
  rw [← List.take_append_drop n rs] at h
  exact (append_iff.mp h).1

/-- What is left behind the first of them counts up from further on. -/
theorem drop {base : ℤ} {rs : List Record} (h : Consecutive base rs) {n : ℕ}
    (hn : n ≤ rs.length) : Consecutive (base + n) (rs.drop n) := by
  rw [← List.take_append_drop n rs] at h
  have := (append_iff.mp h).2
  rwa [List.length_take, Nat.min_eq_left hn] at this

/-- No offset is below the base. -/
theorem le_offset {base : ℤ} {rs : List Record} (h : Consecutive base rs) :
    ∀ r ∈ rs, base ≤ r.offset := by
  induction rs generalizing base with
  | nil => simp
  | cons r rs ih =>
    obtain ⟨hr, hrs⟩ := h
    refine List.forall_mem_cons.mpr ⟨hr.ge, fun r' hr' => ?_⟩
    have := ih hrs r' hr'
    omega

/-- **Filtering consecutive records by offset drops the ones before.** -/
theorem filter_eq_drop {base : ℤ} {rs : List Record} (h : Consecutive base rs) (offset : ℤ) :
    rs.filter (fun r => decide (offset ≤ r.offset)) = rs.drop (offset - base).toNat := by
  induction rs generalizing base with
  | nil => simp
  | cons r rs ih =>
    obtain ⟨hr, hrs⟩ := h
    by_cases ho : offset ≤ base
    · rw [show (offset - base).toNat = 0 by omega, List.drop_zero, List.filter_eq_self]
      intro r' hr'
      have hall : Consecutive base (r :: rs) := ⟨hr, hrs⟩
      have := hall.le_offset r' hr'
      exact decide_eq_true (by omega)
    · rw [List.filter_cons_of_neg (by simpa [hr] using ho), ih hrs,
        show (offset - base).toNat = (offset - (base + 1)).toNat + 1 by omega,
        List.drop_succ_cons]

/-- Records that do not count up have a first one out of turn. -/
theorem exists_gap {base : ℤ} {rs : List Record} (h : ¬Consecutive base rs) :
    ∃ rs₁ r rs₂, rs = rs₁ ++ r :: rs₂ ∧ Consecutive base rs₁ ∧ r.offset ≠ base + rs₁.length := by
  induction rs generalizing base with
  | nil => exact absurd trivial h
  | cons r rs ih =>
    by_cases hr : r.offset = base
    · obtain ⟨rs₁, r', rs₂, rfl, hcons, hoff⟩ := ih fun hrs => h ⟨hr, hrs⟩
      refine ⟨r :: rs₁, r', rs₂, rfl, ⟨hr, hcons⟩, ?_⟩
      rwa [List.length_cons, Nat.cast_add, Nat.cast_one, add_comm (rs₁.length : ℤ) 1, ← add_assoc]
    · exact ⟨[], r, rs, rfl, trivial, by simpa using hr⟩

/-- The offset of a record is its place. -/
theorem offset_getElem {base : ℤ} {rs : List Record} (h : Consecutive base rs) {i : ℕ}
    {r : Record} (hi : rs[i]? = some r) : r.offset = base + i := by
  induction rs generalizing base i with
  | nil => simp at hi
  | cons r' rs ih =>
    obtain ⟨hr, hrs⟩ := h
    cases i with
    | zero =>
      rw [List.getElem?_cons_zero, Option.some.injEq] at hi
      simp [← hi, hr]
    | succ i =>
      rw [List.getElem?_cons_succ] at hi
      rw [ih hrs hi]
      push_cast
      ring

end Consecutive

/-- The exception a read ended with, if it did. -/
def raisedBy : Except PyError (Option Record) → Option PyError
  | .error e => some e
  | .ok _ => none

section Codec

variable [Crc32]

open Record (framing)

/-- The frames of the framing are those of `encode`. -/
theorem Record.enc_framing (r : Record) : framing.enc r = r.frame := rfl

/-- The reader of the framing is `readOne`, on the bytes that are left. -/
theorem Record.read_framing (bs : Bytes) : framing.read bs = Record.read bs := rfl

/-- A record takes 32 bytes at least. -/
theorem Record.length_le_encAll (rs : List Record) :
    32 * rs.length ≤ (framing.encAll rs).length := by
  induction rs with
  | nil => exact le_rfl
  | cons r rs ih =>
    have hsize := r.size_eq
    rw [framing.encAll_cons, List.length_append, List.length_cons, Record.enc_framing,
      Record.length_frame]
    omega

omit [Crc32] in
/-- A stream past its first frame. -/
theorem Stream.rest_advance {f : Stream} {bs s : Bytes} (h : f.rest = bs ++ s) :
    Stream.rest { f with pos := f.pos + bs.length } = s := by
  unfold Stream.rest at *
  rw [← List.drop_drop, h, List.drop_left]

namespace Segment

/-- **What reading a stream to its end gives**: the records its bytes
decompose into, and the exception their rest raises. -/
theorem scanFrom_eq (f : Stream) (offset : ℤ) : scanFrom f offset =
    ⟨(framing.scan f.rest).1.filter (fun r => decide (offset ≤ r.offset)),
      raisedBy (Record.read (framing.scan f.rest).2)⟩ := by
  induction f using scanFrom.induct with
  | case1 f e f' h =>
    have hread : Record.read f.rest = .error e := by rw [← Record.readOne_fst, h]
    rw [scanFrom, framing.scan_of_read_ne_some (by simp [Record.read_framing, hread])]
    split
    · next h' => cases h.symm.trans h'; simp [hread, raisedBy]
    · next h' => cases h.symm.trans h'
    · next h' => cases h.symm.trans h'
  | case2 f f' h =>
    have hread : Record.read f.rest = .ok none := by rw [← Record.readOne_fst, h]
    rw [scanFrom, framing.scan_of_read_ne_some (by simp [Record.read_framing, hread])]
    split
    · next h' => cases h.symm.trans h'
    · simp [hread, raisedBy, Read.done]
    · next h' => cases h.symm.trans h'
  | case3 f r f' h ih =>
    obtain ⟨henc, ⟨s, hs⟩, hf'⟩ := Record.readOne_eq_some_iff.mp h
    have hrest : f'.rest = s := by
      rw [hf', ← Record.length_frame]
      exact Stream.rest_advance hs.symm
    have hscan : framing.scan f.rest = (r :: (framing.scan s).1, (framing.scan s).2) := by
      rw [← hs]
      exact framing.scan_enc_append henc s
    rw [hrest] at ih
    rw [scanFrom, hscan]
    split
    · next h' => cases h.symm.trans h'
    · next h' => cases h.symm.trans h'
    · next h' =>
      cases h.symm.trans h'
      rw [ih, Read.yieldIf]
      split
      · next ho => rw [List.filter_cons_of_pos (by simpa using ho)]
      · next ho => rw [List.filter_cons_of_neg (by simpa using ho)]

/-- Reading records that count up and a torn rest to the end: those from the
offset on, and no exception. -/
theorem scanFrom_encAll {f : Stream} {rs : List Record} {t : Bytes} {base : ℤ}
    (hvalid : ∀ r ∈ rs, r.Encodable) (hcons : Consecutive base rs)
    (hrest : f.rest = framing.encAll rs ++ t) (htorn : Record.Torn t) (offset : ℤ) :
    scanFrom f offset = ⟨rs.drop (offset - base).toNat, none⟩ := by
  have hread : Record.read t = .ok none := (Record.read_eq_none_iff t).mpr htorn
  have ht := framing.scan_of_read_ne_some (t := t) (by simp [Record.read_framing, hread])
  rw [scanFrom_eq, hrest, framing.scan_encAll_append hvalid, ht]
  simp only [List.append_nil, hcons.filter_eq_drop, hread, raisedBy]

/-- The index after records one after the other, the first of them at an
offset and a position. -/
def feed (ix : Index) (offset : ℤ) (position : ℕ) : List Record → Except PyError Index
  | [] => .ok ix
  | r :: rs =>
    match ix.maybeAppend offset position with
    | .error e => .error e
    | .ok ix => feed ix (offset + 1) (position + r.size) rs

/-- One record is fed. -/
theorem feed_cons {ix ix₁ : Index} {rs₀ : List Record} (r : Record) (rs : List Record)
    (h : ix.maybeAppend (ix.baseOffset + rs₀.length) (framing.encAll rs₀).length = .ok ix₁) :
    feed ix (ix.baseOffset + rs₀.length) (framing.encAll rs₀).length (r :: rs)
      = feed ix₁ (ix₁.baseOffset + (rs₀ ++ [r]).length)
        (framing.encAll (rs₀ ++ [r])).length rs := by
  obtain ⟨-, hb, -⟩ := Index.maybeAppend_eq_ok h
  have hnext : ix.baseOffset + (rs₀.length : ℤ) + 1
      = ix₁.baseOffset + ((rs₀ ++ [r]).length : ℕ) := by
    rw [hb, List.length_append, List.length_singleton]
    push_cast
    ring
  have hend : (framing.encAll rs₀).length + r.size = (framing.encAll (rs₀ ++ [r])).length := by
    simp only [framing.encAll_append, framing.encAll_cons, framing.encAll_nil, List.append_nil,
      List.length_append, Record.enc_framing, Record.length_frame]
  rw [feed, h]
  simp only
  rw [hnext, hend]

/-- **What feeding a record keeps**, feeding all of them keeps: the induction
over the records of a file, once. -/
theorem feed_keeps {P : Index → List Record → Prop}
    (hstep : ∀ {ix ix' : Index} {rs : List Record} (r : Record), P ix rs →
      ix.maybeAppend (ix.baseOffset + rs.length) (framing.encAll rs).length = .ok ix' →
      P ix' (rs ++ [r]))
    {ix ix' : Index} {rs₀ rs : List Record} (h : P ix rs₀)
    (hfeed : feed ix (ix.baseOffset + rs₀.length) (framing.encAll rs₀).length rs = .ok ix') :
    P ix' (rs₀ ++ rs) := by
  induction rs generalizing ix rs₀ with
  | nil =>
    cases hfeed
    rwa [List.append_nil]
  | cons r rs ih =>
    cases happ : ix.maybeAppend (ix.baseOffset + rs₀.length) (framing.encAll rs₀).length with
    | error e =>
      rw [feed, happ] at hfeed
      cases hfeed
    | ok ix₁ =>
      rw [feed_cons r rs happ] at hfeed
      have hall := ih (hstep r h happ) hfeed
      rwa [List.append_assoc, List.singleton_append] at hall

/-- An index that took what it was fed is sound. -/
theorem feed_eq_ok {ix ix' : Index} {rs₀ rs : List Record} (h : ix.Sound rs₀)
    (hfeed : feed ix (ix.baseOffset + rs₀.length) (framing.encAll rs₀).length rs = .ok ix') :
    ix'.Sound (rs₀ ++ rs) ∧ ix'.baseOffset = ix.baseOffset ∧ ix'.closed = ix.closed := by
  refine feed_keeps (P := fun ix' rs => ix'.Sound rs ∧ ix'.baseOffset = ix.baseOffset
    ∧ ix'.closed = ix.closed) (fun r hix happ => ?_) ⟨h, rfl, rfl⟩ hfeed
  obtain ⟨-, hb, hc, -⟩ := Index.maybeAppend_eq_ok happ
  exact ⟨hix.1.of_maybeAppend happ r, hb.trans hix.2.1, hc.trans hix.2.2⟩

/-- **A file of no more than 4 GiB can be indexed**, and its index is sound. -/
theorem feed_of_small {ix : Index} {rs₀ rs : List Record} (hopen : ix.closed = false)
    (hsound : ix.Sound rs₀) (hsmall : (framing.encAll (rs₀ ++ rs)).length ≤ maxU32 + 1) :
    ∃ ix', feed ix (ix.baseOffset + rs₀.length) (framing.encAll rs₀).length rs = .ok ix'
      ∧ ix'.Sound (rs₀ ++ rs) ∧ ix'.baseOffset = ix.baseOffset ∧ ix'.closed = false := by
  obtain ⟨ix', hfeed⟩ : ∃ ix', feed ix (ix.baseOffset + rs₀.length) (framing.encAll rs₀).length rs
      = .ok ix' := by
    induction rs generalizing ix rs₀ with
    | nil => exact ⟨ix, rfl⟩
    | cons r rs ih =>
      have hshort := Record.length_le_encAll rs₀
      have hsize := r.size_eq
      rw [← List.singleton_append, ← List.append_assoc] at hsmall
      have hfit : (framing.encAll rs₀).length + r.size ≤ maxU32 + 1 := by
        refine le_trans ?_ hsmall
        simp only [framing.encAll_append, framing.encAll_cons, framing.encAll_nil, List.append_nil,
          List.length_append, Record.enc_framing, Record.length_frame]
        exact Nat.le_add_right _ _
      obtain ⟨ix₁, hix, hs, -, hc, -⟩ := hsound.maybeAppend hopen (by omega) (by omega) r
      rw [feed_cons r rs hix]
      exact ih hc hs hsmall
  obtain ⟨hs, hb, hc⟩ := feed_eq_ok hsound hfeed
  exact ⟨ix', hfeed, hs, hb, hc.trans hopen⟩

section Recover

variable {name : String} {f : Stream} {ix : Index}

/-- A record out of turn ends the scan of `recover`. -/
theorem recoverLoop_gap (name : String) (ix : Index) (position : ℕ) {r : Record} {s : Bytes}
    {nextOffset : ℤ}
    (henc : r.Encodable) (hrest : f.rest = r.frame ++ s) (hoff : r.offset ≠ nextOffset) :
    ∃ msg, recoverLoop name f ix nextOffset position = .error (.corruptRecord msg) := by
  have hone := Record.readOne_eq_some_iff.mpr ⟨henc, ⟨s, hrest.symm⟩, rfl⟩
  rw [recoverLoop]
  split
  · next h' => cases hone.symm.trans h'
  · next h' => cases hone.symm.trans h'
  · next h' =>
    cases hone.symm.trans h'
    rw [if_pos hoff]
    exact ⟨_, rfl⟩

/-- **One turn of the scan of `recover`**: the index is fed the record and
the stream is behind it. -/
theorem recoverLoop_cons {r : Record} {s : Bytes} {position : ℕ} (henc : r.Encodable)
    (hrest : f.rest = r.frame ++ s) :
    recoverLoop name f ix r.offset position =
      match ix.maybeAppend r.offset position with
      | .error e => .error e
      | .ok ix' => recoverLoop name { f with pos := f.pos + r.size } ix' (r.offset + 1)
          (f.pos + r.size) := by
  have hone := Record.readOne_eq_some_iff.mpr ⟨henc, ⟨s, hrest.symm⟩, rfl⟩
  rw [recoverLoop]
  split
  · next h' => cases hone.symm.trans h'
  · next h' => cases hone.symm.trans h'
  · next h' =>
    cases hone.symm.trans h'
    refine (if_neg (not_not.mpr rfl)).trans ?_
    cases ix.maybeAppend r.offset position <;> rfl

/-- **The scan of `recover` over records that count up**: it feeds them to
the index and goes on behind them. -/
theorem recoverLoop_encAll (name : String) (ix : Index) {rs : List Record} {t : Bytes} {base : ℤ}
    (hvalid : ∀ r ∈ rs, r.Encodable) (hcons : Consecutive base rs)
    (hrest : f.rest = framing.encAll rs ++ t) :
    ∃ f', f'.content = f.content ∧ f'.rest = t ∧ recoverLoop name f ix base f.pos =
      match feed ix base f.pos rs with
      | .error e => .error e
      | .ok ix' => recoverLoop name f' ix' (base + rs.length)
          (f.pos + (framing.encAll rs).length) := by
  induction rs generalizing f ix base with
  | nil => exact ⟨f, rfl, hrest, by simp [feed]⟩
  | cons r rs ih =>
    obtain ⟨hoff, hcons⟩ := hcons
    rw [framing.encAll_cons, List.append_assoc] at hrest
    have hrest₁ : Stream.rest { f with pos := f.pos + r.size } = framing.encAll rs ++ t := by
      rw [← Record.length_frame]
      exact Stream.rest_advance hrest
    have henc := hvalid r List.mem_cons_self
    cases hix : ix.maybeAppend base f.pos with
    | error e =>
      obtain ⟨f', hcontent, hrest', -⟩ := ih ix
        (fun r' h => hvalid r' (List.mem_cons_of_mem _ h)) hcons hrest₁
      refine ⟨f', hcontent, hrest', ?_⟩
      rw [← hoff] at hix ⊢
      rw [recoverLoop_cons henc hrest, feed, hix]
    | ok ix₁ =>
      obtain ⟨f', hcontent, hrest', hloop⟩ := ih ix₁
        (fun r' h => hvalid r' (List.mem_cons_of_mem _ h)) hcons hrest₁
      refine ⟨f', hcontent, hrest', ?_⟩
      have hlen : f.pos + (framing.encAll (r :: rs)).length
          = f.pos + r.size + (framing.encAll rs).length := by
        rw [framing.encAll_cons, List.length_append, Record.enc_framing, Record.length_frame,
          Nat.add_assoc]
      rw [feed, hix, hlen, show base + (((r :: rs).length : ℕ) : ℤ) = base + 1 + rs.length by
        rw [List.length_cons]; push_cast; ring]
      rw [← hoff] at hix hloop ⊢
      rw [recoverLoop_cons henc hrest, hix]
      exact hloop

/-- **The scan of `recover` from byte 0** over a file that starts with records
that count up. -/
theorem recoverLoop_content {content : Bytes} {rs : List Record} {t : Bytes} {base : ℤ}
    (name : String) (ix : Index) (hcontent : content = framing.encAll rs ++ t)
    (hvalid : ∀ r ∈ rs, r.Encodable) (hcons : Consecutive base rs) :
    ∃ f', f'.rest = t ∧ recoverLoop name ⟨content, 0⟩ ix base 0 =
      match feed ix base 0 rs with
      | .error e => .error e
      | .ok ix' => recoverLoop name f' ix' (base + rs.length) (framing.encAll rs).length := by
  have hwhole : Stream.rest ⟨content, 0⟩ = framing.encAll rs ++ t := by
    rw [Stream.rest, List.drop_zero, hcontent]
  obtain ⟨f', -, hrest, hloop⟩ := recoverLoop_encAll name ix hvalid hcons hwhole
  rw [Nat.zero_add] at hloop
  exact ⟨f', hrest, hloop⟩

/-- The scan of `recover` over a whole file, of no more than 4 GiB of records. -/
theorem recoverLoop_file {content : Bytes} {rs : List Record} {t : Bytes} (name : String)
    (ix : Index) (hcontent : content = framing.encAll rs ++ t)
    (hvalid : ∀ r ∈ rs, r.Encodable) (hopen : ix.closed = false) (hempty : ix.entries = [])
    (hsmall : (framing.encAll rs).length ≤ maxU32 + 1) (hcons : Consecutive ix.baseOffset rs) :
    ∃ f' ix', f'.rest = t ∧ ix'.Sound rs ∧ ix'.baseOffset = ix.baseOffset
      ∧ ix'.closed = false
      ∧ recoverLoop name ⟨content, 0⟩ ix ix.baseOffset 0
        = recoverLoop name f' ix' (ix.baseOffset + rs.length) (framing.encAll rs).length := by
  have hsound : ix.Sound [] := fun e he => by rw [hempty] at he; cases he
  obtain ⟨ix', hfeed, hs, hb, hc⟩ := feed_of_small hopen hsound (by rwa [List.nil_append])
  obtain ⟨f', hrest, hloop⟩ := recoverLoop_content name ix hcontent hvalid hcons
  rw [List.length_nil, Nat.cast_zero, add_zero, framing.encAll_nil, List.length_nil] at hfeed
  rw [hfeed] at hloop
  exact ⟨f', ix', hrest, hs, hb, hc, hloop⟩

/-- The scan of `recover` stops at a torn rest. -/
theorem recoverLoop_torn {nextOffset : ℤ} {position : ℕ} (h : Record.Torn f.rest) :
    recoverLoop name f ix nextOffset position = .ok (nextOffset, position, ix) := by
  have hone : (Record.readOne f).1 = .ok none := by
    rw [Record.readOne_fst]
    exact (Record.read_eq_none_iff _).mpr h
  rw [recoverLoop]
  split
  · next h' => rw [h'] at hone; cases hone
  · rfl
  · next h' => rw [h'] at hone; cases hone

/-- An exception of `readOne` comes through the scan of `recover`. -/
theorem recoverLoop_error {nextOffset : ℤ} {position : ℕ} {e : PyError}
    (h : Record.read f.rest = .error e) :
    recoverLoop name f ix nextOffset position = .error e := by
  have hone : (Record.readOne f).1 = .error e := by rw [Record.readOne_fst, h]
  rw [recoverLoop]
  split
  · next h' => rw [h'] at hone; cases hone; rfl
  · next h' => rw [h'] at hone; cases hone
  · next h' => rw [h'] at hone; cases hone

end Recover

end Segment

end Codec

end Pyka
