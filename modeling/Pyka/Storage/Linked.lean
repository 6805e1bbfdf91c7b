import Pyka.Storage.Log
import Pyka.Storage.SegmentSpec

/-!
# Reading a chain of segments

`Linked v base segs css` says that segments hold the chunks of a list and that
their files hold nothing else, one behind the other from `base` on. Reading
such a chain gives its records from the offset on and then goes on with
whatever comes behind it (`Linked.readAll_append`), so it makes no difference
at which of its segments a read begins (`Linked.readAll_drop_append`).

The second fact is what the bisection over the bases is measured by. It finds
the last segment whose base is at or before the offset; the segments before it
hold only records before the offset, and a read that began at the first of all
would yield nothing from them. So the bisection is a matter of speed as long
as the bases increase, and is only needed to be *a* place to begin.

Where something is wrong with one file of the chain – torn, damaged, or
written to at the moment – the chain before it and the chain behind it are
linked, and a read either visits the file or begins behind it
(`readAll_segmentsFrom`). That is the form in which damage to one segment is
looked at elsewhere. No segment of a linked chain has to be open or closed: a
read has its own handle.
-/

namespace Pyka

open Record (framing)

namespace Log

variable [Crc32]

/-- **Segments that hold chunks, and their files**, one behind the other. -/
def Linked (v : ℤ → Option File) : ℤ → List Segment → List (List Record) → Prop
  | _, [], [] => True
  | base, s :: segs, c :: css =>
    (s.Holds c ∧ s.baseOffset = base ∧ ∃ f, v base = some f ∧ f.content = framing.encAll c)
      ∧ Linked v (base + c.length) segs css
  | _, _, _ => False

namespace Linked

variable {v v' : ℤ → Option File} {dir : Dir} {base offset : ℤ} {s : Segment}
  {segs segs' : List Segment} {css : List (List Record)}

/-- **A segment of the chain**, with what is before and behind it. -/
theorem exists_of_mem (h : Linked v base segs css) (hs : s ∈ segs) :
    ∃ segs₁ segs₂ css₁ c css₂, segs = segs₁ ++ s :: segs₂ ∧ css = css₁ ++ c :: css₂
      ∧ Linked v base segs₁ css₁ ∧ s.Holds c ∧ s.baseOffset = base + css₁.flatten.length
      ∧ (∃ f, v s.baseOffset = some f ∧ f.content = framing.encAll c)
      ∧ Linked v (s.baseOffset + c.length) segs₂ css₂ := by
  induction segs generalizing base css with
  | nil => cases hs
  | cons s₀ segs ih =>
    cases css with
    | nil => exact h.elim
    | cons c₀ css =>
      obtain ⟨⟨hs₀, hb, hf⟩, h⟩ := h
      rcases List.mem_cons.mp hs with rfl | hs
      · exact ⟨[], segs, [], c₀, css, rfl, rfl, trivial, hs₀, by simpa using hb, hb ▸ hf, hb ▸ h⟩
      · obtain ⟨segs₁, segs₂, css₁, c, css₂, rfl, rfl, h₁, hrest⟩ := ih h hs
        refine ⟨s₀ :: segs₁, segs₂, c₀ :: css₁, c, css₂, rfl, rfl, ⟨⟨hs₀, hb, hf⟩, h₁⟩, hrest.1, ?_,
          hrest.2.2⟩
        rw [hrest.2.1, List.flatten_cons, List.length_append]
        push_cast
        ring

/-- One chain behind another is a chain, where the second has its base at the
end of the first. -/
theorem append {css' : List (List Record)} (h : Linked v base segs css)
    (h' : Linked v (base + css.flatten.length) segs' css') :
    Linked v base (segs ++ segs') (css ++ css') := by
  induction segs generalizing base css with
  | nil =>
    cases css with
    | cons c css => exact h.elim
    | nil => simpa using h'
  | cons s segs ih =>
    cases css with
    | nil => exact h.elim
    | cons c css =>
      refine ⟨h.1, ih h.2 ?_⟩
      rw [List.flatten_cons, List.length_append, Nat.cast_add, ← add_assoc] at h'
      exact h'

/-- Only the files of the segments matter. -/
theorem congr (h : Linked v base segs css)
    (hv : ∀ s ∈ segs, v' s.baseOffset = v s.baseOffset) : Linked v' base segs css := by
  induction segs generalizing base css with
  | nil =>
    cases css with
    | cons c css => exact h.elim
    | nil => trivial
  | cons s segs ih =>
    cases css with
    | nil => exact h.elim
    | cons c css =>
      obtain ⟨⟨hs, hb, hf⟩, h⟩ := h
      obtain ⟨hvs, hv⟩ := List.forall_mem_cons.mp hv
      rw [hb] at hvs
      exact ⟨⟨hs, hb, hvs ▸ hf⟩, ih h hv⟩

/-- Where a segment of the chain starts. -/
theorem baseOffset_getElem? (h : Linked v base segs css) {j : ℕ} (hj : segs[j]? = some s) :
    s.baseOffset = base + (css.take j).flatten.length := by
  induction j generalizing base segs css with
  | zero =>
    cases segs with
    | nil => cases hj
    | cons s₀ segs =>
      cases css with
      | nil => exact h.elim
      | cons c css =>
        obtain rfl : s₀ = s := by simpa using hj
        simpa using h.1.2.1
  | succ j ih =>
    cases segs with
    | nil => cases hj
    | cons s₀ segs =>
      cases css with
      | nil => exact h.elim
      | cons c css =>
        rw [List.getElem?_cons_succ] at hj
        rw [ih h.2 hj, List.take_succ_cons, List.flatten_cons, List.length_append]
        push_cast
        ring

/-- **Reading a chain, and what follows it**: the records of the chain from
the offset on, and then whatever reading what follows it gives. -/
theorem readAll_append (h : Linked dir.logs.view base segs css) :
    readAll dir offset (segs ++ segs')
      = ⟨css.flatten.drop (offset - base).toNat ++ (readAll dir offset segs').records,
        (readAll dir offset segs').raised⟩ := by
  induction segs generalizing base css with
  | nil =>
    cases css with
    | cons c css => exact h.elim
    | nil => simp
  | cons s segs ih =>
    cases css with
    | nil => exact h.elim
    | cons c css =>
      obtain ⟨⟨hs, hb, f, hf, hcontent⟩, h⟩ := h
      have hread := hs.readFrom (hb ▸ hf) (hcontent.trans (List.append_nil _).symm)
        Record.torn_nil (le_max_right offset s.baseOffset)
      rw [List.cons_append, readAll, hread]
      simp only [ih h]
      rw [List.flatten_cons, List.drop_append, List.append_assoc, hb,
        show (max offset base - base).toNat = (offset - base).toNat by omega,
        show (offset - (base + c.length)).toNat = (offset - base).toNat - c.length by omega]

/-- Reading a chain to its end: nothing follows. -/
theorem readAll_eq (h : Linked dir.logs.view base segs css) :
    readAll dir offset segs = ⟨css.flatten.drop (offset - base).toNat, none⟩ := by
  have heq : readAll dir offset (segs ++ []) = _ := h.readAll_append
  rwa [List.append_nil, readAll, Read.done, List.append_nil] at heq

/-- What is left of the chain from one of its segments on. -/
theorem drop (h : Linked v base segs css) (j : ℕ) :
    Linked v (base + (css.take j).flatten.length) (segs.drop j) (css.drop j) := by
  induction j generalizing base segs css with
  | zero => simpa using h
  | succ j ih =>
    cases segs with
    | nil =>
      cases css with
      | cons c css => exact h.elim
      | nil => simp [Linked]
    | cons s segs =>
      cases css with
      | nil => exact h.elim
      | cons c css =>
        have hnext := ih h.2
        rw [add_assoc, ← Nat.cast_add, ← List.length_append] at hnext
        exact hnext

/-- **Reading may begin at any segment** whose base is at or before the
offset. -/
theorem readAll_drop_append (h : Linked dir.logs.view base segs css) {j : ℕ}
    (hle : base + (css.take j).flatten.length ≤ offset) :
    readAll dir offset (segs.drop j ++ segs') = readAll dir offset (segs ++ segs') := by
  have hflat : css.flatten = (css.take j).flatten ++ (css.drop j).flatten := by
    rw [← List.flatten_append, List.take_append_drop]
  have hnone : (css.take j).flatten.drop (offset - base).toNat = [] :=
    List.drop_eq_nil_of_le (by omega)
  rw [(h.drop j).readAll_append, h.readAll_append, hflat, List.drop_append, hnone,
    List.nil_append, show (offset - (base + (css.take j).flatten.length)).toNat
      = (offset - base).toNat - (css.take j).flatten.length by omega]

/-- There are as many segments as chunks. -/
theorem length_eq (h : Linked v base segs css) : css.length = segs.length := by
  induction segs generalizing base css with
  | nil =>
    cases css with
    | cons c css => exact h.elim
    | nil => rfl
  | cons s segs ih =>
    cases css with
    | nil => exact h.elim
    | cons c css => rw [List.length_cons, List.length_cons, ih h.2]

end Linked

omit [Crc32] in
/-- Slicing from one place before another. -/
theorem sliceFrom_succ_sub_one {α : Type} (xs : List α) (j : ℕ) :
    sliceFrom xs (((j + 1 : ℕ) : ℤ) - 1) = xs.drop j := by
  unfold sliceFrom
  rw [show (((j + 1 : ℕ) : ℤ) - 1) = (j : ℤ) by push_cast; ring, if_neg (by omega),
    Int.toNat_natCast]

omit [Crc32] in
/-- **The segments a read visits**: from the last one on whose base is at or
before the offset. -/
theorem segmentsFrom_eq {segs : List Segment} (hpw : (segs.map Segment.baseOffset).Pairwise (· < ·))
    {s : Segment} (hs : segs[0]? = some s) {offset : ℤ} (hle : s.baseOffset ≤ offset) :
    ∃ j s', segmentsFrom segs offset = segs.drop j ∧ segs[j]? = some s' ∧ s'.baseOffset ≤ offset
      ∧ ∀ i s'', j < i → segs[i]? = some s'' → offset < s''.baseOffset := by
  have hmap : ∀ (i : ℕ) (s' : Segment), segs[i]? = some s' →
      (segs.map Segment.baseOffset)[i]? = some s'.baseOffset := fun i s' hi => by
    rw [List.getElem?_map, hi, Option.map_some]
  have hsorted : (segs.map Segment.baseOffset).Pairwise fun b b' => id b ≤ id b' := hpw.imp le_of_lt
  obtain ⟨j, b, hi, hj, hle, hlast⟩ := Bisect.exists_last hsorted offset (hmap 0 s hs) hle
  rw [List.getElem?_map, Option.map_eq_some_iff] at hj
  obtain ⟨s', hj, rfl⟩ := hj
  refine ⟨j, s', ?_, hj, hle, fun i s'' hlt hi' => hlast i _ hlt (hmap i s'' hi')⟩
  unfold segmentsFrom
  dsimp only
  rw [hi, sliceFrom_succ_sub_one]

/-- **A read around one segment.** Either it visits the segment, and then it
gives what a read of the whole chain would give; or it starts behind it. -/
theorem readAll_segmentsFrom {dir : Dir} {base offset : ℤ} {n : ℕ} {s : Segment}
    {segs₁ segs₂ : List Segment} {css₁ css₂ : List (List Record)}
    (hpw : ((segs₁ ++ s :: segs₂).map Segment.baseOffset).Pairwise (· < ·))
    (h₁ : Linked dir.logs.view base segs₁ css₁) (hs : s.baseOffset = base + css₁.flatten.length)
    (h₂ : Linked dir.logs.view (s.baseOffset + n) segs₂ css₂) (hle : base ≤ offset) :
    (segs₂ = [] ∨ offset < s.baseOffset + n)
        ∧ readAll dir offset (segmentsFrom (segs₁ ++ s :: segs₂) offset)
          = readAll dir offset (segs₁ ++ s :: segs₂)
      ∨ (segs₂ ≠ [] ∧ s.baseOffset + n ≤ offset)
        ∧ readAll dir offset (segmentsFrom (segs₁ ++ s :: segs₂) offset)
          = readAll dir offset segs₂ := by
  have hlen₁ := h₁.length_eq
  obtain ⟨s₀, hs₀, hb₀⟩ : ∃ s₀, (segs₁ ++ s :: segs₂)[0]? = some s₀ ∧ s₀.baseOffset = base := by
    cases segs₁ with
    | nil =>
      rw [List.length_eq_zero_iff.mp hlen₁] at hs
      exact ⟨s, rfl, by simpa using hs⟩
    | cons s₁ segs₁ => exact ⟨s₁, rfl, by simpa using h₁.baseOffset_getElem? (j := 0) rfl⟩
  obtain ⟨j, s', hfrom, hj, hjle, hlast⟩ := segmentsFrom_eq hpw hs₀ (hb₀.trans_le hle)
  rw [hfrom]
  rcases le_or_gt j segs₁.length with hvisit | hpast
  · refine Or.inl ⟨?_, ?_⟩
    · cases segs₂ with
      | nil => exact Or.inl rfl
      | cons s₂ segs₂ =>
        have hnext := hlast (segs₁.length + 1) s₂ (by omega) (by simp)
        rw [h₂.baseOffset_getElem? (j := 0) rfl] at hnext
        exact Or.inr (by simpa using hnext)
    · have hbase : base + (css₁.take j).flatten.length ≤ offset := by
        rcases hvisit.lt_or_eq with hlt | rfl
        · rw [List.getElem?_append_left hlt] at hj
          rwa [← h₁.baseOffset_getElem? hj]
        · rw [List.getElem?_append_right le_rfl, Nat.sub_self] at hj
          obtain rfl : s = s' := by simpa using hj
          rwa [List.take_of_length_le hlen₁.le, ← hs]
      rw [List.drop_append_of_le_length hvisit, h₁.readAll_drop_append hbase]
  · obtain ⟨k, rfl⟩ := Nat.exists_eq_add_of_lt hpast
    have hget : segs₂[k]? = some s' := by
      rw [List.getElem?_append_right (by omega), Nat.add_assoc, Nat.add_sub_cancel_left,
        List.getElem?_cons_succ] at hj
      exact hj
    have hbase := h₂.baseOffset_getElem? hget
    have hne : segs₂ ≠ [] := by
      rintro rfl
      cases hget
    have hskip : (segs₁ ++ s :: segs₂).drop (segs₁.length + k + 1) = segs₂.drop k := by
      rw [List.drop_append, List.drop_eq_nil_of_le (by omega), List.nil_append,
        show segs₁.length + k + 1 - segs₁.length = k + 1 by omega, List.drop_succ_cons]
    refine Or.inr ⟨⟨hne, by omega⟩, ?_⟩
    have hread : readAll dir offset (segs₂.drop k ++ []) = readAll dir offset (segs₂ ++ []) :=
      h₂.readAll_drop_append (by omega)
    rw [List.append_nil, List.append_nil] at hread
    rw [hskip, hread]

end Log

end Pyka
