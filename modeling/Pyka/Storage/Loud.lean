import Pyka.Storage.Damage
import Pyka.Storage.Reached
import Pyka.Storage.WellFormed

/-!
# Damage that a read does not notice

A read of a log in whose files a bit has been flipped should raise, or give
the records that were there. Opening a log holds every record against the
offset it ought to have and every segment against the one before; a read does
neither. So two kinds of damage pass: an offset that has changed, which the
checksum does not cover, and a size that reaches past the end of a segment
behind which there are more, which the read takes for the end of the last one.
`Log.loud_iff` says that there are no others, for every bit and every offset.

## What a read does not notice

The read has to come to the damaged record: it visits the segment, and the
index does not send it past the record (`Log.ComesTo`). The bit has to be in
one of the two fields that no checksum covers. And the outcome has to be wrong
in what is yielded (`Log.Unnoticed`): a record under another offset among the
others, or records that are left out between others. Damage that ends a read
in the last segment leaves a shorter list that still counts up, and a read
that yields the records up to some place is right as far as it goes; that
nothing is raised then is what a torn tail is meant to look like.

## The chain around the damage

The damaged segment has a chain before it and a chain behind it, both as they
were (`Log.Hit`). A read of the log is then a read of three parts, of which
the middle one is what `Pyka.Storage.Damage` says, and the case distinction of
the theorem is the one made there, carried through the concatenation. That
records follow the segment is what turns a segment that ends early into a
hole.
-/

namespace Pyka

open Struct (Bytes Field)
open Record (framing)

/-! ## Records that count up from an offset -/

namespace Consecutive

variable {base offset : ℤ} {rs rs' : List Record} {r : Record}

/-- Those at or past an offset count up from there. -/
theorem drop_toNat (h : Consecutive base rs) (hle : base ≤ offset) :
    Consecutive offset (rs.drop (offset - base).toNat) := by
  rcases le_total (offset - base).toNat rs.length with hlt | hge
  · have hdrop := h.drop hlt
    rwa [show base + ((offset - base).toNat : ℤ) = offset by omega] at hdrop
  · rw [List.drop_eq_nil_of_le hge]
    trivial

/-- A record behind others has the offset that comes next. -/
theorem offset_of_append (h : Consecutive offset (rs ++ r :: rs')) :
    r.offset = offset + rs.length :=
  (append_iff.mp h).2.1

theorem offset_lt (h : Consecutive base rs) (hr : r ∈ rs) : r.offset < base + rs.length := by
  obtain ⟨i, hi⟩ := List.getElem?_of_mem hr
  obtain ⟨hlt, -⟩ := List.getElem?_eq_some_iff.mp hi
  rw [h.offset_getElem hi]
  omega

/-- **Leaving out the middle** of consecutive records leaves a gap, unless
nothing follows. -/
theorem drop_append_iff {mid : List Record} (h : Consecutive base (rs ++ (mid ++ rs')))
    (hmid : mid ≠ []) (hle : base ≤ offset)
    (hlt : rs' ≠ [] → offset < base + rs.length + mid.length) :
    Consecutive offset (rs.drop (offset - base).toNat
      ++ rs'.drop (offset - (base + rs.length + mid.length)).toNat) ↔ rs' = [] := by
  obtain ⟨hrs, hrest⟩ := append_iff.mp h
  constructor
  · intro hcons
    by_contra hne
    have hlt := hlt hne
    obtain ⟨r, rs'', rfl⟩ := List.exists_cons_of_ne_nil hne
    have hr := (append_iff.mp hrest).2.1
    have hpos := List.length_pos_iff.mpr hmid
    rw [show (offset - (base + rs.length + mid.length)).toNat = 0 by omega, List.drop_zero] at hcons
    have := hcons.offset_of_append
    rw [List.length_drop] at this
    omega
  · rintro rfl
    rw [List.drop_nil, List.append_nil]
    exact hrs.drop_toNat hle

/-- **A record of another offset** among consecutive records is seen, where it
is yielded or where records follow the one it has taken the place of. -/
theorem renumbered_iff {r' : Record} (h : Consecutive base (rs ++ r :: rs')) (hle : base ≤ offset)
    (hne : r'.offset ≠ r.offset) (c : Prop) [Decidable c] :
    (Consecutive offset (rs.drop (offset - base).toNat
          ++ ((if c then [r'] else []) ++ rs'.drop (offset - (r.offset + 1)).toNat))
        ∧ ∀ r₀ ∈ rs.drop (offset - base).toNat
          ++ ((if c then [r'] else []) ++ rs'.drop (offset - (r.offset + 1)).toNat),
          r₀ ∈ rs ++ r :: rs')
      ↔ ¬(c ∨ offset ≤ r.offset ∧ rs' ≠ []) := by
  obtain ⟨hrs, hr, hrs'⟩ := append_iff.mp h
  rw [← hr] at hrs'
  constructor
  · rintro ⟨hcons, hmem⟩ (hc | ⟨hoff, hne'⟩)
    · -- the record takes a place
      rw [if_pos hc, List.singleton_append] at hcons hmem
      have hplace := hcons.offset_of_append
      rw [List.length_drop] at hplace
      have hlate : r.offset < offset := by omega
      have hoff' : r'.offset = offset := by omega
      rw [List.drop_eq_nil_of_le (by omega), List.nil_append] at hcons hmem
      rcases List.mem_append.mp (hmem r' List.mem_cons_self) with hin | hin
      · have := hrs.offset_lt hin
        omega
      rcases List.mem_cons.mp hin with rfl | hin
      · exact hne rfl
      -- it has the offset of a record that comes behind it
      have hlt := hrs'.offset_lt hin
      have hi : (offset - (r.offset + 1)).toNat < rs'.length := by omega
      rw [List.drop_eq_getElem_cons hi] at hcons
      have hnext := hcons.2.1
      rw [hrs'.offset_getElem (List.getElem?_eq_getElem hi)] at hnext
      omega
    · -- a record is left out
      by_cases hc : c
      · rw [if_pos hc, List.singleton_append] at hcons
        have hplace := hcons.offset_of_append
        rw [List.length_drop] at hplace
        omega
      · obtain ⟨y, ys, rfl⟩ := List.exists_cons_of_ne_nil hne'
        rw [if_neg hc, List.nil_append, show (offset - (r.offset + 1)).toNat = 0 by omega,
          List.drop_zero] at hcons
        have hplace := hcons.offset_of_append
        have hy := hrs'.1
        rw [List.length_drop] at hplace
        omega
  · intro hnot
    obtain ⟨hc, hrest⟩ := not_or.mp hnot
    rw [if_neg hc, List.nil_append]
    refine ⟨?_, fun r₀ hr₀ => ?_⟩
    · by_cases hoff : offset ≤ r.offset
      · have hnil : rs' = [] := by
          by_contra hne'
          exact hrest ⟨hoff, hne'⟩
        rw [hnil, List.drop_nil, List.append_nil]
        exact hrs.drop_toNat hle
      · rw [List.drop_eq_nil_of_le (by omega), List.nil_append]
        exact hrs'.drop_toNat (by omega)
    · rcases List.mem_append.mp hr₀ with hr₀ | hr₀
      · exact List.mem_append_left _ (List.mem_of_mem_drop hr₀)
      · exact List.mem_append_right _ (List.mem_cons_of_mem _ (List.mem_of_mem_drop hr₀))

end Consecutive

namespace Log

section Codec

variable [Crc32]

/-! ## Loud reads -/

/-- **A read that is loud or right**, of a log whose directory was `dir` and is
`dir'`: if nothing is raised, the records yielded count up from the offset,
and they are the records that were there. -/
def Loud (l : Log) (dir dir' : Dir) (offset : ℤ) : Prop :=
  ∀ there rd, l.readFrom dir l.firstBase = .ok there → l.readFrom dir' offset = .ok rd →
    rd.raised = none → Consecutive offset rd.records ∧ ∀ r ∈ rd.records, r ∈ there.records

/-- A read of an offset **comes to a record** of a segment: it visits the
segment, and the index sends it to that record or to one before. -/
def ComesTo (l : Log) (s : Segment) (r : Record) (offset : ℤ) : Prop :=
  (offset < s.nextOffset ∨ s.baseOffset = l.active.baseOffset)
    ∧ (s.index.lookup (max offset s.baseOffset)).1 ≤ r.offset

/-- **Damage a read does not notice**, bit `p` of a segment's file. It is in a
record that the read comes to. Either it makes another offset of the record's,
and the read takes the record for one that was asked for or leaves it out
between others; or it makes of its size one that reaches past the end of the
file, and there are records behind the segment. -/
def Unnoticed (l : Log) (s : Segment) (bs : Bytes) (p : ℕ) (offset : ℤ) : Prop :=
  ∃ rs₁ r rs₂, WellFormed s.baseOffset bs (rs₁ ++ r :: rs₂) [] ∧ l.ComesTo s r offset
    ∧ let start := (framing.encAll rs₁).length
      let rest := (flipBit bs p).drop start
      (start ≤ p / 8 ∧ p / 8 < start + 8
        ∧ (max offset s.baseOffset ≤ Field.q.value (rest.take 8)
          ∨ offset ≤ r.offset ∧ r.offset + 1 < l.nextOffset))
      ∨ (start + 8 ≤ p / 8 ∧ p / 8 < start + 12
        ∧ Record.claimed rest ≤ Record.maxSize ∧ rest.length < 12 + Record.claimed rest
        ∧ s.nextOffset < l.nextOffset)

end Codec

section Standard

attribute [local instance] standardCrc32

/-! ## A log with a damaged segment -/

/-- **A log one of whose files is damaged**, the bit being in `r`: the segments
before and behind that file are as they were. -/
structure Hit (l : Log) (dir : Dir) (base : ℤ) (s : Segment) (segs₁ segs₂ : List Segment)
    (css₁ css₂ : List (List Record)) (rs₁ : List Record) (r : Record) (rs₂ : List Record)
    (p : ℕ) : Prop where
  segments : l.segments = segs₁ ++ s :: segs₂
  increasing : (l.segments.map Segment.baseOffset).Pairwise (· < ·)
  before : Linked dir.logs.view base segs₁ css₁
  place : s.baseOffset = base + css₁.flatten.length
  damaged : s.Damaged dir.logs.view rs₁ r rs₂ p
  behind : Linked dir.logs.view s.nextOffset segs₂ css₂
  firstBase : l.firstBase = base
  consecutive : Consecutive base (css₁.flatten ++ rs₁ ++ r :: (rs₂ ++ css₂.flatten))
  next : l.nextOffset = base + ((css₁.flatten ++ rs₁ ++ r :: (rs₂ ++ css₂.flatten)).length : ℕ)

/-- Every damage is of this kind. -/
theorem Serves.exists_hit {l : Log} {dir : Dir} {base : ℤ} {rss : List (List Record)}
    {rs : List Record} (h : l.Serves dir.logs.view base rss rs []) {s : Segment}
    (hs : s ∈ l.segments) {p : ℕ} (hp : p / 8 < ((Disk.of dir).content s.baseOffset).length) :
    ∃ segs₁ segs₂ css₁ css₂ rs₁ r rs₂,
      l.Hit (dir.flipBit s.baseOffset p) base s segs₁ segs₂ css₁ css₂ rs₁ r rs₂ p
        ∧ css₁.flatten ++ rs₁ ++ r :: (rs₂ ++ css₂.flatten) = rss.flatten ++ rs
        ∧ WellFormed s.baseOffset ((Disk.of dir).content s.baseOffset) (rs₁ ++ r :: rs₂) [] := by
  obtain ⟨segs₁, segs₂, css₁, c, css₂, hsegs, hcss, h₁, hc, hplace, ⟨f, hf, hcontent⟩, h₂⟩ :=
    h.linked.exists_of_mem hs
  have hbytes : (Disk.of dir).content s.baseOffset = framing.encAll c := by
    rw [Disk.content_eq, Disk.view_of, hf, Option.getD_some, hcontent]
  rw [hbytes] at hp ⊢
  obtain ⟨rs₁, r, rs₂, rfl, hlow, hhigh⟩ := framing.exists_enc_of_lt hp
  rw [Record.enc_framing, Record.length_frame] at hhigh
  have hincreasing := h.increasing
  have hsplit := hincreasing
  rw [hsegs, List.map_append, List.map_cons, List.pairwise_append, List.pairwise_cons] at hsplit
  -- the other files are as they were
  have hview := Dir.view_flipBit hf p
  have hother : ∀ b, b ≠ s.baseOffset →
      (dir.flipBit s.baseOffset p).logs.view b = dir.logs.view b := fun b hb => by
    rw [hview, Function.update_of_ne hb]
  have hflat : css₁.flatten ++ rs₁ ++ r :: (rs₂ ++ css₂.flatten) = rss.flatten ++ rs := by
    have := congrArg List.flatten hcss
    simp only [List.flatten_append, List.flatten_cons, List.flatten_nil, List.append_nil] at this
    rw [this]
    simp
  refine ⟨segs₁, segs₂, css₁, css₂, rs₁, r, rs₂,
    ⟨hsegs, hincreasing, ?_, hplace, ⟨hc, ?_, hlow, hhigh⟩,
    ?_, h.firstBase_eq, hflat ▸ h.records.2, hflat ▸ h.nextOffset_eq⟩, hflat, ?_⟩
  · refine h₁.congr fun s' hs' => hother _ (ne_of_lt ?_)
    exact hsplit.2.2 _ (List.mem_map_of_mem hs') _ List.mem_cons_self
  · exact ⟨_, by rw [hview, Function.update_self], by rw [hcontent]⟩
  · rw [hc.next]
    refine h₂.congr fun s' hs' => hother _ (ne_of_gt ?_)
    exact hsplit.2.1.1 _ (List.mem_map_of_mem hs')
  · exact ⟨(List.append_nil _).symm, hc.valid, hc.consecutive, Record.torn_nil⟩

namespace Hit

variable {l : Log} {dir : Dir} {base offset : ℤ} {s : Segment} {segs₁ segs₂ : List Segment}
  {css₁ css₂ : List (List Record)} {rs₁ rs₂ : List Record} {r : Record} {p : ℕ}

/-- Nothing is behind the active segment, and it is the only such one. -/
theorem behind_eq_nil_iff (h : l.Hit dir base s segs₁ segs₂ css₁ css₂ rs₁ r rs₂ p) :
    segs₂ = [] ↔ s.baseOffset = l.active.baseOffset := by
  have hsegs := h.segments
  have hpw := h.increasing
  unfold Log.segments at hsegs hpw
  constructor
  · rintro rfl
    have hlast := (List.append_inj' hsegs rfl).2
    rw [List.singleton_inj.mp hlast]
  · intro hb
    by_contra hne
    obtain ⟨segs, s', rfl⟩ := (List.eq_nil_or_concat segs₂).resolve_left hne
    have hassoc : segs₁ ++ s :: segs.concat s' = (segs₁ ++ s :: segs) ++ [s'] := by simp
    obtain ⟨hfront, hlast⟩ := List.append_inj' (hsegs.trans hassoc) rfl
    obtain rfl := List.singleton_inj.mp hlast
    rw [List.map_append, List.pairwise_append, hfront] at hpw
    have hlt := hpw.2.2 s.baseOffset (by simp) l.active.baseOffset (by simp)
    omega

/-- What a read of the log comes to: it visits the damaged segment, or starts
behind it. -/
theorem readFrom_cases (h : l.Hit dir base s segs₁ segs₂ css₁ css₂ rs₁ r rs₂ p)
    (hoff : base ≤ offset) :
    (offset < s.nextOffset ∨ s.baseOffset = l.active.baseOffset)
        ∧ l.readFrom dir offset = .ok (readAll dir offset (segs₁ ++ s :: segs₂))
      ∨ ¬(offset < s.nextOffset ∨ s.baseOffset = l.active.baseOffset)
        ∧ l.readFrom dir offset = .ok ⟨(css₁.flatten ++ rs₁ ++ r :: (rs₂ ++ css₂.flatten)).drop
            (offset - base).toNat, none⟩ := by
  have hbehind := h.behind
  have hpw := h.increasing
  rw [h.segments] at hpw
  rw [h.damaged.holds.next] at hbehind
  have hread : l.readFrom dir offset
      = .ok (readAll dir offset (segmentsFrom (segs₁ ++ s :: segs₂) offset)) := by
    unfold Log.readFrom
    rw [if_neg (by rw [h.firstBase]; omega), iterFrom, h.segments]
  rw [hread, ← h.behind_eq_nil_iff]
  rcases readAll_segmentsFrom hpw h.before h.place hbehind hoff with ⟨hvisit, heq⟩ | ⟨hnot, heq⟩
  · rw [← h.damaged.holds.next] at hvisit
    exact Or.inl ⟨hvisit.symm, by rw [heq]⟩
  · rw [← h.damaged.holds.next] at hnot hbehind
    refine Or.inr ⟨fun hor => ?_, ?_⟩
    · rcases hor with hlt | hnil
      · omega
      · exact hnot.1 hnil
    · have hnext := h.damaged.holds.next
      have hplace := h.place
      rw [List.length_append, List.length_cons] at hnext
      have hdrop : (css₁.flatten ++ rs₁ ++ r :: rs₂).drop (offset - base).toNat = [] :=
        List.drop_eq_nil_of_le (by
          simp only [List.length_append, List.length_cons]
          omega)
      rw [heq, hbehind.readAll_eq, ← List.cons_append, ← List.append_assoc, List.drop_append, hdrop,
        List.nil_append]
      congr 3
      simp only [List.length_append, List.length_cons]
      omega

/-- A read that visits the segment and finds no exception there. -/
theorem readAll_of_iterFrom (h : l.Hit dir base s segs₁ segs₂ css₁ css₂ rs₁ r rs₂ p)
    {rs : List Record} (hiter : s.iterFrom dir (max offset s.baseOffset) = ⟨rs, none⟩) :
    readAll dir offset (segs₁ ++ s :: segs₂) = ⟨css₁.flatten.drop (offset - base).toNat
      ++ (rs ++ css₂.flatten.drop (offset - s.nextOffset).toNat), none⟩ := by
  rw [h.before.readAll_append, readAll, Segment.readFrom,
    if_neg (not_lt.mpr (le_max_right _ _)), hiter]
  simp only [h.behind.readAll_eq]

/-- And one that finds one. -/
theorem raised_of_iterFrom (h : l.Hit dir base s segs₁ segs₂ css₁ css₂ rs₁ r rs₂ p)
    (hiter : (s.iterFrom dir (max offset s.baseOffset)).raised ≠ none) :
    (readAll dir offset (segs₁ ++ s :: segs₂)).raised ≠ none := by
  rw [h.before.readAll_append, readAll, Segment.readFrom, if_neg (not_lt.mpr (le_max_right _ _))]
  generalize s.iterFrom dir (max offset s.baseOffset) = rd at hiter
  obtain ⟨rs, raised⟩ := rd
  cases raised with
  | none => exact absurd rfl hiter
  | some e => simp

/-- The records before the damage, in the segment and before it. -/
theorem drop_before (h : l.Hit dir base s segs₁ segs₂ css₁ css₂ rs₁ r rs₂ p) :
    css₁.flatten.drop (offset - base).toNat
        ++ rs₁.drop (max offset s.baseOffset - s.baseOffset).toNat
      = (css₁.flatten ++ rs₁).drop (offset - base).toNat := by
  have hplace := h.place
  rw [List.drop_append]
  congr 2
  omega

/-- And those behind it. -/
theorem drop_behind (h : l.Hit dir base s segs₁ segs₂ css₁ css₂ rs₁ r rs₂ p) :
    rs₂.drop (max offset s.baseOffset - (r.offset + 1)).toNat
        ++ css₂.flatten.drop (offset - s.nextOffset).toNat
      = (rs₂ ++ css₂.flatten).drop (offset - (r.offset + 1)).toNat := by
  have hoffset := h.damaged.offset_eq
  have hnext := h.damaged.holds.next
  rw [List.length_append, List.length_cons] at hnext
  rw [List.drop_append]
  congr 2 <;> omega

/-- Whether records follow the segment. -/
theorem next_lt_iff (h : l.Hit dir base s segs₁ segs₂ css₁ css₂ rs₁ r rs₂ p) :
    s.nextOffset < l.nextOffset ↔ css₂.flatten ≠ [] := by
  have hnext := h.damaged.holds.next
  have hplace := h.place
  have hlnext := h.next
  simp only [List.length_append, List.length_cons] at hnext hlnext
  rw [← List.length_pos_iff]
  omega

/-- Whether records follow the damaged one. -/
theorem offset_lt_iff (h : l.Hit dir base s segs₁ segs₂ css₁ css₂ rs₁ r rs₂ p) :
    r.offset + 1 < l.nextOffset ↔ rs₂ ++ css₂.flatten ≠ [] := by
  have hoffset := h.damaged.offset_eq
  have hplace := h.place
  have hlnext := h.next
  simp only [List.length_append, List.length_cons] at hlnext
  rw [← List.length_pos_iff, List.length_append]
  omega

/-- A read that visits the segment, where records follow it, asks for one
before them. -/
theorem lt_of_visits (h : l.Hit dir base s segs₁ segs₂ css₁ css₂ rs₁ r rs₂ p)
    (hvisit : offset < s.nextOffset ∨ s.baseOffset = l.active.baseOffset)
    (hne : css₂.flatten ≠ []) : offset < s.nextOffset := by
  refine hvisit.resolve_right fun hlast => hne ?_
  have hlen := h.behind.length_eq
  rw [h.behind_eq_nil_iff.mpr hlast] at hlen
  rw [List.length_eq_zero_iff.mp hlen]
  rfl

/-- A read that the index sends past the damage. -/
theorem readAll_past (h : l.Hit dir base s segs₁ segs₂ css₁ css₂ rs₁ r rs₂ p)
    (hpast : r.offset < (s.index.lookup (max offset s.baseOffset)).1) :
    readAll dir offset (segs₁ ++ s :: segs₂)
      = ⟨(css₁.flatten ++ rs₁ ++ r :: (rs₂ ++ css₂.flatten)).drop (offset - base).toNat, none⟩ := by
  have hplace := h.place
  have hnext := h.damaged.holds.next
  rw [List.length_append, List.length_cons] at hnext
  rw [h.readAll_of_iterFrom (h.damaged.iterFrom_past (le_max_right _ _) hpast)]
  have hassoc : css₁.flatten ++ rs₁ ++ r :: (rs₂ ++ css₂.flatten)
      = css₁.flatten ++ ((rs₁ ++ r :: rs₂) ++ css₂.flatten) := by simp
  have hin : (max offset s.baseOffset - s.baseOffset).toNat
      = (offset - base).toNat - css₁.flatten.length := by omega
  have hbehind : (offset - s.nextOffset).toNat
      = (offset - base).toNat - css₁.flatten.length - (rs₁ ++ r :: rs₂).length := by
    rw [List.length_append, List.length_cons]
    omega
  rw [hassoc, hin, hbehind]
  generalize rs₁ ++ r :: rs₂ = c
  rw [List.drop_append, List.drop_append]

/-- A read that finds a record of another offset. -/
theorem readAll_renumbered (h : l.Hit dir base s segs₁ segs₂ css₁ css₂ rs₁ r rs₂ p)
    (hmet : (s.index.lookup (max offset s.baseOffset)).1 ≤ r.offset) {r' : Record}
    (henc' : r'.Encodable) (hne : r'.offset ≠ r.offset)
    (hrest : Segment.damagedRest rs₁ r rs₂ p = r'.frame ++ framing.encAll rs₂) :
    readAll dir offset (segs₁ ++ s :: segs₂)
      = ⟨(css₁.flatten ++ rs₁).drop (offset - base).toNat
        ++ ((if max offset s.baseOffset ≤ r'.offset then [r'] else [])
          ++ (rs₂ ++ css₂.flatten).drop (offset - (r.offset + 1)).toNat), none⟩ := by
  rw [h.readAll_of_iterFrom
    (h.damaged.iterFrom_renumbered (le_max_right _ _) hmet henc' hne hrest), ← h.drop_before,
    ← h.drop_behind]
  simp only [List.append_assoc]

/-- A read that takes the damage for the end of the segment. -/
theorem readAll_short (h : l.Hit dir base s segs₁ segs₂ css₁ css₂ rs₁ r rs₂ p)
    (hmet : (s.index.lookup (max offset s.baseOffset)).1 ≤ r.offset)
    (htorn : Record.Torn (Segment.damagedRest rs₁ r rs₂ p)) :
    readAll dir offset (segs₁ ++ s :: segs₂)
      = ⟨(css₁.flatten ++ rs₁).drop (offset - base).toNat
        ++ css₂.flatten.drop (offset - s.nextOffset).toNat, none⟩ := by
  rw [h.readAll_of_iterFrom (h.damaged.iterFrom_short (le_max_right _ _) hmet htorn),
    ← h.drop_before, List.append_assoc]

end Hit

/-- **Unnoticed damage**, in the record that the bit is in. -/
theorem unnoticed_iff {l : Log} {s : Segment} {bs : Bytes} {p : ℕ} {offset : ℤ}
    {rs₁ rs₂ : List Record} {r : Record} (hw : WellFormed s.baseOffset bs (rs₁ ++ r :: rs₂) [])
    (hlow : (framing.encAll rs₁).length ≤ p / 8)
    (hhigh : p / 8 < (framing.encAll rs₁).length + r.size) :
    l.Unnoticed s bs p offset ↔ l.ComesTo s r offset
      ∧ let start := (framing.encAll rs₁).length
        let rest := Segment.damagedRest rs₁ r rs₂ p
        (p / 8 < start + 8 ∧ (max offset s.baseOffset ≤ Field.q.value (rest.take 8)
            ∨ offset ≤ r.offset ∧ r.offset + 1 < l.nextOffset))
          ∨ (start + 8 ≤ p / 8 ∧ p / 8 < start + 12
            ∧ Record.claimed rest ≤ Record.maxSize ∧ rest.length < 12 + Record.claimed rest
            ∧ s.nextOffset < l.nextOffset) := by
  have hrest : (flipBit bs p).drop (framing.encAll rs₁).length
      = Segment.damagedRest rs₁ r rs₂ p := by
    rw [hw.content, List.append_nil, Segment.drop_flipBit hlow, List.drop_left]
    rfl
  constructor
  · rintro ⟨rs₁', r', rs₂', hw', hcomes, hkind⟩
    obtain ⟨heq, -⟩ := hw.unique hw'
    have hsize' := r'.size_eq
    -- there is one record that the bit is in
    obtain ⟨rfl, rfl, rfl⟩ := framing.enc_unique heq (i := p / 8) (by dsimp only at hkind; omega)
      (by rw [Record.enc_framing, Record.length_frame]; dsimp only at hkind; omega) hlow
      (by rwa [Record.enc_framing, Record.length_frame])
    dsimp only at hkind
    rw [hrest] at hkind
    exact ⟨hcomes, hkind.imp And.right id⟩
  · rintro ⟨hcomes, hkind⟩
    refine ⟨rs₁, r, rs₂, hw, hcomes, ?_⟩
    dsimp only at hkind ⊢
    rw [hrest]
    exact hkind.imp (And.intro hlow) id

/-- **Exactly when reads of a damaged log are loud or right**: for every bit of
a file that has been flipped and every offset, where the damage is not of the
kind that a read does not notice. -/
theorem loud_iff {l : Log} {dir : Dir} (h : Reached l dir) {s : Segment} (hs : s ∈ l.segments)
    {p : ℕ} (hp : p / 8 < ((Disk.of dir).content s.baseOffset).length) {offset : ℤ}
    (hoff : l.firstBase ≤ offset) :
    l.Loud dir (dir.flipBit s.baseOffset p) offset
      ↔ ¬l.Unnoticed s ((Disk.of dir).content s.baseOffset) p offset := by
  obtain ⟨base, rss, rs, hserves, -⟩ := h.serves
  obtain ⟨segs₁, segs₂, css₁, css₂, rs₁, r, rs₂, hit, hflat, hw⟩ := hserves.exists_hit hs hp
  have hbase : base ≤ offset := hserves.firstBase_eq ▸ hoff
  have hthere := hserves.readFrom Record.torn_nil (le_refl base)
  rw [sub_self, Int.toNat_zero, List.drop_zero, ← hflat, ← hserves.firstBase_eq] at hthere
  have hloud : ∀ {rd}, l.readFrom (dir.flipBit s.baseOffset p) offset = .ok rd →
      (l.Loud dir (dir.flipBit s.baseOffset p) offset ↔ (rd.raised = none →
        Consecutive offset rd.records
          ∧ ∀ r₀ ∈ rd.records, r₀ ∈ css₁.flatten ++ rs₁ ++ r :: (rs₂ ++ css₂.flatten))) := by
    intro rd hrd
    constructor
    · exact fun hl => hl _ rd hthere hrd
    · intro hl there rd' hthere' hrd'
      cases hthere.symm.trans hthere'
      cases hrd.symm.trans hrd'
      exact hl
  rw [unnoticed_iff hw hit.damaged.low hit.damaged.high]
  rcases hit.readFrom_cases hbase with ⟨hvisit, hread⟩ | ⟨hnot, hread⟩
  swap
  · -- the read starts behind the segment
    rw [hloud hread]
    exact iff_of_true (fun _ => ⟨hit.consecutive.drop_toNat hbase, fun _ => List.mem_of_mem_drop⟩)
      fun hu => hnot hu.1.1
  rw [hloud hread]
  rcases lt_or_ge r.offset (s.index.lookup (max offset s.baseOffset)).1 with hpast | hmet
  · -- the index sends the read past the damage
    rw [hit.readAll_past hpast]
    exact iff_of_true (fun _ => ⟨hit.consecutive.drop_toNat hbase, fun _ => List.mem_of_mem_drop⟩)
      fun hu => absurd hu.1.2 (not_le.mpr hpast)
  have hlow := hit.damaged.low
  have hhigh := hit.damaged.high
  rw [and_iff_right (show l.ComesTo s r offset from ⟨hvisit, hmet⟩)]
  dsimp only
  rcases lt_or_ge (p / 8) ((framing.encAll rs₁).length + 8) with hfield | hfield
  · -- the offset field
    obtain ⟨r', henc', hne, hvalue, hframe⟩ := Record.frame_flipBit_offset
      (s := framing.encAll rs₂) (p := p - 8 * (framing.encAll rs₁).length) hit.damaged.encodable
      (by omega)
    rw [hit.readAll_renumbered hmet henc' hne hframe,
      show Field.q.value ((Segment.damagedRest rs₁ r rs₂ p).take 8) = r'.offset from hvalue.symm,
      hit.offset_lt_iff]
    have hiff := hit.consecutive.renumbered_iff hbase hne (max offset s.baseOffset ≤ r'.offset)
    rw [and_iff_right hfield, or_iff_left (fun hsize => absurd hsize.1 (not_le.mpr hfield)), ← hiff]
    exact ⟨fun hright => hright rfl, fun hright _ => hright⟩
  · rw [or_iff_right (fun hoffset => absurd hoffset.1 (not_lt.mpr hfield))]
    rcases Record.read_flipBit_rest (s := framing.encAll rs₂)
      (p := p - 8 * (framing.encAll rs₁).length) hit.damaged.encodable (by omega) (by omega) with
      ⟨e, he⟩ | htorn
    · -- no record can be read
      have hraised := hit.raised_of_iterFrom
        (hit.damaged.iterFrom_raises (le_max_right offset _) hmet he)
      refine iff_of_true (fun hnone => absurd hnone hraised) fun ⟨_, _, hmax, hlong, _⟩ => ?_
      have htorn : Record.Torn (Segment.damagedRest rs₁ r rs₂ p) := Or.inr ⟨hmax, hlong⟩
      have hnone := (Record.read_eq_none_iff _).mpr htorn
      cases he.symm.trans hnone
    · -- the size field
      obtain ⟨hfield', hmax, hlong⟩ := (Record.torn_flipBit_iff hit.damaged.encodable
        (by omega)).mp htorn
      have hend : base + (css₁.flatten ++ rs₁).length + (r :: rs₂).length = s.nextOffset := by
        rw [hit.damaged.holds.next, hit.place]
        simp only [List.length_append, List.length_cons]
        push_cast
        ring
      have hgap : Consecutive offset ((css₁.flatten ++ rs₁).drop (offset - base).toNat
          ++ css₂.flatten.drop (offset - s.nextOffset).toNat) ↔ css₂.flatten = [] := by
        rw [← hend]
        exact Consecutive.drop_append_iff hit.consecutive (List.cons_ne_nil r rs₂) hbase
          fun hne => hend ▸ hit.lt_of_visits hvisit hne
      rw [hit.readAll_short hmet htorn, hit.next_lt_iff]
      constructor
      · rintro hright ⟨-, -, -, -, hne⟩
        exact hne (hgap.mp (hright rfl).1)
      · intro hnot _
        have hnone : css₂.flatten = [] := by
          by_contra hne
          exact hnot ⟨hfield, by omega, hmax, by rwa [Segment.damagedRest, length_flipBit], hne⟩
        refine ⟨hgap.mpr hnone, fun r₀ hr₀ => ?_⟩
        rw [hnone, List.drop_nil, List.append_nil] at hr₀
        exact List.mem_append_left _ (List.mem_of_mem_drop hr₀)

/-! ## Two segments -/

/-- A log of two records, each in a segment of its own. -/
def two : Log × Dir := appended full none none (some 0) 0

theorem reached_two : Reached two.1 two.2 := reached_full.appended none none (some 0) 0

/-- The first of its segments. -/
theorem exists_first_two : ∃ s ∈ two.1.segments, s.baseOffset = 0 ∧ s.nextOffset = 1 := by
  have hsegs : two.1.segments.map (fun s => (s.baseOffset, s.nextOffset)) = [(0, 1), (1, 2)] := by
    decide +kernel
  have hmem : ((0, 1) : ℤ × ℤ) ∈ two.1.segments.map fun s => (s.baseOffset, s.nextOffset) :=
    hsegs ▸ List.mem_cons_self
  obtain ⟨s, hs, heq⟩ := List.mem_map.mp hmem
  exact ⟨s, hs, congrArg Prod.fst heq, congrArg Prod.snd heq⟩

/-- **Damage that a read comes to**: a bit of the first record's checksum is
flipped. The read from the start of the log is loud about it, and that from
offset 1, behind it, is right. -/
theorem loud_iff_two : two.1.Loud two.2 (two.2.flipBit 0 96) 0
    ∧ (two.1.readFrom (two.2.flipBit 0 96) 0).toOption.map (fun rd => rd.raised.isSome) = some true
    ∧ two.1.Loud two.2 (two.2.flipBit 0 96) 1
    ∧ two.1.readFrom (two.2.flipBit 0 96) 1 = .ok ⟨[⟨1, 0, none, none⟩], none⟩ := by
  obtain ⟨s, hs, hb, -⟩ := exists_first_two
  have hp : 96 / 8 < ((Disk.of two.2).content s.baseOffset).length := by
    rw [hb]
    decide +kernel
  -- the bit is in the checksum of whichever record it is in
  have hnoticed :
      ∀ offset, ¬two.1.Unnoticed s ((Disk.of two.2).content s.baseOffset) 96 offset := by
    rintro offset ⟨rs₁, r, rs₂, -, -, hkind⟩
    have hstart : (framing.encAll rs₁).length = 0 ∨ 32 ≤ (framing.encAll rs₁).length := by
      cases rs₁ with
      | nil => exact Or.inl rfl
      | cons r₁ rs₁ =>
        refine Or.inr ?_
        rw [framing.encAll_cons, List.length_append, Record.enc_framing, Record.length_frame,
          Record.size_eq]
        omega
    dsimp only at hkind
    omega
  have hloud : ∀ offset, two.1.firstBase ≤ offset → two.1.Loud two.2 (two.2.flipBit 0 96) offset :=
    fun offset hoff => by
      have hiff := loud_iff reached_two hs hp hoff
      rw [hb] at hiff hnoticed
      exact hiff.mpr (hnoticed offset)
  exact ⟨hloud 0 (by decide +kernel), by decide +kernel, hloud 1 (by decide +kernel),
    by decide +kernel⟩

/-- **A record is skipped without a word**: bit 10 of the size of the first
record has been flipped, and the read goes on with the second. -/
theorem skips_record : ¬∀ (l : Log) (dir : Dir), Reached l dir → ∀ s ∈ l.segments, ∀ p,
    p / 8 < ((Disk.of dir).content s.baseOffset).length → ∀ offset, l.firstBase ≤ offset →
      l.Loud dir (dir.flipBit s.baseOffset p) offset := by
  intro hall
  obtain ⟨s, hs, hb, -⟩ := exists_first_two
  have hloud := hall two.1 two.2 reached_two s hs 82
  rw [hb] at hloud
  have hright := hloud (by decide +kernel) 0 (by decide +kernel)
    ⟨[⟨0, 0, none, none⟩, ⟨1, 0, none, none⟩], none⟩ ⟨[⟨1, 0, none, none⟩], none⟩
    (by decide +kernel) (by decide +kernel) rfl
  exact absurd hright.1.1 (by decide)

end Standard

end Log

end Pyka
