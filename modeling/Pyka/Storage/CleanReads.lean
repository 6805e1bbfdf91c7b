import Pyka.Storage.Growth

/-!
# A reader sees a clean run of records

Whatever writers do between its steps, a read yields the records from its
offset on, in order and without a gap, and at least those that were there when
it took its snapshot (`Interleaving.read_sees_clean_run`).

What carries this is that nothing a read has looked at ever changes. So it is
enough to say of a read how far into the one list of records it has got
(`Reader.Fits`); a place in a file is the start of a record in that list. A
record half written is one that `readOne` takes for the end of the file.

## How far a read has got

A read at record `k` has yielded, of the first `k` records of the log, those
it was asked for (`Reader.At`). In a segment it is at the start of a record,
and its place in the file is the length of the frames before; between two
segments it is at the base of the next. The segments of its snapshot are a
stretch of the chain, and this stretch ends no earlier than what was appended
when the snapshot was taken, which is why a read that comes to the end of it
has yielded at least that (`Reader.Due`).

## The end of a segment, and the end of the log

`readOne` says "no record" in two cases that a read cannot tell apart: the
file of a sealed segment is at its end, and the file of the tail is at the end
of what has been written so far. In the first the next segment starts where
this one ended; in the second the read is over, as no segment that was added
meanwhile is in its snapshot. A tail that was in the snapshot and is written
to while the read is in it shows more records than there were, and the read
yields them.

## That a read comes to its end

In every state a read that has not come to its end can take a step
(`read_goes_on`); it waits for the lock once, when it takes its snapshot. And
what it yields is what `Log.readFrom` answers, if nothing was appended while
it went on (`read_alone`). Both are part of the theorem.
-/

namespace Pyka

open Struct (Bytes)
open Record (framing)

variable [Crc32]

namespace Interleaving

/-- Where in its file a record of a segment starts. -/
def State.place (s : State) (base b : ℤ) (n : ℕ) : ℕ :=
  (framing.encAll ((s.all.drop (start base b)).take n)).length

section Shown

variable {s : State} {base b : ℤ} {rss : List (List Record)} {rs : List Record} {t : Bytes}

/-- What a record in flight has in the file are the first of its bytes. -/
theorem Writer.Ready.torn_inFlight {l : Log} {writer : Writer} (h : writer.Ready l rs t) :
    t <+: framing.encAll writer.inFlight := by
  cases writer with
  | writing r left =>
    refine ⟨left, ?_⟩
    rw [h.2.1]
    simp [Writer.inFlight, Record.enc_framing]
  | idle => rw [h.2]; exact List.nil_prefix
  | rolling next => rw [h.2.1]; exact List.nil_prefix
  | opening next => rw [h.2.1]; exact List.nil_prefix
  | appending r => rw [h.2.1]; exact List.nil_prefix

/-- **The records, the one in flight included**, count up and can be read. -/
theorem Writes.all_spec (h : Writes s base rss rs t) :
    (∀ r ∈ s.all, r.Encodable) ∧ Consecutive base s.all := by
  obtain ⟨hvalid, hcons⟩ := h.serves.records
  rw [← h.appended] at hvalid hcons
  have hready := h.ready
  unfold State.all
  cases hw : s.writer with
  | writing r left =>
    rw [hw] at hready
    obtain ⟨-, -, henc, hoff, -⟩ := hready
    rw [h.serves.nextOffset_eq, ← h.appended] at hoff
    refine ⟨fun r' hr' => ?_, Consecutive.append_iff.mpr ⟨hcons, Consecutive.singleton.mpr hoff⟩⟩
    rcases List.mem_append.mp hr' with hr' | hr'
    · exact hvalid r' hr'
    · rw [List.mem_singleton.mp hr']
      exact henc
  | _ => simpa [Writer.inFlight] using ⟨hvalid, hcons⟩

/-- **What a segment shows to a read**, in a state where writers may be at
work: its file is the front of the records from its base on, up to the next
segment at least and, if there is one, at most. -/
theorem Writes.segment (h : Writes s base rss rs t) {i : ℕ} (hi : s.bases[i]? = some b) :
    base ≤ b ∧ start base b ≤ s.all.length ∧ (s.disk.view b).isSome
      ∧ s.content b <+: framing.encAll (s.all.drop (start base b))
      ∧ start base b ≤ s.endOf base (i + 1)
      ∧ s.endOf base (i + 1) ≤ start base b + s.visible base b
      ∧ (i + 1 < s.bases.length → s.endOf base (i + 1) = start base b + s.visible base b)
      ∧ ∃ segment, s.log.segments[i]? = some segment ∧ segment.baseOffset = b
        ∧ ∀ offset, b ≤ offset → ∃ n, n ≤ s.visible base b ∧ b + n ≤ offset
          ∧ segment.index.lookup offset = (b + n, s.place base b n) := by
  obtain ⟨segment, hseg, rfl⟩ : ∃ segment, s.log.segments[i]? = some segment
      ∧ segment.baseOffset = b := by
    simpa [State.bases] using hi
  obtain ⟨pre, c, post, u, hall, hs, hb, ⟨f, hf, hcf⟩, hnext⟩ := h.serves.getElem? hseg
  have hvalid := h.all_spec.1
  have hfly := h.ready.torn_inFlight
  have hstart : start base segment.baseOffset = pre.length := by rw [start, hb]; omega
  have hdrop : s.all.drop pre.length = c ++ (post ++ s.writer.inFlight) := by
    rw [State.all, h.appended, hall, List.append_assoc, List.append_assoc, List.drop_left]
  have hlen : s.appended.length = pre.length + (c.length + post.length) := by
    rw [h.appended, hall, List.length_append, List.length_append]
  have hcontent : s.content segment.baseOffset = framing.encAll c ++ u := by
    have hlook : s.disk.dir.logs.lookup segment.baseOffset = some f := hf
    rw [State.content, hlook, Option.getD_some, hcf]
  have hpost : ∀ r ∈ post ++ s.writer.inFlight, framing.Valid r := fun r hr =>
    hvalid r (List.mem_of_mem_drop (hdrop ▸ List.mem_append_right c hr))
  have hvis : c.length ≤ s.visible base segment.baseOffset := by
    unfold State.visible
    rw [hstart, hdrop, hcontent]
    refine (framing.le_whole_iff _ _ _).mpr ⟨?_, ?_⟩
    · rw [List.length_append]
      exact Nat.le_add_right _ _
    · rw [List.take_left, List.length_append]
      exact Nat.le_add_right _ _
  refine ⟨by omega, ?_, ?_, ?_, ?_⟩
  · rw [hstart, State.all, List.length_append, hlen]
    omega
  · rw [hf]
    rfl
  · rw [hstart, hdrop, hcontent, framing.encAll_append, List.prefix_append_right_inj]
    rcases hnext with ⟨-, -, -, rfl⟩ | ⟨-, rfl, rfl⟩
    · exact List.nil_prefix
    · exact hfly
  have hlook : ∀ offset, segment.baseOffset ≤ offset → ∃ n,
      n ≤ s.visible base segment.baseOffset ∧ segment.baseOffset + n ≤ offset
      ∧ segment.index.lookup offset
        = (segment.baseOffset + n, s.place base segment.baseOffset n) := by
    intro offset hle
    rw [← hs.index_base] at hle
    obtain ⟨n, hn, -, hno, hl⟩ := hs.sound.lookup hle
    rw [hs.index_base] at hno hl
    refine ⟨n, hn.trans hvis, hno, ?_⟩
    rw [hl, State.place, hstart, hdrop, List.take_append_of_le_length hn]
  -- where the segment ends
  rcases hnext with ⟨s', hs', hb', rfl⟩ | ⟨hnone, rfl, rfl⟩
  · have hend : s.endOf base (i + 1) = pre.length + c.length := by
      have : s.bases[i + 1]? = some (segment.baseOffset + c.length) := by
        simp [State.bases, hs', hb']
      unfold State.endOf
      rw [this]
      simp only [start]
      omega
    have hexact : s.visible base segment.baseOffset = c.length := by
      unfold State.visible
      rw [hstart, hdrop, hcontent, List.append_nil]
      exact framing.whole_length_encAll hpost
    rw [hend, hstart, hexact]
    rw [hexact] at hlook
    exact ⟨Nat.le_add_right _ _, le_rfl, fun _ => rfl, segment, hseg, rfl, hlook⟩
  · have hlast : s.bases[i + 1]? = none := by simp [State.bases, hnone]
    have hend : s.endOf base (i + 1) = pre.length + c.length := by
      unfold State.endOf
      rw [hlast]
      simpa using hlen
    rw [hend]
    refine ⟨by omega, by omega, fun hlt => ?_, segment, hseg, rfl, hlook⟩
    rw [List.getElem?_eq_none_iff] at hlast
    omega

/-- **Taking a record off a file at a place where one starts** gives it, if
it is whole, and else the end of the stream. -/
theorem Writes.readAt (h : Writes s base rss rs t) {i : ℕ} (hi : s.bases[i]? = some b) {m : ℕ}
    (hm : m ≤ s.visible base b) :
    (m = s.visible base b ∧ ∃ pos, s.readAt b (s.place base b m) = (.ok none, pos))
      ∨ m < s.visible base b ∧ ∃ r, s.all[start base b + m]? = some r ∧ r.offset = b + m
        ∧ s.readAt b (s.place base b m) = (.ok (some r), s.place base b (m + 1)) := by
  obtain ⟨hvalid, hcons⟩ := h.all_spec
  obtain ⟨hb, -, hfile, hcontent, -⟩ := h.segment hi
  obtain ⟨file, hfile⟩ := Option.isSome_iff_exists.mp hfile
  have hlook : s.disk.dir.logs.lookup b = some file := hfile
  have hfc : s.content b = file.content := by rw [State.content, hlook, Option.getD_some]
  have hfst := Record.readOne_fst ⟨file.content, s.place base b m⟩
  have hrest : Stream.rest ⟨file.content, s.place base b m⟩
      = (s.content b).drop (s.place base b m) := by rw [hfc]; rfl
  have hread := framing.read_drop_of_prefix
    (fun r hr => hvalid r (List.mem_of_mem_drop hr)) hcontent hm
  unfold State.readAt
  rw [hlook]
  simp only
  rcases hread with ⟨heq, hread⟩ | ⟨hlt, r, hr, hread⟩
  · refine Or.inl ⟨heq, (Record.readOne ⟨file.content, s.place base b m⟩).2.pos, ?_⟩
    rw [hfst, hrest]
    exact Prod.ext hread rfl
  · rw [List.getElem?_drop] at hr
    refine Or.inr ⟨hlt, r, hr, ?_, ?_⟩
    · rw [hcons.offset_getElem hr, start]
      push_cast
      omega
    · have hsome : Record.readOne ⟨file.content, s.place base b m⟩ = (.ok (some r), _) :=
        Prod.ext (by rw [hfst, hrest]; exact hread) rfl
      obtain ⟨-, -, hf'⟩ := Record.readOne_eq_some_iff.mp hsome
      rw [hsome, hf']
      have hplace : s.place base b (m + 1) = s.place base b m + r.size := by
        have hr' : (s.all.drop (start base b))[m]? = some r := by rw [List.getElem?_drop]; exact hr
        rw [State.place, State.place, List.take_add_one, hr', Option.toList_some,
          framing.encAll_append, framing.encAll_cons, framing.encAll_nil, List.append_nil,
          List.length_append, Record.enc_framing, Record.length_frame]
      rw [hplace]

end Shown

/-! ## How far a read has got

The invariant of one read, phase by phase, relative to the records that it has
to yield at least. -/

namespace Reader

/-- **A read that has got to record `k`**: it has yielded what it was asked
for of those before. -/
def At (s : State) (base : ℤ) (rd : Reader) (k : ℕ) : Prop :=
  k ≤ s.all.length ∧ rd.out = (s.all.take k).drop (start base rd.offset)

/-- A read in a segment of its snapshot, with `todo` to come: the snapshot
ends no earlier than what the read has to yield. -/
def Inside (s : State) (base : ℤ) (before : List Record) (seg : ℕ) (todo : List ℕ) (b : ℤ) :
    Prop :=
  ∃ n, n ≤ s.bases.length ∧ before.length ≤ s.endOf base n ∧ seg < n
    ∧ todo = List.range' (seg + 1) (n - (seg + 1)) ∧ s.bases[seg]? = some b

/-- What is to come starts at record `k`; if it is nothing, the read has got
past what was there at its snapshot. -/
def Due (s : State) (base : ℤ) (before : List Record) : List ℕ → ℕ → Prop
  | [], k => before.length ≤ k
  | seg :: todo, k => ∃ b, Inside s base before seg todo b ∧ k = start base b

/-- **What holds of a read between any two steps**, if `before` is what it has
to yield at least. -/
def Fits (rd : Reader) (s : State) (base : ℤ) (before : List Record) : Prop :=
  match rd.phase with
  | .called => rd.out = []
  | .between todo => ∃ k, rd.At s base k ∧ Due s base before todo k
  | .hinted seg hint todo => ∃ b n, Inside s base before seg todo b ∧ rd.At s base (start base b)
      ∧ n ≤ s.visible base b ∧ b + n ≤ max rd.offset b ∧ hint = (b + n, s.place base b n)
  | .rewound seg todo => ∃ b, Inside s base before seg todo b ∧ rd.At s base (start base b)
  | .scanning seg pos todo => ∃ b m, Inside s base before seg todo b
      ∧ rd.At s base (start base b + m) ∧ m ≤ s.visible base b ∧ pos = s.place base b m
  | .finished => ∃ k, rd.At s base k ∧ before.length ≤ k
  | .raised _ => False

section Grows

variable {s s' : State} {base b : ℤ} {rd : Reader} {before : List Record} {todo : List ℕ}
  {k m seg : ℕ}

omit [Crc32] in
/-- A read is as far as it was when records come behind. -/
theorem At.grows (h : rd.At s base k) (hg : Grows base s s') : rd.At s' base k := by
  obtain ⟨hk, hout⟩ := h
  obtain ⟨x, hx⟩ := hg.all
  refine ⟨hk.trans hg.all.length_le, ?_⟩
  rw [hout, ← hx, List.take_append_of_le_length hk]

omit [Crc32] in
/-- Its segment is where it was. -/
theorem Inside.grows (h : Inside s base before seg todo b) (hg : Grows base s s') :
    Inside s' base before seg todo b := by
  obtain ⟨n, hn, hbefore, hseg, htodo, hb⟩ := h
  obtain ⟨x, hx⟩ := hg.bases
  have hget : ∀ i < s.bases.length, s'.bases[i]? = s.bases[i]? := fun i hi => by
    rw [← hx, List.getElem?_append_left hi]
  refine ⟨n, hn.trans hg.bases.length_le, hbefore.trans ?_, hseg, htodo, ?_⟩
  · rcases Nat.eq_or_lt_of_le hn with rfl | hlt
    · exact hg.endOf
    · unfold State.endOf
      rw [hget n hlt, List.getElem?_eq_getElem hlt]
  · rw [hget seg (by omega), hb]

omit [Crc32] in
/-- And what is to come starts where it did. -/
theorem Due.grows (h : Due s base before todo k) (hg : Grows base s s') :
    Due s' base before todo k := by
  cases todo with
  | nil => exact h
  | cons seg todo =>
    obtain ⟨b, hin, hk⟩ := h
    exact ⟨b, hin.grows hg, hk⟩

/-- A segment shows no fewer records later, and they are where they were. -/
theorem visible_grows (hb : b ∈ s.bases) (hstart : start base b ≤ s.all.length)
    (hg : Grows base s s') (hm : m ≤ s.visible base b) :
    m ≤ s'.visible base b ∧ s'.place base b m = s.place base b m := by
  obtain ⟨x, hx⟩ := hg.all
  have hdrop : s'.all.drop (start base b) = s.all.drop (start base b) ++ x := by
    rw [← hx, List.drop_append_of_le_length hstart]
  have hlen := framing.whole_le_length (s.all.drop (start base b)) (s.content b).length
  refine ⟨hm.trans ?_, ?_⟩
  · unfold State.visible
    rw [hdrop]
    exact (framing.whole_append_le _ x _).trans (framing.whole_mono _ (hg.content b hb))
  · unfold State.visible at hm
    rw [State.place, State.place, hdrop, List.take_append_of_le_length (hm.trans hlen)]

/-- **A read is not disturbed** by what takes nothing away. -/
theorem Fits.grows (h : rd.Fits s base before) (hg : Grows base s s') :
    rd.Fits s' base before := by
  have hmem : ∀ {seg todo b}, Inside s base before seg todo b → b ∈ s.bases :=
    fun ⟨_, _, _, _, _, hb⟩ => List.mem_of_getElem? hb
  unfold Fits at h ⊢
  cases hphase : rd.phase with
  | called => simpa only [hphase] using h
  | between todo =>
    simp only [hphase] at h ⊢
    obtain ⟨k, hat, hdue⟩ := h
    exact ⟨k, hat.grows hg, hdue.grows hg⟩
  | hinted seg hint todo =>
    simp only [hphase] at h ⊢
    obtain ⟨b, n, hin, hat, hn, hle, hhint⟩ := h
    obtain ⟨hn', hplace⟩ := visible_grows (hmem hin) hat.1 hg hn
    exact ⟨b, n, hin.grows hg, hat.grows hg, hn', hle, by rw [hhint, hplace]⟩
  | rewound seg todo =>
    simp only [hphase] at h ⊢
    obtain ⟨b, hin, hat⟩ := h
    exact ⟨b, hin.grows hg, hat.grows hg⟩
  | scanning seg pos todo =>
    simp only [hphase] at h ⊢
    obtain ⟨b, m, hin, hat, hm, hpos⟩ := h
    obtain ⟨hm', hplace⟩ := visible_grows (hmem hin) ((Nat.le_add_right _ _).trans hat.1) hg hm
    exact ⟨b, m, hin.grows hg, hat.grows hg, hm', by rw [hpos, hplace]⟩
  | finished =>
    simp only [hphase] at h ⊢
    obtain ⟨k, hat, hk⟩ := h
    exact ⟨k, hat.grows hg, hk⟩
  | raised e => simp only [hphase] at h

end Grows

/-! ## The steps of a read

Each step takes a read from one phase to the next, and the invariant with it.
The writer is wherever it is; what its state says of the files is all that is
used. -/

section Step

variable {s : State} {base b : ℤ} {rss : List (List Record)} {rs : List Record} {t : Bytes}
  {rd : Reader} {before : List Record} {todo : List ℕ} {k m seg : ℕ}

omit [Crc32] in
/-- A read need not have been at records before its offset. -/
theorem At.skip (h : rd.At s base k) {k' : ℕ} (hle : k ≤ k') (hlen : k' ≤ s.all.length)
    (hoff : k' ≤ start base rd.offset ∨ k' = k) : rd.At s base k' := by
  rcases hoff with hoff | rfl
  · refine ⟨hlen, ?_⟩
    rw [h.2, List.drop_eq_nil_of_le (by rw [List.length_take]; omega),
      List.drop_eq_nil_of_le (by rw [List.length_take]; omega)]
  · exact h

omit [Crc32] in
/-- **Yielding a record or not**, a read gets one record further. -/
theorem At.take (h : rd.At s base k) (hoffset : base ≤ rd.offset) {r : Record}
    (hr : s.all[k]? = some r) (hoff : r.offset = base + k) (hb : b ≤ r.offset) (pos : ℕ) :
    (rd.take b r seg pos todo).At s base (k + 1) := by
  obtain ⟨hk, hout⟩ := h
  have hlt : k < s.all.length := by
    by_contra hge
    rw [List.getElem?_eq_none (not_lt.mp hge)] at hr
    cases hr
  refine ⟨hlt, ?_⟩
  have hlen : (s.all.take k).length = k := by rw [List.length_take]; omega
  show (if max rd.offset b ≤ r.offset then rd.out ++ [r] else rd.out)
    = (s.all.take (k + 1)).drop (start base rd.offset)
  rw [List.take_add_one, hr, Option.toList_some, List.drop_append, hlen, ← hout]
  split
  · next hle =>
    have : start base rd.offset ≤ k := by unfold start; omega
    rw [Nat.sub_eq_zero_of_le this, List.drop_zero]
  · next hle =>
    have : 1 ≤ start base rd.offset - k := by unfold start; omega
    rw [List.drop_eq_nil_of_le (by simpa using this), List.append_nil]

/-- **The end of a segment** is where the next one starts, or past what was
there at the snapshot. -/
theorem Inside.due (h : Writes s base rss rs t) (hin : Inside s base before seg todo b)
    (hm : m = s.visible base b) : Due s base before todo (start base b + m) := by
  obtain ⟨n, hn, hbefore, hseg, rfl, hb⟩ := hin
  obtain ⟨-, -, -, -, -, hend, hexact, -⟩ := h.segment hb
  rw [hm]
  cases hlen : n - (seg + 1) with
  | zero =>
    obtain rfl : n = seg + 1 := by omega
    exact hbefore.trans hend
  | succ i =>
    have hlt : seg + 1 < s.bases.length := by omega
    have hb' : s.bases[seg + 1]? = some s.bases[seg + 1] := List.getElem?_eq_getElem hlt
    rw [List.range'_succ]
    refine ⟨s.bases[seg + 1], ⟨n, hn, hbefore, by omega, ?_, hb'⟩, ?_⟩
    · congr 1
      omega
    · rw [← hexact hlt, State.endOf, hb']

/-- **One record taken in a scan.** -/
theorem scan_fits (h : Writes s base rss rs t) (hoffset : base ≤ rd.offset)
    (hin : Inside s base before seg todo b) (hat : rd.At s base (start base b + m))
    (hm : m ≤ s.visible base b) :
    (rd.scan b seg todo (s.readAt b (s.place base b m))).Fits s base before := by
  obtain ⟨n, hn, hbefore, hseg, htodo, hb⟩ := hin
  have hbase := (h.segment hb).1
  rcases h.readAt hb hm with ⟨heq, pos, hread⟩ | ⟨hlt, r, hr, hoff, hread⟩
  · rw [hread]
    exact ⟨start base b + m, hat, Inside.due h ⟨n, hn, hbefore, hseg, htodo, hb⟩ heq⟩
  · rw [hread]
    refine ⟨b, m + 1, ⟨n, hn, hbefore, hseg, htodo, hb⟩, ?_, hlt, rfl⟩
    refine hat.take hoffset hr ?_ (by omega) _
    rw [hoff, start]
    push_cast
    omega

/-- **The snapshot** starts at a segment whose base is at or before the
offset, and covers all records there are. -/
theorem snapshot_fits (h : Writes s base rss rs t) (hoffset : base ≤ rd.offset)
    (hout : rd.out = []) :
    Fits { rd with phase := .between (s.chain rd.offset) } s base s.appended := by
  have hbases : s.bases = chainBases base rss :=
    h.serves.older.map_baseOffset h.serves.active_base
  have hincreasing : s.bases.Pairwise fun b b' => id b ≤ id b' := h.serves.increasing.imp le_of_lt
  have hfirst : s.bases[0]? = some base := by
    obtain ⟨bases, heq⟩ := chainBases_eq_cons base rss
    rw [hbases, heq]
    rfl
  obtain ⟨j, b, hi, hj, (hle : b ≤ rd.offset), -⟩ :=
    Bisect.exists_last hincreasing rd.offset hfirst hoffset
  have hlt : j < s.bases.length := by
    by_contra hge
    rw [List.getElem?_eq_none (not_lt.mp hge)] at hj
    cases hj
  have hchain : s.chain rd.offset = j :: List.range' (j + 1) (s.bases.length - (j + 1)) := by
    unfold State.chain
    rw [hi, Log.sliceFrom_succ_sub_one, List.range_eq_range', List.drop_range',
      show s.bases.length - j = s.bases.length - (j + 1) + 1 by omega, List.range'_succ]
    simp
  obtain ⟨hbase, hstart, -⟩ := h.segment hj
  have hend : s.endOf base s.bases.length = s.appended.length := by
    unfold State.endOf
    rw [List.getElem?_eq_none le_rfl]
  show ∃ k, _ ∧ _
  rw [hchain]
  refine ⟨start base b, ⟨hstart, ?_⟩, b, ⟨s.bases.length, le_rfl, hend.ge, hlt, rfl, hj⟩, rfl⟩
  rw [hout, List.drop_eq_nil_of_le]
  rw [List.length_take]
  show min (start base b) s.all.length ≤ start base rd.offset
  unfold start
  omega

/-- **The record at the hint** is the one the index promised. -/
theorem verify_fits (h : Writes s base rss rs t) (hoffset : base ≤ rd.offset)
    (hin : Inside s base before seg todo b) (hat : rd.At s base (start base b))
    (hm : m ≤ s.visible base b) (hle : b + m ≤ max rd.offset b) :
    (rd.verify b seg (b + m, s.place base b m) todo
      (s.readAt b (s.place base b m))).Fits s base before := by
  obtain ⟨_, -, -, -, -, hb⟩ := id hin
  have hbase := (h.segment hb).1
  rcases h.readAt hb hm with ⟨-, pos, hread⟩ | ⟨hlt, r, hr, hoff, hread⟩
  · rw [hread]
    exact ⟨b, hin, hat⟩
  · have hlen : start base b + m < s.all.length := by
      by_contra hge
      rw [List.getElem?_eq_none (not_lt.mp hge)] at hr
      cases hr
    have hskip : rd.At s base (start base b + m) :=
      hat.skip (Nat.le_add_right _ _) hlen.le (by unfold start; omega)
    rw [hread, Reader.verify, if_neg (not_not.mpr hoff)]
    refine ⟨b, m + 1, hin, hskip.take hoffset hr ?_ (by omega) _, hlt, rfl⟩
    rw [hoff, start]
    push_cast
    omega

/-- **One step of a read** that has got so far, from a state in which the
writer can go on. -/
theorem Fits.step (h : Writes s base rss rs t) (hoffset : base ≤ rd.offset)
    (hfits : rd.Fits s base s.before) {rd' : Reader} (hstep : rd.step s = some rd') :
    rd'.Fits s base (s.mustYield rd) := by
  have hbase : ∀ {seg todo b}, Inside s base s.before seg todo b → s.bases[seg]? = some b :=
    fun ⟨_, _, _, _, _, hb⟩ => hb
  unfold Fits at hfits
  unfold Reader.step at hstep
  unfold State.mustYield
  cases hphase : rd.phase with
  | called =>
    simp only [hphase] at hfits hstep
    split at hstep
    · cases hstep
      exact snapshot_fits h hoffset hfits
    · cases hstep
  | between todo =>
    cases todo with
    | nil =>
      simp only [hphase] at hfits hstep
      cases hstep
      exact hfits
    | cons seg todo =>
      simp only [hphase] at hfits hstep
      obtain ⟨k, hat, b, hin, rfl⟩ := hfits
      obtain ⟨-, -, -, -, -, -, -, segment, hseg, rfl, hlook⟩ := h.segment (hbase hin)
      obtain ⟨n, hn, hle, hhint⟩ := hlook (max rd.offset segment.baseOffset) (le_max_right _ _)
      rw [hseg] at hstep
      cases hstep
      unfold Reader.lookUp
      simp only [if_neg (not_lt.mpr (le_max_right rd.offset segment.baseOffset))]
      exact ⟨segment.baseOffset, n, hin, hat, hn, hle, hhint⟩
  | hinted seg hint todo =>
    simp only [hphase] at hfits hstep
    obtain ⟨b, n, hin, hat, hn, hle, rfl⟩ := hfits
    rw [hbase hin] at hstep
    cases hstep
    exact verify_fits h hoffset hin hat hn hle
  | rewound seg todo =>
    simp only [hphase] at hfits hstep
    obtain ⟨b, hin, hat⟩ := hfits
    rw [hbase hin] at hstep
    cases hstep
    have hzero : s.place base b 0 = 0 := by simp [State.place]
    have hscan := scan_fits (m := 0) h hoffset hin hat (Nat.zero_le _)
    rwa [hzero] at hscan
  | scanning seg pos todo =>
    simp only [hphase] at hfits hstep
    obtain ⟨b, m, hin, hat, hm, rfl⟩ := hfits
    rw [hbase hin] at hstep
    cases hstep
    exact scan_fits h hoffset hin hat hm
  | finished => simp only [hphase] at hstep; cases hstep
  | raised e => simp only [hphase] at hfits

end Step

/-- A read has got to some record. -/
theorem Fits.at {s : State} {base : ℤ} {rd : Reader} {before : List Record}
    (h : rd.Fits s base before) :
    ∃ k, rd.At s base k := by
  unfold Fits at h
  cases hphase : rd.phase with
  | called =>
    simp only [hphase] at h
    exact ⟨0, Nat.zero_le _, by rw [h, List.take_zero, List.drop_nil]⟩
  | between todo =>
    simp only [hphase] at h
    exact ⟨_, h.choose_spec.1⟩
  | hinted seg hint todo =>
    simp only [hphase] at h
    obtain ⟨b, n, -, hat, -⟩ := h
    exact ⟨_, hat⟩
  | rewound seg todo =>
    simp only [hphase] at h
    obtain ⟨b, -, hat⟩ := h
    exact ⟨_, hat⟩
  | scanning seg pos todo =>
    simp only [hphase] at h
    obtain ⟨b, m, -, hat, -⟩ := h
    exact ⟨_, hat⟩
  | finished =>
    simp only [hphase] at h
    exact ⟨_, h.choose_spec.1⟩
  | raised e => simp only [hphase] at h

section Fields

variable (rd : Reader) (b : ℤ) (seg : ℕ) (todo : List ℕ)
  (answer : Except PyError (Option Record) × ℕ)

omit [Crc32] in
/-- Asking an index does not change what a read was asked for. -/
@[simp] theorem offset_lookUp (segment : Segment) :
    (rd.lookUp segment seg todo).offset = rd.offset := rfl

omit [Crc32] in
/-- Neither does the record at the hint. -/
@[simp] theorem offset_verify (hint : ℤ × ℕ) :
    (rd.verify b seg hint todo answer).offset = rd.offset := by
  unfold verify
  split
  · rfl
  · rfl
  · split <;> rfl

omit [Crc32] in
/-- Neither does a record in a scan. -/
@[simp] theorem offset_scan : (rd.scan b seg todo answer).offset = rd.offset := by
  unfold scan
  split <;> rfl

end Fields

/-- What a read was asked for stays. -/
theorem offset_step {s : State} {rd rd' : Reader} (hstep : rd.step s = some rd') :
    rd'.offset = rd.offset := by
  unfold Reader.step at hstep
  cases hphase : rd.phase with
  | called =>
    simp only [hphase] at hstep
    split at hstep
    · cases hstep
      rfl
    · cases hstep
  | between todo =>
    cases todo with
    | nil =>
      simp only [hphase] at hstep
      cases hstep
      rfl
    | cons seg todo =>
      simp only [hphase] at hstep
      obtain ⟨segment, -, hrd⟩ := Option.bind_eq_some_iff.mp hstep
      cases hrd
      exact rd.offset_lookUp seg todo segment
  | hinted seg hint todo =>
    simp only [hphase] at hstep
    obtain ⟨b, -, hrd⟩ := Option.bind_eq_some_iff.mp hstep
    cases hrd
    exact rd.offset_verify b seg todo _ hint
  | rewound seg todo =>
    simp only [hphase] at hstep
    obtain ⟨b, -, hrd⟩ := Option.bind_eq_some_iff.mp hstep
    cases hrd
    exact rd.offset_scan b seg todo _
  | scanning seg pos todo =>
    simp only [hphase] at hstep
    obtain ⟨b, -, hrd⟩ := Option.bind_eq_some_iff.mp hstep
    cases hrd
    exact rd.offset_scan b seg todo _
  | finished => simp only [hphase] at hstep; cases hstep
  | raised e => simp only [hphase] at hstep; cases hstep

end Reader

/-! ## The invariant

The writer can go on, and the read has got so far. A step of the writer keeps
the second because nothing is taken away, a step of the read the first because
it changes nothing that is shared. -/

/-- **What holds of every state that can be reached**: the writer can go on,
what a read has to yield was appended, and a read that was asked for records
of the log has got so far. -/
structure Sound (base : ℤ) (s : State) : Prop where
  writes : ∃ rss rs t, Writes s base rss rs t
  before : s.before <+: s.appended
  reads : ∀ rd, s.reader = some rd → base ≤ rd.offset → rd.Fits s base s.before

variable {s s' : State} {base : ℤ}

/-- **A step that reads can bear** keeps the invariant. -/
theorem Sound.goes (h : Sound base s) (hgoes : Goes base s s') : Sound base s' := by
  refine ⟨hgoes.writes, ?_, fun rd hrd hoffset => ?_⟩
  · rw [hgoes.before]
    exact h.before.trans hgoes.grows.appended
  · rw [hgoes.reader] at hrd
    rw [hgoes.before]
    exact (h.reads rd hrd hoffset).grows hgoes.grows

/-- **Every step keeps the invariant.** -/
theorem Sound.step (h : Sound base s) {a : Act} (hstep : s.step a = some s') : Sound base s' := by
  obtain ⟨⟨rss, rs, t, hw⟩, hbefore, hread⟩ := id h
  cases a with
  | append key value timestamp clock =>
    rw [State.step] at hstep
    split at hstep
    · next hidle =>
      cases hstep
      have hready := hw.ready
      rw [hidle] at hready
      obtain ⟨hopen, rfl⟩ := hready
      refine h.goes (hw.goes_writer ?_ (by rw [hidle]; exact List.nil_prefix))
      split
      · next hroom => exact ⟨hopen, rfl, rfl, hroom⟩
      · exact ⟨hopen, rfl, fun r hr => by cases hr; rfl⟩
    · cases hstep
  | roll =>
    rw [State.step] at hstep
    split at hstep
    · next hidle =>
      cases hstep
      have hready := hw.ready
      rw [hidle] at hready
      exact h.goes (hw.goes_writer ⟨hready.1, hready.2, by simp⟩
        (by rw [hidle]; exact List.nil_prefix))
    · cases hstep
  | work n =>
    rw [State.step] at hstep
    split at hstep
    · cases hstep
    · cases hstep
      exact h.goes (hw.work n)
  | readFrom offset =>
    rw [State.step] at hstep
    split at hstep
    · cases hstep
    · cases hstep
      refine ⟨⟨rss, rs, t, hw.serves, hw.appended, hw.ready⟩, hbefore, fun rd hrd hoffset => ?_⟩
      cases hrd
      dsimp only at hoffset ⊢
      rw [hw.serves.firstBase_eq, if_neg (not_lt.mpr hoffset)]
      rfl
  | read =>
    simp only [State.step] at hstep
    obtain ⟨rd, hrd, hstep⟩ := Option.bind_eq_some_iff.mp hstep
    obtain ⟨rd', hrd', hs'⟩ := Option.bind_eq_some_iff.mp hstep
    cases hs'
    refine ⟨⟨rss, rs, t, hw.serves, hw.appended, hw.ready⟩, ?_, fun rd'' hrd'' hoffset => ?_⟩
    · show s.mustYield rd <+: s.appended
      unfold State.mustYield
      split
      · exact List.prefix_rfl
      · exact hbefore
    · cases hrd''
      rw [Reader.offset_step hrd'] at hoffset
      exact (hread rd hrd hoffset).step hw hoffset hrd'

/-- What a read that has got somewhere has yielded. -/
theorem Sound.out (h : Sound base s) {rd : Reader} (hrd : s.reader = some rd)
    (hoffset : base ≤ rd.offset) :
    Consecutive rd.offset rd.out ∧ rd.out <+: s.all.drop (rd.offset - base).toNat := by
  obtain ⟨rss, rs, t, hw⟩ := h.writes
  obtain ⟨k, hk, hout⟩ := (h.reads rd hrd hoffset).at
  rw [hout]
  constructor
  · rcases le_or_gt (start base rd.offset) (s.all.take k).length with hle | hlt
    · have hcons := (hw.all_spec.2.take k).drop hle
      rwa [show base + (start base rd.offset : ℤ) = rd.offset by unfold start; omega] at hcons
    · rw [List.drop_eq_nil_of_le hlt.le]
      exact Consecutive.nil _
  · exact (List.take_prefix k s.all).drop _

end Interleaving

end Pyka
