import Pyka.Storage.LogSpec

/-!
# What a successful opening says

`Log.init_of_stored` opens the directories that a log leaves behind. This is
the other direction: whatever a directory holds – files another program wrote,
a first file that is gone – if `Log.init` opens it, the log serves reads of
the records it found, from whatever base its first file has
(`Log.init_eq_ok`).

The direction matters where nothing is known of the files. A statement about
"a log that is open" that went by the files a log writes would leave out the
logs somebody opened on other files, and `Log.init` is the only thing that
stands between such files and the methods that follow. So its checks have to
carry the whole of the relation: the scan of `recover` gives records that
count up, a torn rest and an index that is sound because it was fed anew
(`Segment.recoverLoop_eq_ok`), and the comparison of bases and ends cuts all
of them out of one list (`hold_of_chainBreak`).

What is not checked is not found out: that the chain starts at `0`, that a
sealed file is durable, or that it is not empty. The relation for reads asks
for the last only, and there it follows, as the bases of a directory's files
differ.
-/

namespace Pyka

open Struct (Bytes)
open Record (framing)

variable [Crc32]

namespace Segment

/-- **What the scan of `recover` found**, if it did not raise: records that
count up from the base, a torn rest, and a sound index. -/
theorem recoverLoop_eq_ok {name : String} {content : Bytes} {base nextOffset : ℤ} {position : ℕ}
    {ix : Index} (h : recoverLoop name ⟨content, 0⟩ (freshIndex base) base 0
      = .ok (nextOffset, position, ix)) :
    ∃ rs t, content = framing.encAll rs ++ t ∧ (∀ r ∈ rs, r.Encodable) ∧ Consecutive base rs
      ∧ Record.Torn t ∧ nextOffset = base + rs.length ∧ position = (framing.encAll rs).length
      ∧ ix.Sound rs ∧ ix.baseOffset = base ∧ ix.closed = false := by
  obtain ⟨hvalid, hsplit, hstop⟩ := framing.scan_spec content
  generalize (framing.scan content).1 = rs at hvalid hsplit
  generalize (framing.scan content).2 = t at hsplit hstop
  -- what the scan makes of a front of the records
  have hfront : ∀ rs₁ s, content = framing.encAll rs₁ ++ s → (∀ r ∈ rs₁, r.Encodable) →
      Consecutive base rs₁ → ∃ f' ix', f'.rest = s
        ∧ feed (freshIndex base) base 0 rs₁ = .ok ix'
        ∧ recoverLoop name f' ix' (base + rs₁.length) (framing.encAll rs₁).length
          = .ok (nextOffset, position, ix) := by
    intro rs₁ s hcontent hvalid₁ hcons₁
    obtain ⟨f', hrest, hloop⟩ := recoverLoop_content name (freshIndex base) hcontent hvalid₁ hcons₁
    rw [h] at hloop
    cases hfeed : feed (freshIndex base) base 0 rs₁ with
    | error e => rw [hfeed] at hloop; cases hloop
    | ok ix' =>
      rw [hfeed] at hloop
      exact ⟨f', ix', hrest, rfl, hloop.symm⟩
  have hcons : Consecutive base rs := by
    by_contra hcons
    obtain ⟨rs₁, r, rs₂, rfl, hcons₁, hoff⟩ := Consecutive.exists_gap hcons
    rw [framing.encAll_append, framing.encAll_cons, List.append_assoc, List.append_assoc] at hsplit
    obtain ⟨f', ix', hrest, -, hloop⟩ := hfront rs₁ _ hsplit.symm
      (fun r hr => hvalid r (List.mem_append_left _ hr)) hcons₁
    obtain ⟨msg, hgap⟩ := recoverLoop_gap name ix' (framing.encAll rs₁).length
      (hvalid r (List.mem_append_right _ List.mem_cons_self)) hrest hoff
    rw [hgap] at hloop
    cases hloop
  obtain ⟨f', ix', hrest, hfeed, hloop⟩ := hfront rs t hsplit.symm hvalid hcons
  have htorn : Record.Torn t := by
    cases hread : Record.read f'.rest with
    | error e => rw [recoverLoop_error hread] at hloop; cases hloop
    | ok o =>
      rw [hrest] at hread
      cases o with
      | some r => exact absurd hread (hstop r)
      | none => exact (Record.read_eq_none_iff t).mp hread
  have htorn' : Record.Torn f'.rest := by rwa [hrest]
  rw [recoverLoop_torn htorn'] at hloop
  obtain ⟨rfl, rfl, rfl⟩ : base + rs.length = nextOffset ∧ (framing.encAll rs).length = position
      ∧ ix' = ix := by
    simpa using hloop
  have hnone : (freshIndex base).Sound [] := fun e he => by cases he
  obtain ⟨hs, hb, hc⟩ := feed_eq_ok hnone (by simpa [freshIndex] using hfeed)
  exact ⟨rs, t, hsplit.symm, hvalid, hcons, htorn, rfl, rfl, hs, hb, hc⟩

/-- **What opening a segment found**, if it did not raise: the segment holds
the records of its file, from which a torn tail is gone, and no other file
has changed. -/
theorem init_eq_ok {disk disk' : Disk} {base maxBytes : ℤ} {s : Segment}
    (h : init disk base maxBytes = (.ok s, disk')) :
    ∃ rs, s.Holds rs ∧ s.baseOffset = base ∧ s.maxBytes = maxBytes ∧ s.closed = false
      ∧ (∃ f, disk'.view base = some f ∧ f.content = framing.encAll rs)
      ∧ ∀ b, b ≠ base → disk'.view b = disk.view b := by
  have hmax : 0 < maxBytes ∧ maxBytes ≤ maxU32 + 1 := by
    by_contra hmax
    unfold init at h
    rw [if_pos hmax] at h
    cases h
  have hfst : (init disk base maxBytes).1 = _ := init_fst hmax
  obtain ⟨f, hcut, hv⟩ := view_init_ok h
  rw [h] at hfst
  cases hloop : recoverLoop (logName base) ⟨disk.content base, 0⟩ (freshIndex base) base 0 with
  | error e =>
    rw [hloop] at hfst
    cases hfst
  | ok found =>
    obtain ⟨nextOffset, position, index⟩ := found
    rw [hloop] at hfst
    cases hfst
    obtain ⟨rs, t, hcontent, hvalid, hcons, -, rfl, rfl, hs, hb, hc⟩ := recoverLoop_eq_ok hloop
    refine ⟨rs, ⟨hvalid, hcons, rfl, rfl, hs, hb, hc, hmax⟩, rfl, rfl, rfl, ⟨f, ?_, ?_⟩,
      fun b hne => ?_⟩
    · rw [hv, Function.update_self]
    · rw [hcut, hcontent, List.take_left]
    · rw [hv, Function.update_of_ne hne]

end Segment

namespace Log

/-- **What opening segments found**, if it did not raise, of base offsets
that all differ. -/
theorem openAll_eq_ok {maxBytes base : ℤ} {bases : List ℤ} {disk disk' : Disk}
    {older : List Segment} {active : Segment}
    (h : openAll maxBytes base bases disk = (.ok (older, active), disk'))
    (hbases : (base :: bases).Nodup) :
    (older ++ [active]).map Segment.baseOffset = base :: bases
      ∧ (∀ s ∈ older ++ [active], s.closed = false ∧ ∃ rs, s.Holds rs
          ∧ ∃ f, disk'.view s.baseOffset = some f ∧ f.content = framing.encAll rs)
      ∧ active.maxBytes = maxBytes
      ∧ ∀ b, b ∉ base :: bases → disk'.view b = disk.view b := by
  induction bases generalizing base disk older with
  | nil =>
    rw [openAll] at h
    cases hinit : Segment.init disk base maxBytes with
    | mk res disk₁ =>
      rw [hinit] at h
      cases res with
      | error e => cases h
      | ok s =>
        cases h
        obtain ⟨rs, hs, hb, hmax, hc, hf, hother⟩ := Segment.init_eq_ok hinit
        refine ⟨by simp [hb], ?_, hmax, fun b hb' => hother b (by simpa using hb')⟩
        intro s' hs'
        obtain rfl : s' = active := by simpa using hs'
        exact ⟨hc, rs, hs, by rw [hb]; exact hf⟩
  | cons next bases ih =>
    rw [openAll] at h
    cases hinit : Segment.init disk base maxBytes with
    | mk res disk₁ =>
      rw [hinit] at h
      cases res with
      | error e => cases h
      | ok s =>
        simp only at h
        cases hopen : openAll maxBytes next bases disk₁ with
        | mk res disk₂ =>
          rw [hopen] at h
          cases res with
          | error e => cases h
          | ok found =>
            cases h
            obtain ⟨hnot, hnodup⟩ := List.nodup_cons.mp hbases
            obtain ⟨rs, hs, hb, -, hc, hf, hother⟩ := Segment.init_eq_ok hinit
            obtain ⟨hmap, hall, hmax, hother'⟩ := ih hopen hnodup
            refine ⟨by rw [List.cons_append, List.map_cons, hmap, hb], ?_, hmax, ?_⟩
            · rw [List.cons_append]
              refine List.forall_mem_cons.mpr ⟨⟨hc, rs, hs, ?_⟩, hall⟩
              rw [hb, hother' base hnot]
              exact hf
            · intro b hb'
              rw [List.mem_cons, not_or] at hb'
              rw [hother' b hb'.2, hother b hb'.1]

/-- **A chain without a break** is cut out of one list of records. -/
theorem hold_of_chainBreak {directory : String} {v : ℤ → Option File} {older : List Segment}
    {active s₀ : Segment} {segs : List Segment} (hsegs : older ++ [active] = s₀ :: segs)
    (hall : ∀ s ∈ older ++ [active], s.closed = false ∧ ∃ rs, s.Holds rs
      ∧ ∃ f, v s.baseOffset = some f ∧ f.content = framing.encAll rs)
    (hsorted : ((older ++ [active]).map Segment.baseOffset).Pairwise (· < ·))
    (hbreak : chainBreak directory (older ++ [active]) = none) :
    ∃ rss rs, OlderHold false s₀.baseOffset older rss ∧ Filed v s₀.baseOffset rss
      ∧ active.Holds rs ∧ active.baseOffset = s₀.baseOffset + rss.flatten.length
      ∧ ∃ f, v active.baseOffset = some f ∧ f.content = framing.encAll rs := by
  induction older generalizing s₀ segs with
  | nil =>
    cases hsegs
    obtain ⟨-, rs, hs, hf⟩ := hall active (by simp)
    exact ⟨[], rs, trivial, trivial, hs, by simp, hf⟩
  | cons s older ih =>
    cases hsegs
    obtain ⟨s₁, segs₁, hsegs₁⟩ : ∃ s₁ segs₁, older ++ [active] = s₁ :: segs₁ := by
      cases older with
      | nil => exact ⟨active, [], rfl⟩
      | cons s₁ older => exact ⟨s₁, older ++ [active], rfl⟩
    rw [List.cons_append] at hall hsorted hbreak
    obtain ⟨⟨hc, c, hs, hf⟩, hall⟩ := List.forall_mem_cons.mp hall
    rw [List.map_cons, List.pairwise_cons] at hsorted
    have hnext : s₁.baseOffset = s.nextOffset := by
      rw [hsegs₁, chainBreak] at hbreak
      split at hbreak
      · cases hbreak
      · next hn => exact not_not.mp hn
    have hbreak₁ : chainBreak directory (older ++ [active]) = none := by
      rw [hsegs₁] at hbreak ⊢
      rwa [chainBreak_cons hnext] at hbreak
    obtain ⟨rss, rs, hold, hfiled, hact, hb, hf'⟩ := ih hsegs₁ hall hsorted.2 hbreak₁
    have hstart : s₁.baseOffset = s.baseOffset + c.length := by rw [hnext, hs.next]
    rw [hstart] at hold hfiled hb
    refine ⟨c :: rss, rs, ⟨⟨hs, rfl, hc⟩, hold⟩, ⟨⟨?_, hf⟩, hfiled⟩, hact, ?_, hf'⟩
    · rintro rfl
      have hlt := hsorted.1 s₁.baseOffset (by rw [hsegs₁]; exact List.mem_cons_self)
      rw [hstart] at hlt
      simp at hlt
    · rw [hb, List.flatten_cons, List.length_append]
      push_cast
      ring

/-- **Sealing segments** changes no byte of any file. -/
theorem closeAll_of_hold {base : ℤ} {segs : List Segment}
    {rss : List (List Record)} (h : OlderHold false base segs rss) (disk : Disk) :
    ∃ segs' disk', closeAll segs disk = (.ok (), segs', disk') ∧ OlderHold true base segs' rss
      ∧ ∀ b, (disk'.view b).map File.content = (disk.view b).map File.content := by
  induction segs generalizing base rss disk with
  | nil =>
    cases rss with
    | nil => exact ⟨[], disk, rfl, trivial, fun b => rfl⟩
    | cons c rss => exact h.elim
  | cons s segs ih =>
    cases rss with
    | nil => exact h.elim
    | cons c rss =>
      obtain ⟨⟨hs, hb, hc⟩, h⟩ := h
      obtain ⟨s', disk₁, hclose, hs', hb', -, hc', hv, -⟩ := hs.close hc disk
      obtain ⟨segs', disk', hall, hold, hv'⟩ := ih h disk₁
      refine ⟨s' :: segs', disk', ?_, ⟨⟨hs', hb'.trans hb, hc'⟩, hold⟩, fun b => ?_⟩
      · rw [closeAll, hclose]
        simp only [hall]
      · rw [hv' b, hv]
        exact Disk.content_fsync disk s.baseOffset b

omit [Crc32] in
/-- The base offsets of a directory, in order: those of its files, or 0. -/
theorem bases_spec (dir : Dir) :
    ((Log.bases dir).1 :: (Log.bases dir).2).Pairwise (· < ·)
      ∧ ∀ b, (dir.logs.view b).isSome → b ∈ (Log.bases dir).1 :: (Log.bases dir).2 := by
  have hmem : ∀ b, b ∈ dir.glob.insertionSort (· ≤ ·) ↔ (dir.logs.view b).isSome := fun b => by
    rw [(List.perm_insertionSort (· ≤ ·) dir.glob).mem_iff, Dir.mem_glob]
  have hnodup : (dir.glob.insertionSort (· ≤ ·)).Nodup :=
    (List.perm_insertionSort (· ≤ ·) dir.glob).nodup_iff.mpr dir.nodup_glob
  have hsorted := List.pairwise_insertionSort (· ≤ ·) dir.glob
  unfold Log.bases
  generalize dir.glob.insertionSort (· ≤ ·) = bases at hmem hnodup hsorted
  cases bases with
  | nil => exact ⟨List.pairwise_singleton _ _, fun b hb => absurd ((hmem b).mpr hb) (by simp)⟩
  | cons base bases =>
    exact ⟨(hsorted.and hnodup).imp fun h => lt_of_le_of_ne h.1 h.2, fun b hb => (hmem b).mpr hb⟩

/-- **What opening a log found**, if it did not raise: it serves reads, of
a chain of records from the base of its first file on. -/
theorem init_eq_ok {disk disk' : Disk} {directory : String} {maxBytes : ℤ} {l : Log}
    (h : init disk directory maxBytes = (.ok l, disk')) :
    ∃ base rss rs, l.Serves disk'.view base rss rs [] ∧ l.active.closed = false := by
  obtain ⟨hsorted, hnames⟩ := bases_spec disk.dir
  unfold init at h
  generalize Log.bases disk.dir = bases at h hsorted hnames
  cases hopen : openAll maxBytes bases.1 bases.2 disk with
  | mk res disk₁ =>
    cases res with
    | error e => simp only [hopen] at h; cases h
    | ok found =>
      obtain ⟨older, active⟩ := found
      simp only [hopen] at h
      obtain ⟨hmap, hall, hmax, hother⟩ := openAll_eq_ok hopen
        (hsorted.imp fun hlt => hlt.ne)
      cases hbreak : chainBreak directory (older ++ [active]) with
      | some e => rw [hbreak] at h; cases h
      | none =>
        rw [hbreak] at h
        simp only at h
        rw [← hmap] at hsorted
        obtain ⟨s₀, segs, hsegs⟩ : ∃ s₀ segs, older ++ [active] = s₀ :: segs := by
          cases older with
          | nil => exact ⟨active, [], rfl⟩
          | cons s₀ older => exact ⟨s₀, older ++ [active], rfl⟩
        obtain ⟨rss, rs, hold, hfiled, hact, hb, hf⟩ := hold_of_chainBreak hsegs hall hsorted hbreak
        obtain ⟨older', disk₂, hclose, hold', hcontent⟩ := closeAll_of_hold hold disk₁
        rw [hclose] at h
        simp only [Prod.mk.injEq, Except.ok.injEq] at h
        obtain ⟨rfl, rfl⟩ := h
        refine ⟨s₀.baseOffset, rss, rs, ⟨hold', hfiled.congr fun b _ _ => hcontent b, hact, hb, ?_,
          ?_, hmax ▸ hact.limit⟩, (hall active (by simp)).1⟩
        · obtain ⟨f, hf, hcf⟩ := hf
          have := hcontent active.baseOffset
          rw [hf, Option.map_some] at this
          obtain ⟨f', hf', hcf'⟩ := Option.map_eq_some_iff.mp this
          exact ⟨f', hb ▸ hf', by rw [hcf', hcf, List.append_nil]⟩
        · intro b hsome
          rw [← Option.isSome_map (f := File.content), hcontent b, Option.isSome_map] at hsome
          have hmem : b ∈ (older ++ [active]).map Segment.baseOffset := by
            rw [hmap]
            by_contra hnot
            rw [hother b hnot] at hsome
            exact hnot (hnames b hsome)
          rw [List.map_append, List.map_singleton, List.pairwise_append] at hsorted
          rw [List.map_append, List.map_singleton, List.mem_append, List.mem_singleton] at hmem
          rw [← hb]
          rcases hmem with hmem | rfl
          · exact (hsorted.2.2 b hmem _ (List.mem_singleton_self _)).le
          · exact le_rfl

end Log

end Pyka
