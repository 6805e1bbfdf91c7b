import Pyka.Storage.Chain
import Pyka.Storage.Linked

/-!
# What a log holds

`Log.Holds l v rss rs d` relates a log in memory to what its directory stores:
a sealed segment for each sealed chunk and an open one for the tail, which has
no torn bytes behind it. It holds after opening any directory that stores a
chain (`init_of_stored`), and append, roll and sync keep it; reading gives
back the records from any offset on (`Serves.readFrom`).

As for segments, each operation also says which states its `.log` files went
through, in the form: what held before and holds of the states named held
throughout.

## Chunks

The records of a log are given as chunks, a list of lists for the sealed
segments and one list for the active one. The flattening is what a caller
sees, and the division is what the directory shows; operations are about both.
The base of a chunk is the number of records before it.

## Two relations

`Holds` is for the one that writes: the active segment is open, and its file
ends where its records do. `Serves` is for the one that reads, and asks for
less: a base that need not be `0`, and any bytes behind the last record, as
long as they are torn. A log that holds what its directory stores serves reads
of it (`Holds.serves`); the converse fails while a write is going on or after
one has failed, and reads of such a log are then facts about `Serves`.
-/

namespace Pyka

open Struct (Bytes)
open Record (framing)

/-- There is always a first segment. -/
theorem chainBases_eq_cons (base : ℤ) (rss : List (List Record)) :
    ∃ bases, chainBases base rss = base :: bases := by
  cases rss with
  | nil => exact ⟨[], rfl⟩
  | cons c rss => exact ⟨_, rfl⟩

variable [Crc32]

/-- Segments for a list of chunks, all sealed or all still open. -/
def OlderHold (closed : Bool) : ℤ → List Segment → List (List Record) → Prop
  | _, [], [] => True
  | base, s :: segs, rs :: rss =>
    (s.Holds rs ∧ s.baseOffset = base ∧ s.closed = closed)
      ∧ OlderHold closed (base + rs.length) segs rss
  | _, _, _ => False

namespace OlderHold

variable {closed : Bool} {base : ℤ} {segs : List Segment} {rss : List (List Record)}

theorem append {s : Segment} {rs : List Record} (h : OlderHold closed base segs rss)
    (hs : s.Holds rs) (hb : s.baseOffset = base + rss.flatten.length)
    (hc : s.closed = closed) : OlderHold closed base (segs ++ [s]) (rss ++ [rs]) := by
  induction segs generalizing base rss with
  | nil =>
    cases rss with
    | nil => exact ⟨⟨hs, by simpa using hb, hc⟩, trivial⟩
    | cons c rss => exact h.elim
  | cons s' segs ih =>
    cases rss with
    | nil => exact h.elim
    | cons c rss =>
      refine ⟨h.1, ih h.2 ?_⟩
      rw [hb, List.flatten_cons, List.length_append]
      push_cast
      ring

theorem map_baseOffset {s : Segment} (h : OlderHold closed base segs rss)
    (hb : s.baseOffset = base + rss.flatten.length) :
    (segs ++ [s]).map Segment.baseOffset = chainBases base rss := by
  induction segs generalizing base rss with
  | nil =>
    cases rss with
    | nil => simpa [chainBases] using hb
    | cons c rss => exact h.elim
  | cons s' segs ih =>
    cases rss with
    | nil => exact h.elim
    | cons c rss =>
      rw [List.cons_append, List.map_cons, h.1.2.1, chainBases]
      congr 1
      refine ih h.2 ?_
      rw [hb, List.flatten_cons, List.length_append]
      push_cast
      ring

/-- Their files hold the chunks. -/
theorem linked {v : ℤ → Option File} (h : OlderHold closed base segs rss)
    (hfiled : Filed v base rss) : Log.Linked v base segs rss := by
  induction segs generalizing base rss with
  | nil =>
    cases rss with
    | nil => trivial
    | cons c rss => exact h.elim
  | cons s segs ih =>
    cases rss with
    | nil => exact h.elim
    | cons c rss =>
      obtain ⟨⟨hs, hb, -⟩, h⟩ := h
      obtain ⟨⟨-, hf⟩, hfiled⟩ := hfiled
      exact ⟨⟨hs, hb, hf⟩, ih h hfiled⟩

/-- The records of segments that follow each other count up. -/
theorem records (h : OlderHold closed base segs rss) :
    (∀ r ∈ rss.flatten, r.Encodable) ∧ Consecutive base rss.flatten := by
  induction segs generalizing base rss with
  | nil =>
    cases rss with
    | nil => exact ⟨by simp, trivial⟩
    | cons c rss => exact h.elim
  | cons s segs ih =>
    cases rss with
    | nil => exact h.elim
    | cons c rss =>
      obtain ⟨⟨hs, hb, -⟩, h⟩ := h
      obtain ⟨hvalid, hcons⟩ := ih h
      rw [List.flatten_cons]
      refine ⟨fun r hr => ?_, Consecutive.append_iff.mpr ⟨hb ▸ hs.consecutive, hcons⟩⟩
      rcases List.mem_append.mp hr with hr | hr
      · exact hs.valid r hr
      · exact hvalid r hr

end OlderHold

namespace Log

/-! ## Opening

The bases are the names of the files, sorted. The chain is checked in memory
after all segments are open, and all but the last are sealed then. -/

/-- **Opening the segments of a chain.** -/
theorem openAll_of_sealed {maxBytes : ℤ} (hmax : 0 < maxBytes ∧ maxBytes ≤ maxU32 + 1)
    {disk : Disk} {base : ℤ} {bases : List ℤ} {rss : List (List Record)} {rs : List Record}
    {t : Bytes} {d : Option ℕ} (hbases : chainBases base rss = base :: bases)
    (hsealed : Sealed disk.view base rss)
    (hvalid : ∀ r ∈ rss.flatten ++ rs, r.Encodable)
    (hcons : Consecutive base (rss.flatten ++ rs))
    (htail : (disk.view (base + rss.flatten.length)).getD File.empty
      = ⟨framing.encAll rs ++ t, d⟩)
    (htorn : Record.Torn t) (hsmall : (framing.encAll rs ++ t).length ≤ maxU32 + 1)
    (hdurable : d.getD 0 ≤ (framing.encAll rs).length) :
    ∃ older active disk', openAll maxBytes base bases disk = (.ok (older, active), disk')
      ∧ OlderHold false base older rss ∧ active.Holds rs
      ∧ active.baseOffset = base + rss.flatten.length ∧ active.closed = false
      ∧ disk'.view = Function.update disk.view (base + rss.flatten.length)
          (some ⟨framing.encAll rs, d⟩)
      ∧ ∀ P, disk.Always P → P (Function.update disk.view (base + rss.flatten.length)
          (some ⟨framing.encAll rs ++ t, d⟩)) → P disk'.view → disk'.Always P := by
  induction rss generalizing base bases disk with
  | nil =>
    cases hbases
    rw [List.flatten_nil, List.length_nil, Nat.cast_zero, add_zero] at htail ⊢
    obtain ⟨s, disk', hinit, hs, hb, -, hc, hv, ha⟩ := Segment.init_of_torn hmax htail rfl
      hvalid hcons htorn hsmall hdurable
    refine ⟨[], s, disk', ?_, trivial, hs, hb, hc, hv, ha⟩
    rw [openAll, hinit]
  | cons c rss ih =>
    obtain ⟨⟨hne, hcsmall, hf⟩, hsealed⟩ := hsealed
    rw [List.flatten_cons, List.append_assoc] at hvalid hcons
    obtain ⟨hccons, hcons⟩ := Consecutive.append_iff.mp hcons
    have hend : base + ((c ++ rss.flatten).length : ℕ)
        = base + c.length + rss.flatten.length := by
      rw [List.length_append]
      push_cast
      ring
    rw [List.flatten_cons, hend] at htail ⊢
    -- the sealed file is opened and left as it is
    have hcf : (disk.view base).getD File.empty
        = ⟨framing.encAll c, some (framing.encAll c).length⟩ := by rw [hf]; rfl
    obtain ⟨s, disk₁, hinit, hs, hb, -, hc, hv, ha⟩ := Segment.init_of_torn hmax
      hcf (List.append_nil _).symm
      (fun r hr => hvalid r (List.mem_append_left _ hr)) hccons Record.torn_nil hcsmall le_rfl
    rw [← hf, Function.update_eq_self] at hv ha
    rw [chainBases] at hbases
    obtain ⟨next, hnext⟩ := chainBases_eq_cons (base + c.length) rss
    rw [hnext] at hbases
    cases hbases
    rw [← hv] at hsealed htail
    obtain ⟨older, active, disk', hopen, hold, hact, hab, hac, hv', ha'⟩ := ih hnext hsealed
      (fun r hr => hvalid r (List.mem_append_right _ hr)) hcons htail
    rw [hv] at hv' ha'
    refine ⟨s :: older, active, disk', ?_, ⟨⟨hs, hb, hc⟩, hold⟩, hact, hab, hac, hv', ?_⟩
    · rw [openAll, hinit]
      simp only [hopen]
    · intro P hP hP₁ hP₂
      exact ha' P (ha P hP hP.now (by rw [hv]; exact hP.now)) hP₁ hP₂

omit [Crc32] in
/-- A segment that starts where the one before it ends breaks nothing. -/
theorem chainBreak_cons {directory : String} {prev cur : Segment} {segs : List Segment}
    (h : cur.baseOffset = prev.nextOffset) :
    chainBreak directory (prev :: cur :: segs) = chainBreak directory (cur :: segs) := by
  rw [chainBreak, if_neg (not_not.mpr h)]

/-- Segments of a chain follow each other. -/
theorem chainBreak_of_hold {directory : String} {base : ℤ} {older : List Segment}
    {rss : List (List Record)} {active : Segment} {closed : Bool}
    (h : OlderHold closed base older rss)
    (hb : active.baseOffset = base + rss.flatten.length) :
    chainBreak directory (older ++ [active]) = none := by
  induction older generalizing base rss with
  | nil => rfl
  | cons s segs ih =>
    cases rss with
    | nil => exact h.elim
    | cons c rss =>
      obtain ⟨⟨hs, hsb, -⟩, h⟩ := h
      have hb' : active.baseOffset = base + c.length + rss.flatten.length := by
        rw [hb, List.flatten_cons, List.length_append]
        push_cast
        ring
      have hih := ih h hb'
      have hnext := hs.next
      cases segs with
      | nil =>
        cases rss with
        | nil =>
          rw [List.singleton_append, chainBreak_cons (by rw [hb', hnext, hsb]; simp)]
          rfl
        | cons c' rss => exact h.elim
      | cons s' segs =>
        cases rss with
        | nil => exact h.elim
        | cons c' rss =>
          rw [List.cons_append, List.cons_append, chainBreak_cons (by rw [h.1.2.1, hnext, hsb])]
          exact hih

/-- **Sealing what is durable already** changes no file. -/
theorem closeAll_of_sealed {disk : Disk} {base : ℤ} {segs : List Segment}
    {rss : List (List Record)} (h : OlderHold false base segs rss)
    (hsealed : Sealed disk.view base rss) :
    ∃ segs' disk', closeAll segs disk = (.ok (), segs', disk') ∧ OlderHold true base segs' rss
      ∧ disk'.view = disk.view ∧ ∀ P, disk.Always P → disk'.Always P := by
  induction segs generalizing base rss disk with
  | nil =>
    cases rss with
    | nil => exact ⟨[], disk, rfl, trivial, rfl, fun P hP => hP⟩
    | cons c rss => exact h.elim
  | cons s segs ih =>
    cases rss with
    | nil => exact h.elim
    | cons c rss =>
      obtain ⟨⟨hs, hb, hc⟩, h⟩ := h
      obtain ⟨⟨-, -, hf⟩, hsealed⟩ := hsealed
      obtain ⟨s', disk₁, hclose, hs', hb', -, hc', hv, ha⟩ := hs.close hc disk
      have hsame : (disk.onLog s.baseOffset .fsync).view = disk.view := by
        rw [Disk.view_onLog, hb, hf, Call.fsync_onFile, ← hf, Function.update_eq_self]
      rw [hsame] at hv
      have ha' : ∀ P, disk.Always P → disk₁.Always P := by
        intro P hP
        rw [ha, Disk.always_onLog, ← Disk.view_onLog, hsame]
        exact ⟨hP, hP.now⟩
      rw [← hv] at hsealed
      obtain ⟨segs', disk', hall, hold, hv', ha''⟩ := ih h hsealed
      refine ⟨s' :: segs', disk', ?_, ⟨⟨hs', hb'.trans hb, hc'⟩, hold⟩, hv'.trans hv,
        fun P hP => ha'' P (ha' P hP)⟩
      rw [closeAll, hclose]
      simp only [hall]

/-- Closing closed segments does nothing. -/
theorem closeEach_of_closed {base : ℤ} {segs : List Segment} {rss : List (List Record)}
    (h : OlderHold true base segs rss) (disk : Disk) :
    closeEach segs disk = ([], segs, disk) := by
  induction segs generalizing base rss with
  | nil => rfl
  | cons s segs ih =>
    cases rss with
    | nil => exact h.elim
    | cons c rss =>
      rw [closeEach, Segment.close_of_closed h.1.2.2]
      simp only [ih h.2]

/-- **A log that stands for what its directory stores.** -/
structure Holds (l : Log) (v : ℤ → Option File) (rss : List (List Record)) (rs : List Record)
    (d : Option ℕ) : Prop where
  stored : Stored v rss rs [] d
  tail : v rss.flatten.length = some ⟨framing.encAll rs, d⟩
  older : OlderHold true 0 l.older rss
  active : l.active.Holds rs
  active_base : l.active.baseOffset = rss.flatten.length
  active_open : l.active.closed = false
  limit : 0 < l.maxSegmentBytes ∧ l.maxSegmentBytes ≤ maxU32 + 1

omit [Crc32] in
/-- The base offsets of a directory's files, in order. -/
theorem sort_glob_of_names {dir : Dir} {bases : List ℤ} (hpw : bases.Pairwise (· < ·))
    (hmem : ∀ b, (dir.logs.view b).isSome ↔ b ∈ bases) :
    dir.glob.insertionSort (· ≤ ·) = bases := by
  have hperm : (dir.glob.insertionSort (· ≤ ·)).Perm bases :=
    (List.perm_insertionSort _ _).trans ((List.perm_ext_iff_of_nodup dir.nodup_glob
      (hpw.imp fun hlt => hlt.ne)).mpr fun b => (dir.mem_glob b).trans (hmem b))
  exact hperm.eq_of_pairwise' (List.pairwise_insertionSort _ _) (hpw.imp le_of_lt)

/-- The files of a chain, sorted by name; an empty log may have none. -/
theorem sort_glob {dir : Dir} {rss : List (List Record)} {rs : List Record} {t : Bytes}
    {d : Option ℕ} (h : Stored dir.logs.view rss rs t d) :
    dir.glob.insertionSort (· ≤ ·) = chainBases 0 rss
      ∨ rss = [] ∧ rs = [] ∧ dir.glob = [] := by
  by_cases hsome : (dir.logs.view rss.flatten.length).isSome
  · exact Or.inl (sort_glob_of_names (chainBases_pairwise h.sealed.nonempty) fun b =>
      ⟨h.names b, isSome_of_mem_chainBases h.sealed (by rwa [zero_add])⟩)
  · have hnil : rss = [] := by
      by_contra hne
      exact hsome (h.tail_isSome hne)
    subst hnil
    have hnone : dir.logs.view 0 = none := Option.not_isSome_iff_eq_none.mp hsome
    have htail := congrArg File.content h.tail
    rw [List.flatten_nil, List.length_nil, Nat.cast_zero, hnone] at htail
    have hlen := Record.length_le_encAll rs
    have hlen' := congrArg List.length htail
    rw [List.length_append] at hlen'
    have hzero : rs.length = 0 := by
      have : (Option.getD none File.empty).content.length = 0 := rfl
      omega
    refine Or.inr ⟨rfl, List.length_eq_zero_iff.mp hzero, ?_⟩
    refine List.eq_nil_iff_forall_not_mem.mpr fun b hb => ?_
    rw [Dir.mem_glob] at hb
    have hb₀ := h.names b hb
    rw [chainBases, List.mem_singleton] at hb₀
    rw [hb₀, hnone] at hb
    cases hb

/-- **Opening a directory that stores a chain**: the log holds it, and the
torn bytes of the tail are gone. -/
theorem init_of_stored (disk : Disk) {maxBytes : ℤ} (directory : String)
    (hmax : 0 < maxBytes ∧ maxBytes ≤ maxU32 + 1) {rss : List (List Record)}
    {rs : List Record} {t : Bytes} {d : Option ℕ} (h : Stored disk.view rss rs t d) :
    ∃ l disk', init disk directory maxBytes = (.ok l, disk') ∧ l.Holds disk'.view rss rs d
      ∧ disk'.view = Function.update disk.view rss.flatten.length (some ⟨framing.encAll rs, d⟩)
      ∧ ∀ P, disk.Always P → P (Function.update disk.view rss.flatten.length
          (some ⟨framing.encAll rs ++ t, d⟩)) → P disk'.view → disk'.Always P := by
  obtain ⟨bases, hbases⟩ := chainBases_eq_cons 0 rss
  have hdurable : d.getD 0 ≤ (framing.encAll rs).length := by
    obtain ⟨n, hn⟩ := h.durable
    rw [← hn]
    have := framing.encAll_take_append_drop rs n
    rw [← this, List.length_append]
    exact Nat.le_add_right _ _
  obtain ⟨older, active, disk₁, hopen, hold, hact, hab, hac, hv, ha⟩ := openAll_of_sealed hmax
    hbases h.sealed h.valid h.consecutive (by rw [zero_add]; exact h.tail) h.torn h.small hdurable
  rw [zero_add] at hv ha hab
  have hsmall : (framing.encAll rs).length ≤ maxU32 + 1 := by
    have := h.small
    rw [List.length_append] at this
    omega
  have hstored : Stored disk₁.view rss rs [] d := by
    have := h.setTail h.valid_tail h.consecutive_tail Record.torn_nil
      (by rw [List.append_nil]; exact hsmall) h.durable
    rwa [List.append_nil, ← hv] at this
  obtain ⟨older', disk', hclose, hold', hv', ha'⟩ := closeAll_of_sealed hold hstored.sealed
  rw [← hv'] at hstored
  refine ⟨⟨directory, maxBytes, older', active⟩, disk', ?_, ⟨hstored, ?_, hold', hact, hab, hac,
    hmax⟩, hv'.trans hv, ?_⟩
  · unfold init
    have hfirst : Log.bases disk.dir = (0, bases) := by
      unfold Log.bases
      rcases sort_glob h with hs | ⟨rfl, -, hs⟩
      · rw [hs, hbases]
      · rw [hs]
        cases hbases
        rfl
    simp only [hfirst, hopen]
    rw [chainBreak_of_hold hold (by rw [hab, zero_add])]
    simp only [hclose]
  · rw [hv', hv, Function.update_self]
  · intro P hP hP₁ hP₂
    refine ha' P (ha P hP hP₁ ?_)
    rw [← hv']
    exact hP₂

/-! ## Writing

Each operation answers, keeps the relation, and says which states of the files
it went through. A write and a roll are separate lemmas, and an append is the
one or the two. -/

namespace Holds

variable {l : Log} {disk : Disk} {rss : List (List Record)} {rs : List Record} {d : Option ℕ}

/-- The next offset counts the records. -/
theorem nextOffset_eq (h : l.Holds disk.view rss rs d) :
    l.nextOffset = ((rss.flatten ++ rs).length : ℕ) := by
  rw [nextOffset, h.active.next, h.active_base, List.length_append]
  push_cast
  ring

/-- What the directory stores once the tail is durable. -/
theorem stored_durable (h : l.Holds disk.view rss rs d) :
    Stored (Function.update disk.view rss.flatten.length
      (some ⟨framing.encAll rs, some (framing.encAll rs).length⟩)) rss rs []
      (some (framing.encAll rs).length) := by
  have hdurable : ∃ n, (framing.encAll (rs.take n)).length
      = (some (framing.encAll rs).length).getD 0 := ⟨rs.length, by rw [List.take_length]; rfl⟩
  have hset := h.stored.setTail h.active.valid h.stored.consecutive_tail Record.torn_nil
    h.stored.small hdurable
  rwa [List.append_nil] at hset

/-- **Syncing** makes the tail durable. -/
theorem sync (h : l.Holds disk.view rss rs d) :
    ∃ l' disk', l.sync disk = (.ok (), l', disk')
      ∧ l'.Holds disk'.view rss rs (some (framing.encAll rs).length)
      ∧ ∀ P, disk.Always P → P disk'.view → disk'.Always P := by
  obtain ⟨s', disk', hsync, hs', hb, -, hc, hv, ha⟩ := h.active.sync h.active_open disk
  have hview : disk'.view = Function.update disk.view rss.flatten.length
      (some ⟨framing.encAll rs, some (framing.encAll rs).length⟩) := by
    rw [hv, Disk.view_onLog, h.active_base, h.tail, Call.fsync_onFile]
  refine ⟨{ l with active := s' }, disk', ?_, ⟨?_, ?_, h.older, hs', hb.trans h.active_base, hc,
    h.limit⟩, ?_⟩
  · unfold Log.sync
    rw [hsync]
  · rw [hview]
    exact h.stored_durable
  · rw [hview, Function.update_self]
  · intro P hP hP'
    rw [ha, Disk.always_onLog, ← Disk.view_onLog, ← hv]
    exact ⟨hP, hP'⟩

/-- **Closing** makes the tail durable too, and seals it. -/
theorem close (h : l.Holds disk.view rss rs d) :
    ∃ l' disk', l.close disk = (.ok (), l', disk')
      ∧ Stored disk'.view rss rs [] (some (framing.encAll rs).length)
      ∧ ∀ P, disk.Always P → P disk'.view → disk'.Always P := by
  obtain ⟨s', disk', hclose, -, -, -, -, hv, ha⟩ := h.active.close h.active_open disk
  have hview : disk'.view = Function.update disk.view rss.flatten.length
      (some ⟨framing.encAll rs, some (framing.encAll rs).length⟩) := by
    rw [hv, Disk.view_onLog, h.active_base, h.tail, Call.fsync_onFile]
  refine ⟨{ l with active := s' }, disk', ?_, ?_, ?_⟩
  · unfold Log.close
    rw [closeEach_of_closed h.older]
    simp only [hclose]
  · rw [hview]
    exact h.stored_durable
  · intro P hP hP'
    rw [ha, Disk.always_onLog, ← Disk.view_onLog, ← hv]
    exact ⟨hP, hP'⟩

/-- Rolling an empty tail does nothing. -/
theorem roll_of_empty (h : l.Holds disk.view rss [] d) :
    l.roll disk = (.ok (), l, disk) := by
  unfold Log.roll
  rw [if_pos (h.active.position_eq_zero_iff.mpr rfl)]

/-- **Rolling** seals the tail and starts an empty one. -/
theorem roll (h : l.Holds disk.view rss rs d) (hne : rs ≠ []) :
    ∃ l' disk', l.roll disk = (.ok (), l', disk')
      ∧ l'.Holds disk'.view (rss ++ [rs]) [] none
      ∧ ∀ P, disk.Always P
        → (∀ v, Stored v rss rs [] (some (framing.encAll rs).length) → P v)
        → P disk'.view → disk'.Always P := by
  obtain ⟨s', disk₁, hclose, hs', hb, -, hc, hv, ha⟩ := h.active.close h.active_open disk
  have hview : disk₁.view = Function.update disk.view rss.flatten.length
      (some ⟨framing.encAll rs, some (framing.encAll rs).length⟩) := by
    rw [hv, Disk.view_onLog, h.active_base, h.tail, Call.fsync_onFile]
  have hstored₁ : Stored disk₁.view rss rs [] (some (framing.encAll rs).length) := by
    rw [hview]
    exact h.stored_durable
  -- no file has the new name yet
  have hpos := List.length_pos_iff.mpr hne
  have hnext : s'.nextOffset = ((rss.flatten.length + rs.length : ℕ) : ℤ) := by
    rw [hs'.next, hb, h.active_base]
    push_cast
    ring
  have hfresh : (disk₁.view s'.nextOffset).getD File.empty = File.empty := by
    cases hf : disk₁.view s'.nextOffset with
    | none => rfl
    | some f =>
      have hmem := hstored₁.names s'.nextOffset (by rw [hf]; rfl)
      have := (mem_chainBases hmem).2
      rw [hnext] at this
      push_cast at this
      omega
  have hstored₂ := hstored₁.sealTail hne
  rw [← hnext] at hstored₂
  obtain ⟨s, disk', hinit, hs, hsb, hsc, hv', ha'⟩ := Segment.init_of_fresh h.limit hfresh
  rw [← hv'] at hstored₂
  refine ⟨{ l with older := l.older ++ [s'], active := s }, disk', ?_,
    ⟨hstored₂, ?_, ?_, hs, ?_, hsc, h.limit⟩, ?_⟩
  · unfold Log.roll
    rw [if_neg (fun h0 => hne (h.active.position_eq_zero_iff.mp h0)), hclose]
    simp only [hinit]
  · have hlen : ((rss ++ [rs]).flatten.length : ℤ) = s'.nextOffset := by
      rw [hnext]
      simp
    rw [hlen, hv', Function.update_self]
    rfl
  · refine h.older.append hs' ?_ hc
    rw [hb, h.active_base, zero_add]
  · rw [hsb, hnext]
    simp
  · intro P hP hP₁ hP₂
    refine ha' P ?_ hP₂
    rw [ha, Disk.always_onLog, ← Disk.view_onLog, ← hv]
    exact ⟨hP, hP₁ _ hstored₁⟩

/-- **Writing to a tail with room**: one more record in it. -/
theorem write (h : l.Holds disk.view rss rs d) {r : Record} (henc : r.Encodable)
    (hoff : r.offset = l.nextOffset) (hroom : l.active.hasRoomFor r = true) :
    ∃ active' disk', l.active.append disk r = (.ok l.active.position, active', disk')
      ∧ Log.Holds { l with active := active' } disk'.view rss (rs ++ [r]) d
      ∧ ∀ P, disk.Always P → P disk'.view → disk'.Always P := by
  have hbase : disk.view l.active.baseOffset = some ⟨framing.encAll rs, d⟩ := by
    rw [h.active_base]
    exact h.tail
  obtain ⟨s', happ, hs', hb, -, hc⟩ := h.active.append h.active_open hbase rfl henc hoff hroom
  have hview : (disk.onLog l.active.baseOffset (.write r.frame)).view
      = Function.update disk.view rss.flatten.length (some ⟨framing.encAll (rs ++ [r]), d⟩) := by
    rw [Disk.view_onLog, hbase, Call.write_onFile, h.active_base]
    simp [Record.enc_framing]
  refine ⟨s', _, happ, ⟨?_, ?_, h.older, hs', hb.trans h.active_base, hc, h.limit⟩, ?_⟩
  · have hcons := hs'.consecutive
    rw [hb, h.active_base] at hcons
    have hdurable : ∃ n, (framing.encAll ((rs ++ [r]).take n)).length = d.getD 0 := by
      obtain ⟨n, hn⟩ := h.stored.durable
      refine ⟨min n rs.length, ?_⟩
      rw [List.take_append_of_le_length (Nat.min_le_right _ _), ← List.take_take,
        List.take_length, ← hn]
    have hset := h.stored.setTail hs'.valid hcons Record.torn_nil
      (by simpa [Record.enc_framing] using h.active.small_append henc hroom) hdurable
    rwa [List.append_nil, ← hview] at hset
  · rw [hview, Function.update_self]
  · intro P hP hP'
    rw [Disk.always_onLog, ← Disk.view_onLog]
    exact ⟨hP, hP'⟩

end Holds

/-! ## Reading

The segments before the one that can contain the offset are skipped. Of the
others the first is read from the offset and the rest from their bases, which
together is what is behind the offset. -/

/-- **A log that serves reads**: of the records in its older segments and in
the active one, behind which there may be more bytes. -/
structure Serves (l : Log) (v : ℤ → Option File) (base : ℤ) (rss : List (List Record))
    (rs : List Record) (t : Bytes) : Prop where
  older : OlderHold true base l.older rss
  filed : Filed v base rss
  active : l.active.Holds rs
  active_base : l.active.baseOffset = base + rss.flatten.length
  tail : ∃ f, v (base + rss.flatten.length) = some f ∧ f.content = framing.encAll rs ++ t
  /-- The active segment has the last of the files. -/
  names : ∀ b, (v b).isSome → b ≤ base + rss.flatten.length
  limit : 0 < l.maxSegmentBytes ∧ l.maxSegmentBytes ≤ maxU32 + 1

namespace Serves

variable {l : Log} {dir : Dir} {base : ℤ} {rss : List (List Record)} {rs : List Record} {t : Bytes}

/-- The chain starts at its base. -/
theorem firstBase_eq {v : ℤ → Option File} (h : l.Serves v base rss rs t) :
    l.firstBase = base := by
  have hold := h.older
  unfold firstBase
  cases hl : l.older with
  | nil =>
    rw [hl] at hold
    cases rss with
    | cons c rss => exact hold.elim
    | nil => simpa using h.active_base
  | cons s segs =>
    rw [hl] at hold
    cases rss with
    | nil => exact hold.elim
    | cons c rss => exact hold.1.2.1

/-- The records of a log count up and can be read. -/
theorem records {v : ℤ → Option File} (h : l.Serves v base rss rs t) :
    (∀ r ∈ rss.flatten ++ rs, r.Encodable) ∧ Consecutive base (rss.flatten ++ rs) := by
  obtain ⟨hvalid, hcons⟩ := h.older.records
  refine ⟨fun r hr => ?_, Consecutive.append_iff.mpr ⟨hcons, ?_⟩⟩
  · rcases List.mem_append.mp hr with hr | hr
    · exact hvalid r hr
    · exact h.active.valid r hr
  · rw [← h.active_base]
    exact h.active.consecutive

/-- The next offset is behind the records. -/
theorem nextOffset_eq {v : ℤ → Option File} (h : l.Serves v base rss rs t) :
    l.nextOffset = base + ((rss.flatten ++ rs).length : ℕ) := by
  rw [nextOffset, h.active.next, h.active_base, List.length_append]
  push_cast
  ring

/-- The bases of its segments increase. -/
theorem increasing {v : ℤ → Option File} (h : l.Serves v base rss rs t) :
    (l.segments.map Segment.baseOffset).Pairwise (· < ·) := by
  rw [segments, h.older.map_baseOffset h.active_base]
  exact chainBases_pairwise h.filed.nonempty

/-- With nothing behind its records it is a chain to its end. -/
theorem linked {v : ℤ → Option File} (h : l.Serves v base rss rs []) :
    Linked v base l.segments (rss ++ [rs]) := by
  obtain ⟨f, hf, hcontent⟩ := h.tail
  rw [List.append_nil] at hcontent
  exact (h.older.linked h.filed).append ⟨⟨h.active, h.active_base, f, hf, hcontent⟩, trivial⟩

/-- **Reading a log** from an offset gives the records from there on,
whatever torn bytes stand behind them. -/
theorem readFrom (h : l.Serves dir.logs.view base rss rs t) (htorn : Record.Torn t) {offset : ℤ}
    (hle : base ≤ offset) :
    l.readFrom dir offset = .ok ⟨(rss.flatten ++ rs).drop (offset - base).toNat, none⟩ := by
  obtain ⟨f, hf, hcontent⟩ := h.tail
  have holder : Linked dir.logs.view base l.older rss := h.older.linked h.filed
  have hnone : Linked dir.logs.view (l.active.baseOffset + (0 : ℕ)) [] [] := trivial
  have hactive := h.active.readFrom (h.active_base ▸ hf) hcontent htorn
    (le_max_right offset l.active.baseOffset)
  unfold Log.readFrom
  rw [if_neg (by rw [h.firstBase_eq]; omega), iterFrom]
  -- the read starts at an older segment or at the active one
  rcases readAll_segmentsFrom h.increasing holder h.active_base hnone hle with
    ⟨-, heq⟩ | ⟨⟨hne, -⟩, -⟩
  · rw [segments, heq, holder.readAll_append, readAll, hactive]
    simp only [readAll, Read.done, List.append_nil]
    rw [List.drop_append, h.active_base,
      show (max offset (base + rss.flatten.length) - (base + rss.flatten.length)).toNat
        = (offset - base).toNat - rss.flatten.length by omega]
  · exact absurd rfl hne

/-- Before the chain there is nothing to read, and an exception of its own
class says so. -/
theorem readFrom_lt (h : l.Serves dir.logs.view base rss rs t) {offset : ℤ} (hlt : offset < base) :
    ∃ msg, l.readFrom dir offset = .error (.offsetOutOfRange msg) := by
  unfold Log.readFrom
  rw [if_pos (by rw [h.firstBase_eq]; exact hlt)]
  exact ⟨_, rfl⟩

end Serves

/-- A log that stands for what its directory stores serves reads of it. -/
theorem Holds.serves {l : Log} {v : ℤ → Option File} {rss : List (List Record)}
    {rs : List Record} {d : Option ℕ} (h : l.Holds v rss rs d) : l.Serves v 0 rss rs [] where
  older := h.older
  filed := h.stored.sealed.filed
  active := h.active
  active_base := by rw [h.active_base, zero_add]
  tail := ⟨_, by rw [zero_add]; exact h.tail, (List.append_nil _).symm⟩
  names b hb := (mem_chainBases (h.stored.names b hb)).2
  limit := h.limit

end Log

end Pyka
