import Pyka.Storage.WellFormed

/-!
# An opening that is refused

`Log.init` recovers the segments of a directory one after the other, and
recovering one cuts the torn bytes off its file. Whether the files fit
together is asked after that, and a file further on may turn out to be
corrupt. So a directory that is refused need not be as it was:
`Folder.init_refused_iff` says when it is.

A directory can hold `.log` files that no segment has made. Their names are
read as numbers with the others, so a `Folder` has them, too. What `int` makes
of a name is a parameter: Python accepts blanks, signs and underscores, and
other digits than the ten, and none of this matters to what is shown.

## How far an opening comes

The files are opened in the order of their offsets, up to the first that
cannot be read (`Log.Came`). Those before it are cut down to their records, it
and those behind it are left alone; after that nothing is written, whether the
chain has a hole or a segment fails to close. So the bytes that are lost in a
refused opening are the torn ends of the files before the first that cannot be
read – or of all files, where every one can be and the chain is what is
refused.

## What is kept

To be kept is to have the same bytes (`Folder.Keeps`): an opening may touch a
file that is empty or sync one, and may create the file of offset `0`. Two
refusals come before any file is looked at, that of the limit and that of a
name that is no number.
-/

namespace Pyka

open Struct (Bytes)
open Record (framing)

/-- A `.log` file under a name that is no segment's: the stem of the name, and
its bytes. -/
structure Stray where
  stem : String
  content : Bytes
  foreign : ∀ base, stem ≠ pad20 base

/-- A log's directory with all the files that `glob("*.log")` finds. -/
structure Folder where
  disk : Disk
  strays : List Stray

variable [Crc32]

namespace Segment

/-- **A file that can be opened**: well formed, with records that the index
takes. -/
structure Reads (base : ℤ) (bs : Bytes) (rs : List Record) (t : Bytes) : Prop
    extends WellFormed base bs rs t where
  indexed : ∃ index, feed (freshIndex base) base 0 rs = .ok index

/-- Some reading of a file: there are records and a torn rest that it is made
of. -/
def Readable (base : ℤ) (bs : Bytes) : Prop := ∃ rs t, Reads base bs rs t

/-- A file that is not there yet can be opened. -/
theorem readable_nil (base : ℤ) : Readable base [] :=
  ⟨[], [], ⟨rfl, by simp, trivial, Record.torn_nil⟩, freshIndex base, rfl⟩

/-- Without its torn bytes it can be opened, too. -/
theorem Reads.cut {base : ℤ} {bs t : Bytes} {rs : List Record} (h : Reads base bs rs t) :
    Reads base (framing.encAll rs) rs [] :=
  ⟨h.toWellFormed.cut, h.indexed⟩

section Init

variable {disk disk' : Disk} {base M : ℤ}

/-- **What a successful opening did**: it read the file, and left the records
of it and every other file. -/
theorem init_reads {s : Segment} (h : init disk base M = (.ok s, disk')) :
    ∃ rs t, Reads base (disk.content base) rs t
      ∧ (∃ f, disk'.view base = some f ∧ f.content = framing.encAll rs)
      ∧ ∀ b, b ≠ base → disk'.view b = disk.view b := by
  obtain ⟨rs, t, index, hw, hfeed, -, hf⟩ := init_made h
  obtain ⟨-, -, -, -, -, -, hother⟩ := init_eq_ok h
  exact ⟨rs, t, ⟨hw, index, hfeed⟩, hf, hother⟩

/-- **What a refused opening did**: it could not read the file, and left every
file. -/
theorem init_refused (hmax : 0 < M ∧ M ≤ maxU32 + 1) {e : PyError}
    (h : init disk base M = (.error e, disk')) :
    ¬Readable base (disk.content base)
      ∧ ∀ b f, disk.view b = some f → disk'.view b = some f := by
  constructor
  · rintro ⟨rs, t, hw, index, hfeed⟩
    have hfst := init_wellFormed hmax hw
    rw [h, hfeed] at hfst
    cases hfst
  · intro b f hf
    rw [view_init_error hmax h]
    by_cases hb : b = base
    · rw [hb, Function.update_self, ← hb, hf]
      rfl
    · rw [Function.update_of_ne hb, hf]

omit [Crc32] in
/-- Sealing a segment changes no byte. -/
theorem close_content (s : Segment) (disk : Disk) (b : ℤ) :
    ((s.close disk).2.2.view b).map File.content = (disk.view b).map File.content := by
  have hsync : ((s.sync disk).2.2.view b).map File.content = (disk.view b).map File.content := by
    unfold sync Index.sync
    split
    · rfl
    · show ((_ : Disk).view b).map File.content = _
      split <;> exact Disk.content_fsync disk s.baseOffset b
  unfold close
  split
  · rfl
  · cases hs : s.sync disk with
    | mk res rest =>
      rw [hs] at hsync
      cases res with
      | error e => exact hsync
      | ok _ =>
        refine Eq.trans ?_ hsync
        show (((rest.1.index.close rest.2).2.2).view b).map File.content = _
        unfold Index.close Index.sync
        split_ifs <;> rfl

end Init

end Segment

namespace Log

/-- What `init` does with the base offsets. -/
def initBases (disk : Disk) (directory : String) (maxSegmentBytes : ℤ) (bases : ℤ × List ℤ) :
    Except PyError Log × Disk :=
  match openAll maxSegmentBytes bases.1 bases.2 disk with
  | (.error e, disk) => (.error e, disk)
  | (.ok (older, active), disk) =>
    match chainBreak directory (older ++ [active]) with
    | some e => (.error e, disk)
    | none =>
      match closeAll older disk with
      | (.error e, _, disk) => (.error e, disk)
      | (.ok (), older, disk) => (.ok { directory, maxSegmentBytes, older, active }, disk)

/-- **How far an opening came.** The files opened are the longest front that
can be read; they have been cut down to their records, and the files that were
there otherwise are as they were. -/
structure Came (v v' : ℤ → Option File) (opened rest : List ℤ) : Prop where
  readable : ∀ b ∈ opened, Segment.Readable b ((v b).getD File.empty).content
  stopped : ∀ b ∈ rest.head?, ¬Segment.Readable b ((v b).getD File.empty).content
  cut : ∀ b ∈ opened, ∀ f rs t, v b = some f → Segment.Reads b f.content rs t →
    ∃ f', v' b = some f' ∧ f'.content = framing.encAll rs
  kept : ∀ b, b ∉ opened → ∀ f, v b = some f → ∃ f', v' b = some f' ∧ f'.content = f.content

namespace Came

variable {v v₁ v' : ℤ → Option File} {base : ℤ} {opened rest : List ℤ}

/-- **One file more in front**, which was opened first. -/
theorem cons (h : Came v₁ v' opened rest) {rs : List Record} {t : Bytes}
    (hreads : Segment.Reads base ((v base).getD File.empty).content rs t)
    (hf : ∃ f, v₁ base = some f ∧ f.content = framing.encAll rs)
    (hother : ∀ b, b ≠ base → v₁ b = v b) : Came v v' (base :: opened) rest := by
  obtain ⟨f₁, hf₁, hcontent⟩ := hf
  have hbase₁ : ((v₁ base).getD File.empty).content = framing.encAll rs := by
    rw [hf₁, Option.getD_some, hcontent]
  refine ⟨List.forall_mem_cons.mpr ⟨⟨rs, t, hreads⟩, fun b hb => ?_⟩, fun b hb hread => ?_, ?_, ?_⟩
  · by_cases heq : b = base
    · exact heq ▸ ⟨rs, t, hreads⟩
    · rw [← hother b heq]
      exact h.readable b hb
  · refine h.stopped b hb ?_
    by_cases heq : b = base
    · rw [heq, hbase₁]
      exact ⟨rs, [], hreads.cut⟩
    · rwa [hother b heq]
  · intro b hb f rs' t' hf hreads'
    by_cases heq : b = base
    · subst heq
      rw [hf, Option.getD_some] at hreads
      obtain ⟨rfl, -⟩ := hreads.toWellFormed.unique hreads'.toWellFormed
      by_cases hagain : b ∈ opened
      · exact h.cut b hagain f₁ rs' [] hf₁ (hcontent ▸ hreads.cut)
      · obtain ⟨f', hf', hcontent'⟩ := h.kept b hagain f₁ hf₁
        exact ⟨f', hf', hcontent'.trans hcontent⟩
    · rw [← hother b heq] at hf
      exact h.cut b ((List.mem_cons.mp hb).resolve_left heq) f rs' t' hf hreads'
  · intro b hb f hf
    obtain ⟨hne, hb⟩ := not_or.mp (List.mem_cons.not.mp hb)
    rw [← hother b hne] at hf
    exact h.kept b hb f hf

/-- The first file is refused. -/
theorem of_refused {disk disk' : Disk} {M : ℤ} (hmax : 0 < M ∧ M ≤ maxU32 + 1) {e : PyError}
    (h : Segment.init disk base M = (.error e, disk')) (bases : List ℤ) :
    Came disk.view disk'.view [] (base :: bases) := by
  obtain ⟨hnot, hkept⟩ := Segment.init_refused hmax h
  refine ⟨by simp, fun b hb => ?_, by simp, fun b _ f hf => ⟨f, hkept b f hf, rfl⟩⟩
  obtain rfl : base = b := Option.some.inj hb
  exact hnot

/-- There is nothing to open. -/
theorem nil (v : ℤ → Option File) : Came v v [] [] :=
  ⟨by simp, by simp, by simp, fun _ _ f hf => ⟨f, hf, rfl⟩⟩

end Came

/-- **What opening segments does to their files**, whether it raises or not. -/
theorem openAll_came {M base : ℤ} (hmax : 0 < M ∧ M ≤ maxU32 + 1) {bases : List ℤ}
    {disk disk' : Disk} {res : Except PyError (List Segment × Segment)}
    (h : openAll M base bases disk = (res, disk')) :
    ∃ opened rest, base :: bases = opened ++ rest ∧ Came disk.view disk'.view opened rest := by
  induction bases generalizing base disk disk' res with
  | nil =>
    rw [openAll] at h
    cases hinit : Segment.init disk base M with
    | mk first disk₁ =>
    rw [hinit] at h
    cases first with
    | error e =>
      cases h
      exact ⟨[], [base], rfl, .of_refused hmax hinit []⟩
    | ok s =>
      cases h
      obtain ⟨rs, t, hreads, hf, hother⟩ := Segment.init_reads hinit
      exact ⟨[base], [], rfl, (Came.nil _).cons hreads hf hother⟩
  | cons next bases ih =>
    rw [openAll] at h
    cases hinit : Segment.init disk base M with
    | mk first disk₁ =>
    rw [hinit] at h
    cases first with
    | error e =>
      cases h
      exact ⟨[], base :: next :: bases, rfl, .of_refused hmax hinit _⟩
    | ok s =>
      obtain ⟨rs, t, hreads, hf, hother⟩ := Segment.init_reads hinit
      cases hrest : openAll M next bases disk₁ with
      | mk found disk₂ =>
      obtain ⟨opened, rest, heq, hcame⟩ := ih hrest
      have hdisk : disk₂ = disk' := by
        simp only [hrest] at h
        cases found with
        | error e => exact congrArg Prod.snd h
        | ok found => exact congrArg Prod.snd h
      exact ⟨base :: opened, rest, by rw [heq, List.cons_append],
        hdisk ▸ hcame.cons hreads hf hother⟩

omit [Crc32] in
/-- Sealing segments changes no byte. -/
theorem closeAll_content (segs : List Segment) (disk : Disk) (b : ℤ) :
    ((closeAll segs disk).2.2.view b).map File.content = (disk.view b).map File.content := by
  induction segs generalizing disk with
  | nil => rfl
  | cons s segs ih =>
    have hs := s.close_content disk b
    rw [closeAll]
    cases hclose : s.close disk with
    | mk res rest =>
    rw [hclose] at hs
    cases res with
    | error e => exact hs
    | ok _ => exact (ih rest.2).trans hs

/-- After that no byte changes: the chain is looked at, and segments are
sealed. -/
theorem initBases_content {M base : ℤ} {bases : List ℤ} {disk disk₁ disk' : Disk}
    {directory : String} {found : Except PyError (List Segment × Segment)}
    {res : Except PyError Log}
    (h : initBases disk directory M (base, bases) = (res, disk'))
    (hopen : openAll M base bases disk = (found, disk₁)) (b : ℤ) :
    (disk'.view b).map File.content = (disk₁.view b).map File.content := by
  unfold initBases at h
  simp only [hopen] at h
  cases found with
  | error e =>
    cases h
    rfl
  | ok found =>
    simp only at h
    split at h
    · cases h
      rfl
    · have hclose := closeAll_content found.1 disk₁ b
      split at h
      · next heq =>
        cases h
        rwa [heq] at hclose
      · next heq =>
        cases h
        rwa [heq] at hclose

/-- A limit that is none is found out before any file is touched. -/
theorem initBases_of_limit {M : ℤ} (hmax : ¬(0 < M ∧ M ≤ maxU32 + 1)) (disk : Disk)
    (directory : String) (bases : ℤ × List ℤ) :
    (initBases disk directory M bases).2 = disk := by
  obtain ⟨e, he⟩ : ∃ e, Segment.init disk bases.1 M = (.error e, disk) := by
    unfold Segment.init
    rw [if_pos hmax]
    exact ⟨_, rfl⟩
  have hopen : openAll M bases.1 bases.2 disk = (.error e, disk) := by
    cases bases.2 <;> rw [openAll, he]
  unfold initBases
  rw [hopen]

/-- **How far opening the segments of a directory comes**, with the file
contents it ends with. -/
theorem initBases_came {M : ℤ} (hmax : 0 < M ∧ M ≤ maxU32 + 1) {bases : ℤ × List ℤ}
    {disk disk' : Disk} {directory : String} {res : Except PyError Log}
    (h : initBases disk directory M bases = (res, disk')) :
    ∃ opened rest, bases.1 :: bases.2 = opened ++ rest ∧ Came disk.view disk'.view opened rest := by
  cases hopen : openAll M bases.1 bases.2 disk with
  | mk found disk₁ =>
  obtain ⟨opened, rest, heq, hcame⟩ := openAll_came hmax hopen
  have hcontent := initBases_content h hopen
  have hkeep : ∀ b f bs, disk₁.view b = some f → f.content = bs →
      ∃ f', disk'.view b = some f' ∧ f'.content = bs := fun b f bs hf hbs => by
    have hb := hcontent b
    rw [hf, Option.map_some, hbs] at hb
    exact Option.map_eq_some_iff.mp hb
  refine ⟨opened, rest, heq, hcame.readable, hcame.stopped, fun b hb f rs t hf hreads => ?_,
    fun b hb f hf => ?_⟩
  · obtain ⟨f₁, hf₁, hbs⟩ := hcame.cut b hb f rs t hf hreads
    exact hkeep b f₁ _ hf₁ hbs
  · obtain ⟨f₁, hf₁, hbs⟩ := hcame.kept b hb f hf
    exact hkeep b f₁ _ hf₁ hbs

end Log

namespace Folder

omit [Crc32] in
/-- `Offset(int(p.stem))`; what `int` makes of a text is a parameter. -/
def baseOf (int : String → Option ℤ) (s : Stray) : Except PyError ℤ :=
  match int s.stem with
  | some base => .ok base
  | none => .error (.valueError s!"invalid literal for int() with base 10: '{s.stem}'")

/-- The base offsets in order, the first one apart, those of the strays among
them. -/
def bases (folder : Folder) (others : List ℤ) : ℤ × List ℤ :=
  match (folder.disk.dir.glob ++ others).insertionSort (· ≤ ·) with
  | [] => (0, [])
  | base :: bases => (base, bases)

/-- **Open the log of a directory**, of whatever names its `.log` files are. -/
def init (int : String → Option ℤ) (folder : Folder) (directory : String) (maxSegmentBytes : ℤ) :
    Except PyError Log × Folder :=
  match folder.strays.mapM (baseOf int) with
  | .error e => (.error e, folder)
  | .ok others =>
    let (res, disk) := Log.initBases folder.disk directory maxSegmentBytes (folder.bases others)
    (res, { folder with disk })

/-- Without strays this is `Log.init`. -/
theorem init_of_no_strays (int : String → Option ℤ) (disk : Disk) (directory : String)
    (maxSegmentBytes : ℤ) :
    init int ⟨disk, []⟩ directory maxSegmentBytes
      = ((Log.init disk directory maxSegmentBytes).1,
          ⟨(Log.init disk directory maxSegmentBytes).2, []⟩) := by
  have hbases : bases ⟨disk, []⟩ [] = Log.bases disk.dir := by
    have hglob : disk.dir.glob ++ [] = disk.dir.glob := List.append_nil _
    unfold bases Log.bases
    cases hsorted : disk.dir.glob.insertionSort (· ≤ ·) with
    | nil => simp only [hglob, hsorted]
    | cons base others => simp only [hglob, hsorted]
  unfold init
  rw [List.mapM_nil]
  show ((Log.initBases disk directory maxSegmentBytes (bases ⟨disk, []⟩ [])).1, _) = _
  rw [hbases]
  rfl

/-- Every `.log` file that was there has the bytes it had, and so has every
file under another name. -/
def Keeps (folder folder' : Folder) : Prop :=
  (∀ b f, folder.disk.view b = some f →
      ∃ f', folder'.disk.view b = some f' ∧ f'.content = f.content)
    ∧ ∀ s ∈ folder.strays, s ∈ folder'.strays

/-- **A file that opening cuts**: torn bytes stand behind its records, and it
and all the files of lower offsets can be opened. -/
def Cuts (folder : Folder) (b : ℤ) : Prop :=
  (∃ f rs t, folder.disk.view b = some f ∧ Segment.Reads b f.content rs t ∧ t ≠ [])
    ∧ ∀ b' f, b' < b → folder.disk.view b' = some f → Segment.Readable b' f.content

omit [Crc32] in
/-- The base offsets are in order, and those of all files are among them. -/
theorem bases_spec (folder : Folder) (others : List ℤ) :
    ((folder.bases others).1 :: (folder.bases others).2).Pairwise (· ≤ ·)
      ∧ ∀ b, (folder.disk.view b).isSome →
        b ∈ (folder.bases others).1 :: (folder.bases others).2 := by
  have hmem : ∀ b, (folder.disk.view b).isSome →
      b ∈ (folder.disk.dir.glob ++ others).insertionSort (· ≤ ·) := fun b hb => by
    rw [(List.perm_insertionSort (· ≤ ·) _).mem_iff]
    exact List.mem_append_left _ ((Dir.mem_glob _ b).mpr hb)
  have hsorted := List.pairwise_insertionSort (· ≤ ·) (folder.disk.dir.glob ++ others)
  unfold bases
  generalize (folder.disk.dir.glob ++ others).insertionSort (· ≤ ·) = bases at hmem hsorted
  cases bases with
  | nil => exact ⟨List.pairwise_singleton _ _, fun b hb => absurd (hmem b hb) (by simp)⟩
  | cons base bases => exact ⟨hsorted, hmem⟩

/-- **The files cut are the torn ones among those opened.** -/
theorem cuts_iff {folder : Folder} {v' : ℤ → Option File} {bases opened rest : List ℤ} {b : ℤ}
    (hsorted : bases.Pairwise (· ≤ ·)) (hnames : ∀ b, (folder.disk.view b).isSome → b ∈ bases)
    (heq : bases = opened ++ rest) (h : Log.Came folder.disk.view v' opened rest) :
    folder.Cuts b ↔ b ∈ opened
      ∧ ∃ f rs t, folder.disk.view b = some f ∧ Segment.Reads b f.content rs t ∧ t ≠ [] := by
  subst heq
  have horder := List.pairwise_append.mp hsorted
  constructor
  · rintro ⟨⟨f, rs, t, hf, hreads, ht⟩, hbelow⟩
    refine ⟨?_, f, rs, t, hf, hreads, ht⟩
    refine (List.mem_append.mp (hnames b (by rw [hf]; rfl))).resolve_right fun hrest => ?_
    obtain ⟨r, rest, rfl⟩ := List.exists_cons_of_ne_nil (List.ne_nil_of_mem hrest)
    refine h.stopped r rfl ?_
    -- the first file that is refused is at or below `b`
    have hle : r ≤ b := by
      rcases List.mem_cons.mp hrest with rfl | hrest
      · exact le_rfl
      · exact (List.pairwise_cons.mp horder.2.1).1 b hrest
    cases hr : folder.disk.view r with
    | none => exact Segment.readable_nil r
    | some f' =>
      rcases hle.lt_or_eq with hlt | rfl
      · exact hbelow r f' hlt hr
      · rw [hf] at hr
        cases hr
        exact ⟨rs, t, hreads⟩
  · rintro ⟨hb, f, rs, t, hf, hreads, ht⟩
    refine ⟨⟨f, rs, t, hf, hreads, ht⟩, fun b' f' hlt hf' => ?_⟩
    rcases List.mem_append.mp (hnames b' (by rw [hf']; rfl)) with hb' | hb'
    · have := h.readable b' hb'
      rwa [hf', Option.getD_some] at this
    · exact absurd (horder.2.2 b hb b' hb') (not_le.mpr hlt)

/-- **A directory that is refused is left as it was** exactly where none of its
files is cut – or where the refusal comes before any of them is opened: the
size limit is none, or the name of a `.log` file is no number. -/
theorem init_refused_iff (int : String → Option ℤ) {folder folder' : Folder} {directory : String}
    {M : ℤ} {e : PyError} (h : folder.init int directory M = (.error e, folder')) :
    folder.Keeps folder' ↔ ¬(0 < M ∧ M ≤ maxU32 + 1) ∨ (∃ s ∈ folder.strays, int s.stem = none)
      ∨ ∀ b, ¬folder.Cuts b := by
  have hstray : ∀ s : Stray, int s.stem = none ↔ ∀ base, baseOf int s ≠ .ok base := fun s => by
    unfold baseOf
    cases int s.stem <;> simp
  unfold init at h
  cases hmap : folder.strays.mapM (baseOf int) with
  | error e' =>
    rw [hmap] at h
    cases h
    obtain ⟨s, hs, hnone⟩ := mapM_eq_error hmap
    refine iff_of_true ⟨fun b f hf => ⟨f, hf, rfl⟩, fun s hs => hs⟩ (Or.inr (Or.inl ⟨s, hs, ?_⟩))
    exact (hstray s).mpr fun base => by simp [hnone]
  | ok others =>
    rw [hmap] at h
    have hnumbers : ¬∃ s ∈ folder.strays, int s.stem = none := by
      rintro ⟨s, hs, hnone⟩
      obtain ⟨base, hbase⟩ := eq_ok_of_mapM hmap hs
      exact (hstray s).mp hnone base hbase
    rw [or_iff_right hnumbers]
    cases hinit : Log.initBases folder.disk directory M (folder.bases others) with
    | mk res disk =>
    simp only [hinit] at h
    cases h
    by_cases hmax : 0 < M ∧ M ≤ maxU32 + 1
    · rw [or_iff_right (not_not.mpr hmax)]
      obtain ⟨opened, rest, heq, hcame⟩ := Log.initBases_came hmax hinit
      obtain ⟨hsorted, hnames⟩ := folder.bases_spec others
      have hcuts := fun b => cuts_iff (b := b) hsorted hnames heq hcame
      constructor
      · rintro ⟨hkeeps, -⟩ b hb
        obtain ⟨hopened, f, rs, t, hf, hreads, ht⟩ := (hcuts b).mp hb
        -- what is left of the file is shorter than it was
        obtain ⟨f', hf', hcut⟩ := hcame.cut b hopened f rs t hf hreads
        obtain ⟨f'', hf'', hsame⟩ := hkeeps b f hf
        rw [hf'] at hf''
        cases hf''
        have hlen := congrArg List.length (hcut.symm.trans hsame)
        rw [hreads.content, List.length_append] at hlen
        exact ht (List.length_eq_zero_iff.mp (by omega))
      · intro hnone
        refine ⟨fun b f hf => ?_, fun s hs => hs⟩
        by_cases hb : b ∈ opened
        · obtain ⟨rs, t, hreads⟩ := hcame.readable b hb
          rw [hf, Option.getD_some] at hreads
          have ht : t = [] := by
            by_contra ht
            exact hnone b ((hcuts b).mpr ⟨hb, f, rs, t, hf, hreads, ht⟩)
          obtain ⟨f', hf', hcut⟩ := hcame.cut b hb f rs t hf hreads
          exact ⟨f', hf', by rw [hcut, hreads.content, ht, List.append_nil]⟩
        · exact hcame.kept b hb f hf
    · have hsame := Log.initBases_of_limit hmax folder.disk directory (folder.bases others)
      rw [hinit] at hsame
      simp only at hsame
      subst hsame
      exact iff_of_true ⟨fun b f hf => ⟨f, hf, rfl⟩, fun s hs => hs⟩ (Or.inl hmax)

/-! ## A hole in the chain

The smallest directory that is refused after everything in it was opened. What
is behind the record in the first file decides whether it is as it was. -/

/-- Records before a hole: the file of offset 0 holds one record and some bytes
behind it, and the next file is that of offset 5. -/
def holed (behind : Bytes) : Folder :=
  ⟨.of ⟨(AList.singleton 5 File.empty).insert 0
    ⟨framing.encAll [⟨0, 1234, some [], none⟩] ++ behind, none⟩, ∅⟩, []⟩

/-- What is raised for the hole. -/
def hole : PyError := .corruptLog ("segment chain broken in orders-0: "
  ++ "00000000000000000000.log ends at 1, next file starts at 5")

omit [Crc32] in
/-- **Bytes are cut off before the hole is seen.** -/
theorem refused_open_cuts : let _ := Crc32.zlib
    ∃ folder', (holed [0, 0, 0]).init (fun _ => none) "orders-0" 1024 = (.error hole, folder')
      ∧ ¬(holed [0, 0, 0]).Keeps folder' := by
  intro _
  have hraised : ((holed [0, 0, 0]).init (fun _ => none) "orders-0" 1024).1 = .error hole := by
    decide +kernel
  refine ⟨_, Prod.ext hraised rfl, fun hkeeps => ?_⟩
  have hbefore : (holed [0, 0, 0]).disk.view 0 = some ⟨_, none⟩ := rfl
  obtain ⟨f', hf', hsame⟩ := hkeeps.1 0 _ hbefore
  have hafter : (((holed [0, 0, 0]).init (fun _ => none) "orders-0" 1024).2.disk.view 0).map
      (fun f => f.content.length) = some 32 := by
    decide +kernel
  rw [hf', Option.map_some, hsame] at hafter
  exact absurd hafter (by decide +kernel)

omit [Crc32] in
theorem init_refused_iff_holed : let _ := Crc32.zlib
    ∃ folder', (holed []).init (fun _ => none) "orders-0" 1024 = (.error hole, folder')
      ∧ (holed []).Keeps folder' := by
  intro _
  have hraised : ((holed []).init (fun _ => none) "orders-0" 1024).1 = .error hole := by
    decide +kernel
  obtain ⟨folder', hinit⟩ : ∃ folder',
      (holed []).init (fun _ => none) "orders-0" 1024 = (.error hole, folder') :=
    ⟨_, Prod.ext hraised rfl⟩
  refine ⟨folder', hinit, (init_refused_iff _ hinit).mpr (Or.inr (Or.inr ?_))⟩
  -- neither file has anything behind its records
  rintro b ⟨⟨f, rs, t, hf, hreads, ht⟩, -⟩
  have hwhole : ∃ rs', WellFormed b f.content rs' [] := by
    have hmem : b ∈ (holed []).disk.dir.glob :=
      (Dir.mem_glob _ b).mpr (show ((holed []).disk.view b).isSome by rw [hf]; rfl)
    have hnames : (holed []).disk.dir.glob = [0, 5] := by decide +kernel
    rw [hnames, List.mem_cons, List.mem_singleton] at hmem
    rcases hmem with rfl | rfl
    · obtain rfl : _ = f := Option.some.inj hf
      exact ⟨[⟨0, 1234, some [], none⟩], rfl, by decide, by decide, Record.torn_nil⟩
    · obtain rfl : _ = f := Option.some.inj hf
      exact ⟨[], rfl, by simp, trivial, Record.torn_nil⟩
  obtain ⟨rs', hwhole⟩ := hwhole
  exact ht (hwhole.unique hreads.toWellFormed).2

end Folder

end Pyka
