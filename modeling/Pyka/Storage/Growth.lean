import Pyka.Storage.Interleaving
import Pyka.Storage.Opening

/-!
# What writers leave alone

Between the steps of a read, a writer adds: segments to the chain, bytes to
the end of the last file, records to the end of the list. Nothing that was
there is taken away or changed (`Grows`), and the writer is never in the way
of its own next step (`Writes`); that is shown for each of its steps
(`Writes.work`).

## What the writer needs

Between two of its steps the writer is in the middle of something, and the log
is not in order as a log in memory: a tail is sealed with no other behind it,
or the file holds bytes that the segment does not know of. `Writer.Ready` says
for each place in a roll or an append what is so there. The bytes behind the
records are always the front of one frame, that of the record in flight; as
long as it is not whole, a reader takes it for the end of the file, and when
it is, for a record like the others.

## What a read may rely on

A read that has looked at something and comes back later finds it again: the
list of records, the one in flight included, has only got longer, the bases of
the segments are the front of the later ones, and no file is shorter. It says
nothing of the writer's own bookkeeping, to which reads do not look, and it is
transitive in effect: a read that waits is disturbed by many steps no more
than by one.
-/

namespace Pyka

open Struct (Bytes)
open Record (framing)

variable [Crc32]

/-! ## One segment of a chain

Segments share one list of records. The piece that a segment holds ends where
the next one's base is, or, for the last one, where the records do. -/

/-- **A segment of a chain that serves reads** holds a piece of the records,
and the next one starts where the piece ends. -/
theorem Log.Serves.getElem? {l : Log} {v : ℤ → Option File} {base : ℤ} {rss : List (List Record)}
    {rs : List Record} {t : Bytes} (h : l.Serves v base rss rs t) {i : ℕ} {s : Segment}
    (hi : l.segments[i]? = some s) :
    ∃ pre c post u, rss.flatten ++ rs = pre ++ (c ++ post) ∧ s.Holds c
      ∧ s.baseOffset = base + pre.length
      ∧ (∃ f, v s.baseOffset = some f ∧ f.content = framing.encAll c ++ u)
      ∧ ((∃ s', l.segments[i + 1]? = some s' ∧ s'.baseOffset = s.baseOffset + c.length ∧ u = [])
        ∨ l.segments[i + 1]? = none ∧ post = [] ∧ u = t) := by
  obtain ⟨hold, hfiled, hact, hb, htail, -, -⟩ := h
  unfold Log.segments at hi ⊢
  generalize l.older = older at hi hold ⊢
  induction older generalizing base rss i with
  | nil =>
    cases rss with
    | cons c rss => exact hold.elim
    | nil =>
      cases i with
      | succ i => simp at hi
      | zero =>
        obtain rfl : l.active = s := by simpa using hi
        exact ⟨[], rs, [], t, by simp, hact, by simpa using hb,
          by rw [hb]; exact htail, Or.inr ⟨rfl, rfl, rfl⟩⟩
  | cons s₀ older ih =>
    cases rss with
    | nil => exact hold.elim
    | cons c rss =>
      obtain ⟨⟨hs, hsb, -⟩, hold⟩ := hold
      obtain ⟨⟨-, hf⟩, hfiled⟩ := hfiled
      have hend : base + (((c :: rss).flatten.length : ℕ) : ℤ)
          = base + c.length + rss.flatten.length := by
        rw [List.flatten_cons, List.length_append]
        push_cast
        ring
      rw [hend] at hb htail
      cases i with
      | zero =>
        obtain rfl : s₀ = s := by simpa using hi
        refine ⟨[], c, rss.flatten ++ rs, [], by simp, hs, by simpa using hsb,
          by rw [hsb, List.append_nil]; exact hf, Or.inl ?_⟩
        rw [List.cons_append, List.getElem?_cons_succ]
        cases older with
        | nil =>
          cases rss with
          | cons c' rss => exact hold.elim
          | nil => exact ⟨l.active, rfl, by rw [hb, hsb]; simp, rfl⟩
        | cons s₁ older =>
          cases rss with
          | nil => exact hold.elim
          | cons c' rss => exact ⟨s₁, rfl, by rw [hold.1.2.1, hsb], rfl⟩
      | succ i =>
        rw [List.cons_append, List.getElem?_cons_succ] at hi ⊢
        obtain ⟨pre, c', post, u, hflat, hrest⟩ := ih hfiled hb htail hi hold
        obtain ⟨hs', hsb', hrest⟩ := hrest
        refine ⟨c ++ pre, c', post, u, ?_, hs', ?_, hrest⟩
        · rw [List.flatten_cons, List.append_assoc, hflat, List.append_assoc]
        · rw [hsb', List.length_append]
          push_cast
          ring

namespace Interleaving

/-! ## What the writer keeps

The state of the writer, the log and the directory, in terms of the chunks of
records that the chain holds. -/

/-- **A writer that can go on**: what of the record in flight the file ends
in, and what the step it is about to take needs. -/
def Writer.Ready (l : Log) (rs : List Record) (t : Bytes) : Writer → Prop
  | idle => l.active.closed = false ∧ t = []
  | rolling next => l.active.closed = false ∧ t = [] ∧ ∀ r ∈ next, r.offset = l.nextOffset
  | opening next =>
    l.active.closed = true ∧ t = [] ∧ rs ≠ [] ∧ ∀ r ∈ next, r.offset = l.nextOffset
  | appending r =>
    l.active.closed = false ∧ t = [] ∧ r.offset = l.nextOffset ∧ l.active.hasRoomFor r = true
  | writing r left =>
    l.active.closed = false ∧ t ++ left = r.frame ∧ r.Encodable ∧ r.offset = l.nextOffset
      ∧ l.active.hasRoomFor r = true

/-- **The writer's part of a state.** -/
structure Writes (s : State) (base : ℤ) (rss : List (List Record)) (rs : List Record)
    (t : Bytes) : Prop where
  serves : s.log.Serves s.disk.view base rss rs t
  appended : s.appended = rss.flatten ++ rs
  ready : s.writer.Ready s.log rs t

/-- The records, the one in flight included. -/
def State.all (s : State) : List Record := s.appended ++ s.writer.inFlight

/-- How many records come before a segment of the chain. -/
def start (base b : ℤ) : ℕ := (b - base).toNat

/-- How many records come before a place in the chain. -/
def State.endOf (s : State) (base : ℤ) (n : ℕ) : ℕ :=
  match s.bases[n]? with
  | some b => start base b
  | none => s.appended.length

/-- How many records of a segment are wholly in its file. -/
def State.visible (s : State) (base b : ℤ) : ℕ :=
  framing.whole (s.all.drop (start base b)) (s.content b).length

/-- **One state later**: nothing is taken away. -/
structure Grows (base : ℤ) (s s' : State) : Prop where
  all : s.all <+: s'.all
  bases : s.bases <+: s'.bases
  content : ∀ b ∈ s.bases, (s.content b).length ≤ (s'.content b).length
  appended : s.appended <+: s'.appended
  endOf : s.endOf base s.bases.length ≤ s'.endOf base s.bases.length

omit [Crc32] in
/-- Where the chain is the same, the records, the files and the list are to be
looked at. -/
theorem Grows.of_bases_eq {base : ℤ} {s s' : State} (hall : s.all <+: s'.all)
    (hbases : s'.bases = s.bases)
    (hcontent : ∀ b ∈ s.bases, (s.content b).length ≤ (s'.content b).length)
    (happended : s.appended <+: s'.appended) : Grows base s s' where
  all := hall
  bases := hbases ▸ List.prefix_rfl
  content := hcontent
  appended := happended
  endOf := by
    have hnone : s.bases[s.bases.length]? = none := List.getElem?_eq_none le_rfl
    unfold State.endOf
    rw [hbases, hnone]
    exact happended.length_le

omit [Crc32] in
/-- A file with the same bytes is no shorter. -/
theorem State.length_content_le {s s' : State} {b : ℤ}
    (h : (s'.disk.view b).map File.content = (s.disk.view b).map File.content) :
    (s.content b).length ≤ (s'.content b).length := by
  have hget : ∀ o : Option File, (o.getD File.empty).content = (o.map File.content).getD [] :=
    fun o => by cases o <;> rfl
  show ((s.disk.view b).getD File.empty).content.length
    ≤ ((s'.disk.view b).getD File.empty).content.length
  rw [hget, hget, h]

end Interleaving

/-- **The tail rewritten**: the other files keep their bytes. -/
theorem Log.Serves.setTail {l : Log} {v v' : ℤ → Option File} {base : ℤ}
    {rss : List (List Record)} {rs rs' : List Record} {t t' : Bytes}
    (h : l.Serves v base rss rs t) {active : Segment} (hact : active.Holds rs')
    (hb : active.baseOffset = l.active.baseOffset)
    (hv : ∀ b, b ≠ l.active.baseOffset →
      (v' b).map File.content = (v b).map File.content)
    (htail : ∃ f, v' l.active.baseOffset = some f ∧ f.content = framing.encAll rs' ++ t') :
    Log.Serves { l with active } v' base rss rs' t' where
  older := h.older
  filed := h.filed.congr fun b _ hlt => hv b (by rw [h.active_base]; omega)
  active := hact
  active_base := hb.trans h.active_base
  tail := by rw [← h.active_base]; exact htail
  names b hsome := by
    by_cases hb' : b = l.active.baseOffset
    · rw [hb', h.active_base]
    · refine h.names b ?_
      rw [← Option.isSome_map (f := File.content), ← hv b hb', Option.isSome_map]
      exact hsome
  limit := h.limit

/-- **The tail sealed**, with an empty one behind it. -/
theorem Log.Serves.sealTail {l : Log} {v v' : ℤ → Option File} {base : ℤ}
    {rss : List (List Record)} {rs : List Record} (h : l.Serves v base rss rs [])
    (hclosed : l.active.closed = true) (hne : rs ≠ []) {active : Segment} (hact : active.Holds [])
    (hb : active.baseOffset = l.active.nextOffset) {f : File} (hf : f.content = [])
    (hv : v' = Function.update v l.active.nextOffset (some f)) :
    Log.Serves { l with older := l.older ++ [l.active], active } v' base (rss ++ [rs]) [] [] := by
  have hpos := List.length_pos_iff.mpr hne
  have hnext : l.active.nextOffset = base + rss.flatten.length + rs.length := by
    rw [h.active.next, h.active_base]
  have hend : base + (((rss ++ [rs]).flatten.length : ℕ) : ℤ) = l.active.nextOffset := by
    rw [hnext, List.flatten_append, List.length_append, List.flatten_singleton]
    push_cast
    ring
  have hother : ∀ b, b ≤ base + rss.flatten.length → v' b = v b := fun b hle => by
    rw [hv, Function.update_of_ne (by omega)]
  obtain ⟨f₀, hf₀, hcontent⟩ := h.tail
  rw [List.append_nil] at hcontent
  refine ⟨h.older.append h.active h.active_base hclosed, Filed.append_iff.mpr
    ⟨h.filed.congr fun b _ hlt => by rw [hother b hlt.le], hne, f₀, ?_, hcontent⟩, hact,
    hb.trans hend.symm, ⟨f, ?_, by rw [hf]; rfl⟩, fun b hsome => ?_, h.limit⟩
  · rw [hother _ le_rfl, hf₀]
  · rw [hend, hv, Function.update_self]
  · rw [hend]
    by_cases hb' : b = l.active.nextOffset
    · exact hb'.le
    · rw [hv, Function.update_of_ne hb'] at hsome
      have := h.names b hsome
      omega

namespace Interleaving

section Work

variable {s : State} {base : ℤ} {rss : List (List Record)} {rs : List Record} {t : Bytes}

/-- After a roll the tail is empty and takes any record. -/
theorem Writer.ready_resume {l : Log} (hopen : l.active.closed = false)
    (hempty : l.active.position = 0) {next : Option Record}
    (hnext : ∀ r ∈ next, r.offset = l.nextOffset) : (Writer.resume next).Ready l [] [] := by
  cases next with
  | none => exact ⟨hopen, rfl⟩
  | some r =>
    refine ⟨hopen, rfl, hnext r rfl, ?_⟩
    unfold Segment.hasRoomFor
    rw [if_pos hempty]

omit [Crc32] in
@[simp] theorem Writer.inFlight_resume (next : Option Record) :
    (Writer.resume next).inFlight = [] := by
  cases next <;> rfl

/-- **A step that reads can bear**: the writer can go on from the state after
it, nothing is taken away, and the read is where it was, with the same still
to yield. -/
structure Goes (base : ℤ) (s s' : State) : Prop where
  writes : ∃ rss rs t, Writes s' base rss rs t
  grows : Grows base s s'
  reader : s'.reader = s.reader
  before : s'.before = s.before

/-- The writer alone goes on, with no record in flight. -/
theorem Writes.goes_writer (h : Writes s base rss rs t) {writer : Writer}
    (hready : writer.Ready s.log rs t) (hfly : s.writer.inFlight <+: writer.inFlight) :
    Goes base s { s with writer } :=
  ⟨⟨rss, rs, t, h.serves, h.appended, hready⟩,
    .of_bases_eq (List.prefix_append_right_inj _ |>.mpr hfly) rfl (fun _ _ => le_rfl)
      List.prefix_rfl, rfl, rfl⟩

omit [Crc32] in
/-- The bases are those of the older segments and the active one. -/
theorem bases_setActive {active : Segment} (hb : active.baseOffset = s.log.active.baseOffset)
    {disk : Disk} {writer : Writer} {appended : List Record} :
    State.bases { s with log := { s.log with active }, disk, writer, appended } = s.bases := by
  simp only [State.bases, Log.segments, List.map_append, List.map_singleton, hb]

/-- A step of `roll` up to the sealing. -/
theorem Writes.work_rolling (h : Writes s base rss rs t) {next : Option Record}
    (hw : s.writer = .rolling next) (n : ℕ) : Goes base s (s.work n) := by
  have hready := h.ready
  rw [hw] at hready
  obtain ⟨hopen, rfl, hnext⟩ := hready
  by_cases hempty : s.log.active.position = 0
  · obtain rfl := h.serves.active.position_eq_zero_iff.mp hempty
    simp only [State.work, hw, if_pos hempty]
    exact h.goes_writer (Writer.ready_resume hopen hempty hnext) (by rw [hw]; exact List.nil_prefix)
  · obtain ⟨active, disk', hclose, hs, hb, -, hc, hv, -⟩ := h.serves.active.close hopen s.disk
    have hcontent : ∀ b, (disk'.view b).map File.content = (s.disk.view b).map File.content := by
      intro b
      rw [hv, Disk.content_fsync]
    obtain ⟨f, hf, hcf⟩ := h.serves.tail
    obtain ⟨f', hf', hcf'⟩ := Option.map_eq_some_iff.mp
      ((hcontent (base + rss.flatten.length)).trans (by rw [hf]; rfl))
    have hserves : Log.Serves { s.log with active } disk'.view base rss rs [] :=
      h.serves.setTail hs hb (fun b _ => hcontent b)
        ⟨f', by rw [h.serves.active_base]; exact hf', hcf'.trans hcf⟩
    simp only [State.work, hw, if_neg hempty, hclose]
    refine ⟨⟨rss, rs, [], hserves, h.appended, hc, rfl, ?_, ?_⟩, .of_bases_eq ?_
      (bases_setActive hb) (fun b _ => ?_) List.prefix_rfl, rfl, rfl⟩
    · rintro rfl
      exact hempty (h.serves.active.position_eq_zero_iff.mpr rfl)
    · intro r hr
      rw [hnext r hr, Log.nextOffset, Log.nextOffset, hs.next, h.serves.active.next, hb]
    · simp [State.all, hw, Writer.inFlight]
    · exact State.length_content_le (hcontent b)

/-- The step of `roll` that opens the new segment. -/
theorem Writes.work_opening (h : Writes s base rss rs t) {next : Option Record}
    (hw : s.writer = .opening next) (n : ℕ) : Goes base s (s.work n) := by
  have hready := h.ready
  rw [hw] at hready
  obtain ⟨hclosed, rfl, hne, hnext⟩ := hready
  have hpos := List.length_pos_iff.mpr hne
  have hend : s.log.active.nextOffset = base + rss.flatten.length + rs.length := by
    rw [h.serves.active.next, h.serves.active_base]
  have hfresh : (s.disk.view s.log.active.nextOffset).getD File.empty = File.empty := by
    cases hf : s.disk.view s.log.active.nextOffset with
    | none => rfl
    | some f =>
      have := h.serves.names s.log.active.nextOffset (by rw [hf]; rfl)
      omega
  obtain ⟨active, disk', hinit, hs, hb, hopen, hv, -⟩ := Segment.init_of_fresh h.serves.limit hfresh
  have hserves := h.serves.sealTail hclosed hne hs hb rfl hv
  have hother : ∀ b, b ∈ s.bases → (disk'.view b).map File.content
      = (s.disk.view b).map File.content := by
    intro b hb'
    have hle : b < s.log.active.nextOffset := by
      unfold State.bases Log.segments at hb'
      rw [h.serves.older.map_baseOffset h.serves.active_base] at hb'
      have := (mem_chainBases hb').2
      omega
    rw [hv, Function.update_of_ne hle.ne]
  simp only [State.work, hw, hinit]
  refine ⟨⟨rss ++ [rs], [], [], hserves, ?_, Writer.ready_resume hopen
    (hs.position_eq_zero_iff.mpr rfl) ?_⟩, ⟨?_, ?_, fun b hb' => ?_, List.prefix_rfl, ?_⟩, rfl, rfl⟩
  · simp [h.appended]
  · intro r hr
    rw [hnext r hr, Log.nextOffset, Log.nextOffset, hs.next, hb]
    simp
  · simp [State.all, hw, Writer.inFlight]
  · refine ⟨[active.baseOffset], ?_⟩
    simp [State.bases, Log.segments]
  · exact State.length_content_le (hother b hb')
  · -- the new segment starts where the records end
    have hlen : s.bases.length = s.log.older.length + 1 := by simp [State.bases, Log.segments]
    have hnone : s.bases[s.bases.length]? = none := List.getElem?_eq_none le_rfl
    have hsome : (s.log.older.map Segment.baseOffset ++ [s.log.active.baseOffset]
        ++ [active.baseOffset])[s.log.older.length + 1]? = some active.baseOffset := by
      rw [List.getElem?_append_right (by simp)]
      simp
    unfold State.endOf
    rw [hnone, hlen]
    simp only [State.bases, Log.segments, List.map_append, List.map_singleton, hsome]
    rw [start, hb, hend, h.appended, List.length_append]
    omega

/-- The step of `append` that encodes the record. -/
theorem Writes.work_appending (h : Writes s base rss rs t) {r : Record}
    (hw : s.writer = .appending r) (n : ℕ) : Goes base s (s.work n) := by
  have hready := h.ready
  rw [hw] at hready
  obtain ⟨hopen, rfl, hoff, hroom⟩ := hready
  cases he : r.encode with
  | error e =>
    simp only [State.work, hw, Segment.encodeNext_refused hoff he]
    exact h.goes_writer ⟨hopen, rfl⟩ (by rw [hw]; exact List.nil_prefix)
  | ok bs =>
    have henc := ((Record.encode_eq_ok_iff r bs).mp he).1
    simp only [State.work, hw, Segment.encodeNext_of_encodable hoff henc hopen]
    exact h.goes_writer ⟨hopen, rfl, henc, hoff, hroom⟩ (by rw [hw]; exact List.nil_prefix)

/-- The step of `append` that flushes bytes. -/
theorem Writes.work_writing (h : Writes s base rss rs t) {r : Record} {b : UInt8} {left : Bytes}
    (hw : s.writer = .writing r (b :: left)) (n : ℕ) : Goes base s (s.work n) := by
  have hready := h.ready
  rw [hw] at hready
  obtain ⟨hopen, hframe, henc, hoff, hroom⟩ := hready
  obtain ⟨f, hf, hcf⟩ := h.serves.tail
  have hview := Disk.view_onLog s.disk s.log.active.baseOffset
    (.write ((b :: left).take (n + 1)))
  rw [h.serves.active_base, hf, Call.write_onFile, hcf, List.append_assoc] at hview
  have hother : ∀ b', b' ≠ s.log.active.baseOffset →
      ((s.disk.onLog s.log.active.baseOffset (.write ((b :: left).take (n + 1)))).view b').map
          File.content = (s.disk.view b').map File.content := by
    intro b' hb'
    rw [h.serves.active_base] at hb' ⊢
    rw [hview, Function.update_of_ne hb']
  have hserves : Log.Serves s.log (s.disk.onLog s.log.active.baseOffset
      (.write ((b :: left).take (n + 1)))).view base rss rs _ :=
    h.serves.setTail h.serves.active rfl hother
    ⟨_, by rw [h.serves.active_base, hview, Function.update_self], rfl⟩
  simp only [State.work, hw]
  refine ⟨⟨rss, rs, _, hserves, h.appended, hopen, ?_, henc, hoff, hroom⟩, .of_bases_eq ?_ rfl
    (fun b' hb' => ?_) List.prefix_rfl, rfl, rfl⟩
  · rw [List.append_assoc, List.take_append_drop, hframe]
  · simp [State.all, hw, Writer.inFlight]
  · show ((s.disk.view b').getD File.empty).content.length
      ≤ (((s.disk.onLog s.log.active.baseOffset
          (.write ((b :: left).take (n + 1)))).view b').getD File.empty).content.length
    rw [h.serves.active_base, hview]
    by_cases hb'' : b' = base + rss.flatten.length
    · subst hb''
      rw [hf, Function.update_self, Option.getD_some, Option.getD_some, hcf, ← List.append_assoc]
      simp only [List.length_append]
      exact Nat.le_add_right _ _
    · rw [Function.update_of_ne hb'']

/-- The step of `append` behind the flush. -/
theorem Writes.work_written (h : Writes s base rss rs t) {r : Record}
    (hw : s.writer = .writing r []) (n : ℕ) : Goes base s (s.work n) := by
  have hready := h.ready
  rw [hw] at hready
  obtain ⟨hopen, hframe, henc, hoff, hroom⟩ := hready
  rw [List.append_nil] at hframe
  obtain ⟨f, hf, hcf⟩ := h.serves.tail
  rw [hframe] at hcf
  rw [← h.serves.active_base] at hf
  have hcontent : s.disk.content s.log.active.baseOffset
      = framing.encAll rs ++ r.frame := by
    rw [Disk.content_eq, hf, Option.getD_some, hcf]
  obtain ⟨active, hadvance, hs, hb, -, hopen'⟩ :=
    h.serves.active.advance hopen hcontent henc hoff hroom
  have hserves : Log.Serves { s.log with active } s.disk.view base rss (rs ++ [r]) [] :=
    h.serves.setTail hs hb (fun b _ => rfl) ⟨f, hf, by rw [hcf]; simp [Record.enc_framing]⟩
  simp only [State.work, hw, hadvance]
  refine ⟨⟨rss, rs ++ [r], [], hserves, ?_, hopen', rfl⟩, .of_bases_eq ?_ (bases_setActive hb)
    (fun b _ => le_rfl) (List.prefix_append _ _), rfl, rfl⟩
  · rw [h.appended, List.append_assoc]
  · simp [State.all, hw, Writer.inFlight]

/-- **One step of the writer** can be borne. -/
theorem Writes.work (h : Writes s base rss rs t) (n : ℕ) : Goes base s (s.work n) := by
  cases hw : s.writer with
  | idle =>
    have hsame : s.work n = s := by simp only [State.work, hw]
    rw [hsame]
    exact ⟨⟨rss, rs, t, h⟩, .of_bases_eq List.prefix_rfl rfl (fun _ _ => le_rfl) List.prefix_rfl,
      rfl, rfl⟩
  | rolling next => exact h.work_rolling hw n
  | opening next => exact h.work_opening hw n
  | appending r => exact h.work_appending hw n
  | writing r left =>
    cases left with
    | nil => exact h.work_written hw n
    | cons b left => exact h.work_writing hw n

end Work

end Interleaving

end Pyka
