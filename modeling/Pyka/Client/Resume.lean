import Pyka.Broker.Drain

/-!
# Resuming after a restart

Each record carries its own offset, which is how a caller of `consume` knows
where to go on: its next stream starts behind the last record that it has got.
No acknowledgement is sent and the broker remembers nothing of a reader.
Whatever happens between (the stream is left or aborted, the process is
stopped, killed, started with other settings or under another ring), what the
reader has got is a piece of the log from its first offset on, without a gap
or a duplicate (`Resume.resumes`).

## The reader

A reader has a first offset, the records it has got, and a stream if it has
one. It asks for what comes behind its last record, it takes records off its
stream one at a time, and it may leave the stream; the stream itself is one of
those of the process, and goes on by the steps of the process. How many
records of it have arrived is the reader's own count: what the stream has
yielded beyond that is on its way, and is lost to the reader when the stream
is. It asks for it again then.

## What it rests on

Two facts about processes. Every event of a process leaves the logs as they
are or adds to them, short of a power failure (`Holds.spares`); and a stream
stays in its place with its request, having yielded a piece of its log
(`Sound.stream_step`). So the piece that the reader has got is still a piece
of the log when it comes back, whichever process it comes back to, and it is
in the same place, since the offset of a record is its place in the log.
-/

namespace Pyka

/-! ## Streams of a process

A stream keeps its place in the list of streams as long as the process lives. -/

namespace LiveTail

variable [Crc32] {s s' : State} {synced : String → ℕ → ℕ}

omit [Crc32] in
/-- A new stream has its request, and has yielded nothing. -/
theorem Stream.start_fst (request : ConsumeRequest) (tail : Tail) :
    (Stream.start request tail).1.request = request ∧ (Stream.start request tail).1.out = [] := by
  unfold Stream.start
  obtain ⟨waiter, hagain⟩ := Stream.again_fst ⟨request, request.offset,
    if 0 < request.maxRecords ∧ request.follow = false then some request.maxRecords else none, [],
    .returned⟩ tail
  rw [hagain]
  exact ⟨rfl, rfl⟩

/-- A stream that comes is the last of the streams. -/
theorem exec_consume {request : ConsumeRequest} (h : exec s (.consume request) = some s') :
    ∃ st, s'.streams[s.streams.length]? = some st ∧ st.request = request ∧ st.out = [] := by
  have hs' : s'.streams = s.streams ++ [(Stream.start request s.store.tail).1] :=
    congrArg State.streams (Option.some.inj h).symm
  rw [hs']
  exact ⟨_, List.getElem?_concat_length, Stream.start_fst request s.store.tail⟩

/-- **A stream is still there**, in its place and with its request; if it has
yielded more, then its offset is none below zero. -/
def Stream.Stays (st : Stream) (streams : List Stream) (i : ℕ) : Prop :=
  ∃ st', streams[i]? = some st' ∧ st'.request = st.request
    ∧ (st'.out = st.out ∨ 0 ≤ st.request.offset)

/-- **Every step leaves the streams in their places.** -/
theorem Sound.stream_step (h : Sound s synced) {act : Act} (hexec : exec s act = some s') {i : ℕ}
    {st : Stream} (hst : s.streams[i]? = some st) : st.Stays s'.streams i := by
  have hset : ∀ {j : ℕ} {old new : Stream}, s.streams[j]? = some old → new.request = old.request →
      (new.out = old.out ∨ 0 ≤ old.request.offset) → st.Stays (s.streams.set j new) i := by
    intro j old new hold hrequest hout
    by_cases hij : j = i
    · subst hij
      rw [hst] at hold
      cases hold
      exact ⟨new, List.getElem?_set_self (List.getElem?_eq_some_iff.mp hst).1, hrequest, hout⟩
    · exact ⟨st, (List.getElem?_set_ne hij).trans hst, rfl, Or.inl rfl⟩
  have happend : ∀ {j}, act.append? = some j → st.Stays s'.streams i := fun hact => by
    obtain ⟨-, -, -, -, hstreams, -⟩ := append_cases hact hexec
    exact ⟨st, by rw [hstreams]; exact hst, rfl, Or.inl rfl⟩
  have hawake : ∀ {j}, act = .wake j ∨ act = .timeout j → st.Stays s'.streams i := fun hact => by
    obtain ⟨old, waiter, hold, hp, rfl⟩ := awake_cases hact hexec
    have hphase := (h.streams old (List.mem_of_getElem? hold)).2
    rw [hp] at hphase
    exact hset hold (old.goesOn_awake _).request (Or.inr hphase.2.1)
  cases act with
  | consume request =>
    cases hexec
    have hlt := (List.getElem?_eq_some_iff.mp hst).1
    exact ⟨st, (List.getElem?_append_left hlt).trans hst, rfl, Or.inl rfl⟩
  | fetch j =>
    obtain ⟨old, waiter, limit, hold, -, res, store, v, -, rfl⟩ := fetch_cases hexec
    exact hset hold rfl (Or.inl rfl)
  | resume j =>
    obtain ⟨old, hold, ⟨waiter, limit, failure, -, rfl⟩ | ⟨waiter, limit, fetched, rest, hp,
        rfl⟩⟩ :=
      resume_cases hexec
    · exact hset hold rfl (Or.inl rfl)
    · have hbatch := (h.streams old (List.mem_of_getElem? hold)).inBatch hp
      exact hset hold (old.goesOn_advance _ _ _ _ _).request (Or.inr hbatch.start)
  | wake j => exact hawake (Or.inl rfl)
  | timeout j => exact hawake (Or.inr rfl)
  | append name key value timestamp partition =>
    cases hexec
    exact ⟨st, hst, rfl, Or.inl rfl⟩
  | take j => exact happend rfl
  | write j clock elapsed => exact happend rfl
  | notify j => exact happend rfl
  | cancel j => exact happend rfl
  | close =>
    cases hexec
    exact ⟨st, hst, rfl, Or.inl rfl⟩

end LiveTail

namespace Process

/-- The streams on a process, if there is one. -/
def State.streams : State → List LiveTail.Stream
  | .down _ => []
  | .up _ _ live => live.streams

variable [Crc32] {s s' : State}

/-- Whether a process runs or not, the disk stores a catalog. -/
theorem Holds.stores (h : Holds s) : ∃ c, s.root.Stores c := by
  cases s with
  | down root =>
    obtain ⟨c, -, hstores, -⟩ := h
    exact ⟨c, hstores⟩
  | up phase serving live =>
    obtain ⟨synced, hup⟩ := h
    obtain ⟨c, hrep⟩ := hup.sound.rep
    exact ⟨c, hrep.topic.stores⟩

/-- **An event that takes no record from a log**, and leaves the streams in their
places if it leaves the process. -/
def Spares (s s' : State) : Prop :=
  (∀ name p, s.root.records name p <+: s'.root.records name p)
  ∧ (s'.process = none ∨ ∀ i (st : LiveTail.Stream),
    s.streams[i]? = some st → st.Stays s'.streams i)

/-- An event that leaves the records and the streams. -/
theorem Spares.of_eq (hrecords : s'.root.records = s.root.records)
    (hstreams : s'.streams = s.streams) :
    Spares s s' :=
  ⟨fun _ _ => hrecords ▸ List.prefix_refl _,
    Or.inr fun i st hst => ⟨st, by rw [hstreams]; exact hst, rfl, Or.inl rfl⟩⟩

/-- A process that ends takes its streams with it, and no record. -/
theorem Spares.down {phase : Phase} {serving : Bool} {live : LiveTail.State} :
    Spares (.up phase serving live) (.down live.root) :=
  ⟨fun _ _ => List.prefix_refl _, Or.inl rfl⟩

/-- **Every event spares the logs.** -/
theorem Holds.spares (h : Holds s) {e : Event} (hexec : exec s e = some s') : Spares s s' := by
  cases step_of_exec hexec with
  | start => exact .of_eq rfl rfl
  | opened hopen =>
    obtain ⟨synced, hup⟩ := h
    obtain ⟨store, v, hgo, -, -, hrecords⟩ := hup.opened
    cases hopen.symm.trans hgo
    exact .of_eq hrecords rfl
  | failed hopen =>
    obtain ⟨synced, hup⟩ := h
    obtain ⟨store, v, hgo, -⟩ := hup.opened
    cases hopen.symm.trans hgo
  | call hadmits hlive =>
    obtain ⟨synced, hup⟩ := h
    obtain ⟨synced', -, hgrown⟩ := hup.sound.step hlive
    exact ⟨hgrown.records, Or.inr fun i st hst => hup.sound.stream_step hlive hst⟩
  | signal => exact .of_eq rfl rfl
  | drained hidle => exact .of_eq rfl rfl
  | expire => exact .of_eq rfl rfl
  | close hclose =>
    obtain ⟨synced, hup⟩ := h
    obtain ⟨store, v, -, hgo, -, -, hrecords⟩ := hup.close
    cases hclose.symm.trans hgo
    exact .of_eq hrecords rfl
  | exit => exact .down
  | kill => exact .down

end Process

namespace Resume

/-! ## A reader

The reader and the processes as one system, so that any event of the one may
come between two steps of the other. -/

/-- **A reader of a partition**: the offset it starts from, what it has got, and
the stream that it reads, with how many of its records have arrived. -/
structure Reader where
  topic : String
  partition : ℤ
  first : ℤ
  got : List Record
  stream : Option (ℕ × ℕ)

/-- Where it goes on: behind the last record. -/
def Reader.next (r : Reader) : ℤ :=
  (r.got.getLast?.map fun record => record.offset + 1).getD r.first

/-- What a reader goes on with: a stream ends with the process, what was got
does not. -/
def Reader.after (r : Reader) (process : Process.State) : Reader :=
  match process with
  | .down _ => { r with stream := none }
  | .up _ _ _ => r

/-- A broker through its processes, and a reader. -/
structure State where
  process : Process.State
  reader : Reader

/-- **What can happen next.** -/
inductive Act
  /-- Anything that is not the reader's: processes, and other calls. -/
  | other (e : Process.Event)
  /-- The reader asks for what comes next. -/
  | consume (follow : Bool) (limit : ℤ)
  /-- The next record of its stream arrives. -/
  | receive
  /-- It leaves its stream. -/
  | leave

section Codec

variable [Crc32]

/-- **One step**, where it is possible. -/
def exec (s : State) : Act → Option State
  | .other e => (Process.exec s.process e).map fun process => ⟨process, s.reader.after process⟩
  | .consume follow limit =>
    (Process.exec s.process (.call (.consume
      ⟨s.reader.topic, s.reader.partition, s.reader.next, follow, limit⟩))).map fun process =>
        ⟨process, { s.reader with stream := some (s.process.streams.length, 0) }⟩
  | .receive => do
    let (i, n) ← s.reader.stream
    let st ← s.process.streams[i]?
    let record ← st.out[n]?
    some { s with reader := { s.reader with got := s.reader.got ++ [record],
                                            stream := some (i, n + 1) } }
  | .leave => some { s with reader := { s.reader with stream := none } }

/-- **A reader beside processes one after another**, which has got nothing yet. -/
def system : System State Act where
  start s := Process.system.start s.process ∧ s.reader.got = [] ∧ s.reader.stream = none
  step s act s' := exec s act = some s'

end Codec

variable [Crc32] {s s' : State}

/-- The log that a reader reads, as it is on disk now. -/
def State.log (s : State) : List Record :=
  s.process.root.records s.reader.topic s.reader.partition.toNat

/-- **What a reader relies on**: what it has got is a piece of the log, and its
stream goes on where that ends. -/
structure Inv (s : State) : Prop where
  holds : Process.Holds s.process
  got : s.reader.got <+: s.log.drop s.reader.first.toNat
  first : s.reader.got ≠ [] → 0 ≤ s.reader.first
  stream : ∀ i n, s.reader.stream = some (i, n) → ∃ st : LiveTail.Stream,
    s.process.streams[i]? = some st ∧ st.request.topic = s.reader.topic
      ∧ st.request.partition = s.reader.partition ∧ (st.out ≠ [] → 0 ≤ st.request.offset)
      ∧ st.request.offset + n = s.reader.first + s.reader.got.length

namespace Inv

/-- The offset of a record is its place in the log. -/
theorem consecutive (h : Inv s) : Consecutive 0 s.log := by
  obtain ⟨c, hstores⟩ := h.holds.stores
  unfold State.log
  rw [hstores.records_eq]
  exact hstores.consecutive _ _

/-- The next offset is the one that comes next. -/
theorem next_eq (h : Inv s) : s.reader.next = s.reader.first + s.reader.got.length := by
  unfold Reader.next
  by_cases hgot : s.reader.got = []
  · rw [hgot]
    simp
  · exact LiveTail.Stream.offset_next h.consecutive (h.first hgot) h.got

/-- **An event that is not the reader's.** -/
theorem other (h : Inv s) {e : Process.Event} {process : Process.State}
    (hexec : Process.exec s.process e = some process) : Inv ⟨process, s.reader.after process⟩ := by
  obtain ⟨hrecords, hstreams⟩ := h.holds.spares hexec
  have hgot : s.reader.got <+:
      (process.root.records s.reader.topic s.reader.partition.toNat).drop s.reader.first.toNat :=
    h.got.trans ((hrecords _ _).drop _)
  have hholds := h.holds.step hexec
  cases process with
  | down root => exact ⟨hholds, hgot, h.first, fun i n hs => by cases hs⟩
  | up phase serving live =>
    refine ⟨hholds, hgot, h.first, fun i n hs => ?_⟩
    obtain ⟨st, hst, htopic, hpartition, hpos, hoffset⟩ := h.stream i n hs
    obtain ⟨st', hst', hrequest, hout⟩ := (hstreams.resolve_left fun h => by cases h) i st hst
    refine ⟨st', hst', by rw [hrequest]; exact htopic, by rw [hrequest]; exact hpartition,
      fun hne => ?_, by rw [hrequest]; exact hoffset⟩
    rw [hrequest]
    rcases hout with hout | hout
    · exact hpos (hout ▸ hne)
    · exact hout

/-- **The reader asks for what comes next.** -/
theorem consume (h : Inv s) {follow : Bool} {limit : ℤ}
    (hexec : exec s (.consume follow limit) = some s') : Inv s' := by
  simp only [exec, Option.map_eq_some_iff] at hexec
  obtain ⟨process, hexec, rfl⟩ := hexec
  obtain ⟨hrecords, -⟩ := h.holds.spares hexec
  refine ⟨h.holds.step hexec, h.got.trans ((hrecords _ _).drop _), h.first, fun i n hs => ?_⟩
  cases hs
  have hnext := h.next_eq
  cases hp : s.process with
  | down root =>
    rw [hp] at hexec
    cases hexec
  | up phase serving live =>
    rw [hp] at hexec
    simp only [Process.exec, Option.ite_none_right_eq_some, Option.map_eq_some_iff] at hexec
    obtain ⟨-, live', hexec, rfl⟩ := hexec
    obtain ⟨st, hst, hrequest, hout⟩ := LiveTail.exec_consume hexec
    refine ⟨st, hst, by rw [hrequest], by rw [hrequest], fun hne => absurd hout hne, ?_⟩
    rw [hrequest]
    show s.reader.next + ((0 : ℕ) : ℤ) = s.reader.first + s.reader.got.length
    omega

/-- **A record arrives**, the next one of the log. -/
theorem receive (h : Inv s) (hexec : exec s .receive = some s') : Inv s' := by
  simp only [exec, Option.bind_eq_bind, Option.bind_eq_some_iff, Option.some.injEq] at hexec
  obtain ⟨⟨i, n⟩, hs, st, hst, record, hrecord, rfl⟩ := hexec
  obtain ⟨st', hst', htopic, hpartition, hpos, hoffset⟩ := h.stream i n hs
  cases Option.some.inj (hst'.symm.trans hst)
  have hstart := hpos fun hnil => by
    rw [hnil] at hrecord
    cases hrecord
  -- the record is in the log, at the place that comes next
  have hlog : s.log[st.request.offset.toNat + n]? = some record := by
    obtain ⟨phase, serving, live, hup⟩ : ∃ phase serving live,
        s.process = .up phase serving live := by
      cases hp : s.process with
      | down root =>
        rw [hp] at hst
        cases hst
      | up phase serving live => exact ⟨phase, serving, live, rfl⟩
    have hholds := h.holds
    rw [hup] at hst hholds
    obtain ⟨synced, hholds⟩ := hholds
    have hout := (hholds.sound.streams st (List.mem_of_getElem? hst)).1
    have := getElem?_of_prefix hout hrecord
    rw [List.getElem?_drop] at this
    unfold State.log
    rw [hup, ← htopic, ← hpartition]
    exact this
  have hfirst : 0 ≤ s.reader.first := by
    by_cases hgot : s.reader.got = []
    · rw [hgot, List.length_nil] at hoffset
      omega
    · exact h.first hgot
  have hplace : st.request.offset.toNat + n = s.reader.first.toNat + s.reader.got.length := by omega
  rw [hplace, ← List.getElem?_drop] at hlog
  obtain ⟨hlt, hlog⟩ := List.getElem?_eq_some_iff.mp hlog
  refine ⟨h.holds, ?_, fun _ => hfirst, fun i' n' hs' => ?_⟩
  · show s.reader.got ++ [record] <+: s.log.drop s.reader.first.toNat
    rw [← hlog]
    exact List.concat_get_prefix h.got hlt
  · cases hs'
    refine ⟨st, hst, htopic, hpartition, hpos, ?_⟩
    show st.request.offset + ((n + 1 : ℕ) : ℤ)
      = s.reader.first + ((s.reader.got ++ [record]).length : ℤ)
    rw [List.length_append, List.length_singleton]
    push_cast
    omega

/-- **Every step keeps it.** -/
theorem step (h : Inv s) {act : Act} (hexec : exec s act = some s') : Inv s' := by
  cases act with
  | other e =>
    simp only [exec, Option.map_eq_some_iff] at hexec
    obtain ⟨process, hexec, rfl⟩ := hexec
    exact h.other hexec
  | consume follow limit => exact h.consume hexec
  | receive => exact h.receive hexec
  | leave =>
    cases hexec
    exact ⟨h.holds, h.got, h.first, fun _ _ hs => by cases hs⟩

end Inv

/-- So it is in every state that a run comes to. -/
theorem inv_of_reachable (h : system.Reachable s) : Inv s := by
  refine h.invariant (fun s hs => ?_) fun s act s' hinv hexec => hinv.step hexec
  obtain ⟨hstart, hgot, hstream⟩ := hs
  refine ⟨Process.holds_of_reachable (.start hstart), by rw [hgot]; exact List.nil_prefix,
    fun hne => absurd hgot hne, fun i n hs => ?_⟩
  rw [hstream] at hs
  cases hs

/-- **A reader resumes where it was.** Whatever becomes of its streams and of the
broker's processes, short of a power failure, and whoever else appends and reads:
a reader that always asks for what comes after its last record has got the
records of the log from its first offset on, each once and in order. -/
theorem resumes (h : system.Reachable s) :
    s.reader.got <+: s.log.drop s.reader.first.toNat
      ∧ ∀ (k : ℕ) record, s.reader.got[k]? = some record → record.offset = s.reader.first + k := by
  have hinv := inv_of_reachable h
  refine ⟨hinv.got, fun k record hrecord => ?_⟩
  have hfirst := hinv.first fun hnil => by
    rw [hnil] at hrecord
    cases hrecord
  have hlog := getElem?_of_prefix hinv.got hrecord
  rw [List.getElem?_drop] at hlog
  have hoffset := hinv.consecutive.offset_getElem hlog
  omega

omit [Crc32] in
/-- The broker is killed between the two records of a reader. -/
theorem resumes_killed : let _ := Crc32.zlib
    ∃ s, system.Reachable s ∧ s.reader.got.map Record.offset = [0, 1]
      ∧ s.reader.got <+: s.log.drop s.reader.first.toNat := by
  intro _
  let boot : List Act := [.other Process.alone, .other .opened]
  let append : List Act := [.other (.call (.append "orders" none (some [97]) (some 5) none)),
    .other (.call (.take 0)), .other (.call (.write 0 7 0)), .other (.call (.notify 0))]
  let read : List Act := [.consume false 0, .other (.call (.fetch 0)), .other (.call (.resume 0)),
    .receive]
  let acts : List Act := boot ++ append ++ read ++ Act.other .kill :: boot ++ append ++ read
  have hrun : ((acts.foldlM exec ⟨.down .empty, ⟨"orders", 0, 0, [], none⟩⟩).map fun s : State =>
      s.reader.got.map Record.offset) = some ([0, 1] : List ℤ) := by decide +kernel
  obtain ⟨s, hs, hgot⟩ := Option.map_eq_some_iff.mp hrun
  have hstart : Process.system.start (.down .empty) :=
    ⟨1, PowerLoss.State.empty, .start rfl, rfl, rfl⟩
  have hreach :=
    (System.Reachable.start (S := system) ⟨hstart, rfl, rfl⟩).foldlM (fun _ _ _ h => h) hs
  exact ⟨s, hreach, hgot, (resumes hreach).1⟩

end Resume

end Pyka
