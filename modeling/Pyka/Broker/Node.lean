import Pyka.Base.Machine
import Pyka.Broker.StoreSpec

/-!
# A broker over its lives

A data root and the stores that live on it one after the other, each started
with a ring and settings of its own, asked things, and ended – in order or
not. A state of the node stands for a catalog (`Node.Good`); every request
comes to one of a few things for it (`Node.Responds`).

## Requests one at a time

A request is one step, so requests come one after the other here. What is
shown of every run is then what the answers and the disk have to do with each
other over any number of lives. Where it matters that threads come between the
steps of a request, there is a module for it: `Topic.Sharing` and
`Topic.Syncing` for the registry, `Storage.Interleaving` for a read beside a
writer, `Broker.LiveTail` for streams, and `Broker.Process` for a process that
is told to stop in the middle.

To be killed is to end between two requests (`Act.kill`): nothing is written,
and nothing is lost of what was handed to the operating system. Killed within
a request, with a `topic.json` half written, a broker is in `Broker.Outage`.

## Orphans

What a store finds when it opens: its orphans are the partitions on disk that
its ring gives to others, and where there are none it stays so
(`Node.ready_no_orphans`). The reason is that a registry makes directories
only of partitions which are its own, and appends to no other; that is
`Catalog.Settles` and `Catalog.Adds` again, and the theorem about a life is an
induction over it.
-/

namespace Pyka

open Struct (Bytes)

/-- What a broker is started with, but for its ring: command line and
environment. A limit on segments comes with the proof that the log accepts it. -/
structure Settings where
  path : String
  partitions : ℕ
  syncPolicy : SyncPolicy
  maxSegmentBytes : SegmentLimit
  allowOrphans : Bool
  partitions_pos : 0 < partitions

/-- A data root, and the store alive on it. The root outlives the store, as a
volume does a pod. -/
structure Node where
  store : Option Store
  root : Root

namespace Node

/-- Nothing yet: no store, and a root with no topic. -/
def empty : Node := ⟨none, .empty⟩

/-- **What can be asked of a broker.** `read` is one batch of a `Consume`. -/
inductive Request
  | create (name : String) (partitions : Option ℕ)
  | partitionsOf (name : String)
  | route (name : String) (key : Option Bytes)
  | produce (request : ProduceRequest) (clock : ℤ) (elapsed : ℚ)
  | read (request : ConsumeRequest) (offset limit : ℤ)
  | metadata (topic : String)

/-- What happens to a broker. A start comes to nothing where a store is alive,
and a request where none is. -/
inductive Act
  | start (ring : Ring) (settings : Settings)
  | ask (request : Request)
  | close
  /-- The process ends without a word. -/
  | kill

/-- The answers, by kind. -/
inductive Answer
  /-- There is nobody to ask, or somebody already. -/
  | idle
  | done (answer : Except PyError Unit)
  | count (answer : Except PyError ℕ)
  | routed (answer : Except PyError ℕ)
  | produced (answer : Except Failure ProduceResponse)
  | records (answer : Except Failure (List Record))
  | table (answer : Except Failure (List (ℕ × ℕ × String)))

section Codec

variable [Crc32]

/-- Ask a store: each request is the method or the handler of its name. -/
def Request.exec (s : Store) (v : Volume) : Request → Answer × Store × Volume
  | create name partitions =>
    let (res, s, v) := s.create v name partitions
    (.count res, s, v)
  | partitionsOf name =>
    let (res, s, v) := s.partitionsOf v name
    (.count res, s, v)
  | route name key =>
    let (res, s, v) := s.route v name key
    (.routed res, s, v)
  | produce request clock elapsed =>
    let (res, s, v) := Handler.produce s v request clock elapsed
    (.produced res, s, v)
  | read request offset limit =>
    let (res, s, v) := Handler.read s v request offset limit
    (.records res, s, v)
  | metadata topic =>
    let (res, s, v) := Handler.metadata s v topic
    (.table res, s, v)

/-- **A data root over lives.** -/
def machine : Machine Node Act Answer where
  step n
    | .start ring settings =>
      match n.store with
      | some _ => (.idle, n)
      | none =>
        match Store.init settings.path settings.partitions settings.syncPolicy
            settings.maxSegmentBytes ring settings.allowOrphans with
        | .error e => (.done (.error e), n)
        | .ok s =>
          let (res, s, v) := s.open (.of n.root)
          (.done res, ⟨some s, v.root⟩)
    | .ask request =>
      match n.store with
      | none => (.idle, n)
      | some s =>
        let (answer, s, v) := request.exec s (.of n.root)
        (answer, ⟨some s, v.root⟩)
    | .close =>
      match n.store with
      | none => (.idle, n)
      | some s =>
        let (res, _, v) := s.close (.of n.root)
        (.done res, ⟨none, v.root⟩)
    | .kill => (.idle, { n with store := none })

end Codec

/-- Only who produces is told where a record is. So what was acknowledged can
be read off the answers. -/
theorem produced_step [Crc32] {n : Node} {act : Act} {answer : Except Failure ProduceResponse}
    (h : (machine.step n act).1 = .produced answer) :
    ∃ request clock elapsed, act = .ask (.produce request clock elapsed) := by
  obtain ⟨store, root⟩ := n
  cases act with
  | start ring settings =>
    cases store with
    | some s => cases h
    | none =>
      simp only [machine] at h
      split at h <;> cases h
  | ask request =>
    cases store with
    | none => cases h
    | some s =>
      cases request with
      | produce request clock elapsed => exact ⟨request, clock, elapsed, rfl⟩
      | _ => cases h
  | close => cases store <;> cases h
  | kill => cases h

/-! ## What a request comes to

The same for all requests: an answer that the catalog gives, and a catalog
with one record more or none. -/

variable [Crc32]

/-- **What a request comes to**, for a catalog: its answer, and the catalog
after it. -/
inductive Responds (ring : Ring) (h : Holder) (c : Catalog) : Request → Answer → Catalog → Prop
  | create {name : String} {partitions : Option ℕ} :
      Responds ring h c (.create name partitions) (.count (c.create h name partitions).1)
        (c.create h name partitions).2
  | partitionsOf {name : String} :
      Responds ring h c (.partitionsOf name) (.count (c.existing h name).1) (c.existing h name).2
  | route {name : String} {key : Option Bytes} :
      Responds ring h c (.route name key) (.routed (c.route h name key).1) (c.route h name key).2
  | refused {request : ProduceRequest} {clock : ℤ} {elapsed : ℚ} {failure : Failure} {c' : Catalog}
      (hset : c.Settles h c') (hcounts : c'.counts = c.counted h request.topic none) :
      Responds ring h c (.produce request clock elapsed) (.produced (.error failure)) c'
  | produced {request : ProduceRequest} {clock : ℤ} {elapsed : ℚ} {p : ℕ} {r : Record}
      {c' : Catalog} (hp : ∃ n, c'.counts request.topic = some n
        ∧ (Catalog.target c.turn request.key request.partition n).1 = p)
      (htimestamp : r.timestamp = request.timestamp.getD clock) (hkey : r.key = request.key)
      (hvalue : r.value = request.value) (hadds : c.Adds h c' request.topic p r)
      (hcounts : c'.counts = c.counted h request.topic none) :
      Responds ring h c (.produce request clock elapsed)
        (.produced (.ok ⟨p, r.offset, request.correlationId⟩)) c'
  | read {request : ConsumeRequest} {offset limit : ℤ} {answer : Except Failure (List Record)}
      {c' : Catalog} (hset : c.Settles h c') (hcounts : c'.counts = c.counts)
      (hread : ∀ records, answer = .ok records → 0 ≤ offset
        ∧ ∃ p : ℕ, request.partition = p ∧ h.owns request.topic p = true
          ∧ (∃ n, c.counts request.topic = some n ∧ p < n)
          ∧ records = (if 0 < limit ∧ limit ≤ ((c.records request.topic p).drop offset.toNat).length
              then ((c.records request.topic p).drop offset.toNat).take limit.toNat
              else (c.records request.topic p).drop offset.toNat)) :
      Responds ring h c (.read request offset limit) (.records answer) c'
  | metadata {topic : String} {answer : Except Failure (List (ℕ × ℕ × String))} {c' : Catalog}
      (hset : c.Settles h c') (hcounts : c'.counts = c.counts)
      (htable : ∀ table, answer = .ok table → ∃ n, c.counts topic = some n
        ∧ Handler.partitionMetadata ring topic n = .ok table) :
      Responds ring h c (.metadata topic) (.table answer) c'

variable {ring : Ring} {h : Holder} {c c' : Catalog} {request : Request} {answer : Answer}

/-- **A request adds one record or none**, and what it adds is in a partition
of this broker's. -/
theorem Responds.settles_or_adds (hr : Responds ring h c request answer c') :
    c.Settles h c' ∨ ∃ name p r, c.Adds h c' name p r := by
  cases hr with
  | create => exact Or.inl (.create rfl)
  | partitionsOf => exact Or.inl (.existing rfl)
  | route => exact Or.inl (.route rfl)
  | refused hset => exact Or.inl hset
  | produced _ _ _ _ hadds => exact Or.inr ⟨_, _, _, hadds⟩
  | read hset => exact Or.inl hset
  | metadata hset => exact Or.inl hset

/-- A directory a request makes is one of this broker's. -/
theorem Responds.logs (hr : Responds ring h c request answer c') {name : String} {p : ℕ}
    (hl : (c'.logs name p).isSome) : (c.logs name p).isSome ∨ h.owns name p = true := by
  rcases hr.settles_or_adds with hset | ⟨_, _, _, hadds⟩
  · exact hset.logs hl
  · exact hadds.logs hl

/-- What creating a topic comes to. -/
theorem Responds.of_create {name : String} {partitions : Option ℕ}
    (hr : Responds ring h c (.create name partitions) answer c') :
    c'.counts = c.counted h name partitions ∧ c.Settles h c' := by
  cases hr
  exact ⟨Catalog.create_counts rfl, .create rfl⟩

/-- **A store stands for a catalog, and does what it is asked**: its answer is
the catalog's, and it stands for the catalog after it. -/
theorem exec_spec {s : Store} {v : Volume} (hs : s.Rep v c) (request : Request) :
    ∃ answer c', Store.Follows s v (request.exec s v) answer c'
      ∧ Responds s.ring s.topic.holder c request answer c' := by
  cases request with
  | create name partitions =>
    have hf := Store.create_follows hs name partitions
    exact ⟨_, _, ⟨congrArg Answer.count hf.answer, hf.rep, hf.same, hf.holder, hf.always⟩, .create⟩
  | partitionsOf name =>
    have hf := Store.partitionsOf_follows hs name
    exact ⟨_, _, ⟨congrArg Answer.count hf.answer, hf.rep, hf.same, hf.holder, hf.always⟩,
      .partitionsOf⟩
  | route name key =>
    have hf := Store.route_follows hs name key
    exact ⟨_, _, ⟨congrArg Answer.routed hf.answer, hf.rep, hf.same, hf.holder, hf.always⟩, .route⟩
  | produce request clock elapsed =>
    obtain ⟨answer, c', hf, hcounts, hout⟩ := Handler.append_spec hs request clock elapsed
    refine ⟨.produced (answer.map fun placed => ⟨placed.1, placed.2, request.correlationId⟩), c',
      ⟨?_, hf.rep, hf.same, hf.holder, hf.always⟩, ?_⟩
    · exact congrArg (fun res => Answer.produced (Except.map _ res)) hf.answer
    · rcases hout with ⟨failure, rfl, hset⟩ | ⟨p, r, rfl, hp, htimestamp, hkey, hvalue, hadds⟩
      · exact .refused hset hcounts
      · exact .produced hp htimestamp hkey hvalue hadds hcounts
  | read request offset limit =>
    obtain ⟨answer, c', hf, hset, hcounts, hread⟩ := Handler.read_spec hs request offset limit
    exact ⟨_, c', ⟨congrArg Answer.records hf.answer, hf.rep, hf.same, hf.holder, hf.always⟩,
      .read hset hcounts hread⟩
  | metadata topic =>
    obtain ⟨answer, c', hf, hset, hcounts, htable⟩ := Handler.metadata_spec hs topic
    exact ⟨_, c', ⟨congrArg Answer.table hf.answer, hf.rep, hf.same, hf.holder, hf.always⟩,
      .metadata hset hcounts htable⟩

/-! ## What an act comes to

Starting, asking and ending, each for a node that stands for a catalog. -/

/-- **A node that stands for a catalog**: its root stores it, and the store
that is alive stands for it. -/
def Good (n : Node) (c : Catalog) : Prop :=
  match n.store with
  | none => n.root.Stores c
  | some s => s.Rep (.of n.root) c

/-- Whether a store is alive or not, the root stores the catalog. -/
theorem Good.stores {n : Node} (hn : n.Good c) : n.root.Stores c := by
  unfold Good at hn
  cases hs : n.store with
  | none => rwa [hs] at hn
  | some s =>
    rw [hs] at hn
    exact hn.topic.stores

/-- A store that is alive stands for it. -/
theorem Good.rep {n : Node} (hn : n.Good c) {s : Store} (hs : n.store = some s) :
    s.Rep (.of n.root) c := by
  unfold Good at hn
  rwa [hs] at hn

/-- A store goes by its ring: the registry was given that predicate when it
was made. -/
theorem Good.owns {s : Store} {root : Root} (hn : Good ⟨some s, root⟩ c) :
    s.topic.holder.owns = s.ring.ownsPartition :=
  Store.Rep.owns hn

omit [Crc32] in
/-- A store that goes by its ring and its settings, and nobody waits; what a
start leaves. -/
def Holds (s : Store) (ring : Ring) (settings : Settings) : Prop :=
  s.ring = ring ∧ s.topic.holder = ⟨ring.ownsPartition, settings.partitions⟩ ∧ s.tail = .init

/-- **Starting a broker** raises nothing and adds no record, whatever the ring
and the settings, and whatever is on disk. -/
theorem start_spec {root : Root} (hroot : root.Stores c) (ring : Ring) (settings : Settings) :
    ∃ (s : Store) (v' : Volume) (c' : Catalog),
      machine.step ⟨none, root⟩ (.start ring settings) = (.done (.ok ()), ⟨some s, v'.root⟩)
      ∧ Good ⟨some s, v'.root⟩ c' ∧ Holds s ring settings ∧ c'.counts = c.counts
      ∧ Catalog.Settles ⟨ring.ownsPartition, settings.partitions⟩ c c'
      ∧ (∀ name p, (∃ ps, (name, ps) ∈ s.orphans ∧ p ∈ ps)
          ↔ (v'.root.part name p).isSome ∧ ring.owns name p = .ok false)
      ∧ (∀ e ∈ s.orphans, e.2 ≠ [])
      ∧ (s.ready = true ↔ s.orphans = [] ∨ settings.allowOrphans = true)
      ∧ ∀ {P}, Root.Stable P → P root → v'.Always P := by
  obtain ⟨t, hinit, hstore, hholder⟩ := Store.init_rep hroot settings.path settings.syncPolicy
    ring settings.allowOrphans settings.partitions_pos settings.maxSegmentBytes.2
  obtain ⟨s', v', c', hopen, hrep', hset, hcounts, hring, hholder', htail, horphans, hne,
    hready, halways⟩ := Store.open_spec hstore rfl
  have hsettles : Catalog.Settles ⟨ring.ownsPartition, settings.partitions⟩
      { c with turn := 0 } c' := hholder ▸ hset
  refine ⟨s', v', c', ?_, ⟨hrep'.topic.of, hrep'.owns⟩,
    ⟨hring, hholder'.trans hholder, htail⟩, hcounts, (Catalog.Settles.refl _ c 0).trans hsettles,
    horphans, hne, hready, fun hP hroot => halways hP ⟨hroot, fun r hr => by cases hr⟩⟩
  show (match Store.init settings.path settings.partitions settings.syncPolicy
    settings.maxSegmentBytes ring settings.allowOrphans with | .error e => _ | .ok s => _) = _
  rw [hinit]
  simp only [hopen]

/-- **Asking a broker** leaves its ring and its settings. -/
theorem ask_spec {s : Store} {root : Root} (hn : Good ⟨some s, root⟩ c) (request : Request) :
    ∃ (s' : Store) (v' : Volume) (answer : Answer) (c' : Catalog),
      machine.step ⟨some s, root⟩ (.ask request) = (answer, ⟨some s', v'.root⟩)
      ∧ Good ⟨some s', v'.root⟩ c' ∧ Responds s.ring s.topic.holder c request answer c'
      ∧ s'.ring = s.ring ∧ s'.topic.holder = s.topic.holder
      ∧ s'.orphans = s.orphans ∧ s'.ready = s.ready := by
  obtain ⟨answer, c', hf, hr⟩ := exec_spec hn request
  refine ⟨(request.exec s (.of root)).2.1, (request.exec s (.of root)).2.2, answer, c', ?_,
    ⟨hf.rep.topic.of, hf.rep.owns⟩, hr, hf.ring, hf.holder, hf.orphans, hf.ready⟩
  show ((request.exec s (.of root)).1, _) = _
  rw [hf.answer]
  rfl

/-- **Ending a broker**, in order or not, adds no record. -/
theorem close_spec {s : Store} {root : Root} (hn : Good ⟨some s, root⟩ c) :
    ∃ v' : Volume, machine.step ⟨some s, root⟩ .close = (.done (.ok ()), ⟨none, v'.root⟩)
      ∧ Good ⟨none, v'.root⟩ c := by
  obtain ⟨s', v', hclose, hstores, -⟩ := Store.close_spec hn
  refine ⟨v', ?_, hstores⟩
  have hclose : s.close (.of root) = (.ok (), s', v') := hclose
  show (Answer.done (s.close (.of root)).1, (⟨none, (s.close (.of root)).2.2.root⟩ : Node)) = _
  rw [hclose]

/-- After it is closed, there is no store. -/
theorem run_close (n : Node) (acts : List Act) :
    (machine.run n (acts ++ [.close])).2.store = none := by
  rw [Machine.run_append]
  show (machine.step (machine.run n acts).2 .close).2.store = none
  obtain ⟨store, root⟩ := (machine.run n acts).2
  cases store <;> rfl

/-- To be killed between two requests changes nothing on disk. -/
theorem kill_spec {n : Node} (hn : n.Good c) : Good (machine.step n .kill).2 c := hn.stores

/-- **A node stands for a catalog, whatever happens to it.** -/
theorem step_good {n : Node} (hn : n.Good c) (act : Act) :
    ∃ c', Good (machine.step n act).2 c' := by
  obtain ⟨store, root⟩ := n
  cases act with
  | start ring settings =>
    cases store with
    | some s => exact ⟨c, hn⟩
    | none =>
      obtain ⟨s, v', c', hstep, hgood, -⟩ := start_spec hn ring settings
      exact ⟨c', by rw [hstep]; exact hgood⟩
  | ask request =>
    cases store with
    | none => exact ⟨c, hn⟩
    | some s =>
      obtain ⟨s', v', answer, c', hstep, hgood, -⟩ := ask_spec hn request
      exact ⟨c', by rw [hstep]; exact hgood⟩
  | close =>
    cases store with
    | none => exact ⟨c, hn⟩
    | some s =>
      obtain ⟨v', hstep, hgood⟩ := close_spec hn
      exact ⟨c, by rw [hstep]; exact hgood⟩
  | kill => exact ⟨c, kill_spec hn⟩

/-- And so over a whole run, by induction on the acts. -/
theorem run_good {n : Node} (hn : n.Good c) (acts : List Act) :
    ∃ c', Good (machine.run n acts).2 c' := by
  induction acts generalizing n c with
  | nil => exact ⟨c, hn⟩
  | cons act acts ih =>
    obtain ⟨c₁, h₁⟩ := step_good hn act
    exact ih h₁

/-! ## Orphans

Partitions on disk that are another broker's. They come from a cluster of
another size, or from a disk that was put somewhere else; a process makes
none. -/

/-- **All that is on disk belongs to this broker**, under the ring of whatever
store is alive. -/
structure Owned (ring : Ring) (n : Node) (c : Catalog) : Prop where
  good : n.Good c
  sameRing : ∀ s, n.store = some s → s.ring = ring
  parts : ∀ name p, (c.logs name p).isSome → ring.ownsPartition name p = true

/-- **A life keeps it so**: every directory that is made is of a partition of
its own. -/
theorem Owned.step {n : Node} (hn : Owned ring n c) (act : Act)
    (hact : ∀ ring settings, act ≠ .start ring settings) :
    ∃ c', Owned ring (machine.step n act).2 c' := by
  obtain ⟨store, root⟩ := n
  cases act with
  | start ring settings => exact absurd rfl (hact ring settings)
  | ask request =>
    cases store with
    | none => exact ⟨c, hn⟩
    | some s =>
      obtain ⟨s', v', answer, c', hstep, hgood, hr, hring, -⟩ := ask_spec hn.good request
      have howns := hn.good.owns
      rw [hn.sameRing s rfl] at howns
      refine ⟨c', by rw [hstep]; exact hgood, fun s'' hs'' => ?_, fun name p hl => ?_⟩
      · rw [hstep] at hs''
        cases hs''
        exact hring.trans (hn.sameRing s rfl)
      · rcases hr.logs hl with hl | ho
        · exact hn.parts name p hl
        · rwa [howns] at ho
  | close =>
    cases store with
    | none => exact ⟨c, hn⟩
    | some s =>
      obtain ⟨v', hstep, hgood⟩ := close_spec hn.good
      rw [hstep]
      exact ⟨c, hgood, fun _ h => (by cases h), hn.parts⟩
  | kill => exact ⟨c, kill_spec hn.good, fun _ h => (by cases h), hn.parts⟩

/-- So a whole life does, as long as no other store is started in it. -/
theorem Owned.run {n : Node} (hn : Owned ring n c) {acts : List Act}
    (hacts : ∀ ring settings, Act.start ring settings ∉ acts) :
    ∃ c', Owned ring (machine.run n acts).2 c' := by
  induction acts generalizing n c with
  | nil => exact ⟨c, hn⟩
  | cons act acts ih =>
    obtain ⟨c₁, h₁⟩ := hn.step act fun ring settings heq =>
      hacts ring settings (heq ▸ List.mem_cons_self)
    exact ih h₁ fun ring settings hmem => hacts ring settings (List.mem_cons_of_mem _ hmem)

/-- **A ready broker holds no orphaned data.** Whatever lives there were on a
data root, a store that opens finds as orphans exactly the partitions on disk
that its ring does not give to this broker. If it does not allow orphans and
becomes ready, then all that is on disk belongs to this broker, and does so
as long as the store lives. -/
theorem ready_no_orphans (before : List Act) (ring : Ring) (settings : Settings) (after : List Act)
    (hdown : (machine.run empty before).2.store = none)
    (hafter : ∀ ring settings, Act.start ring settings ∉ after) :
    ∃ s, (machine.step (machine.run empty before).2 (.start ring settings)).1 = .done (.ok ())
      ∧ (machine.step (machine.run empty before).2 (.start ring settings)).2.store = some s
      ∧ (∀ name p, (∃ ps, (name, ps) ∈ s.orphans ∧ p ∈ ps)
          ↔ ((machine.step (machine.run empty before).2 (.start ring settings)).2.root.part
              name p).isSome ∧ ring.owns name p = .ok false)
      ∧ (settings.allowOrphans = false → s.ready = true → ∀ name (p : ℕ),
          (((machine.run empty (before ++ .start ring settings :: after)).2.root.part name p).isSome
            ∨ (machine.run empty (before ++ .start ring settings :: after)).2.root.records name p
              ≠ []) →
          ring.owns name p = .ok true) := by
  obtain ⟨c, hgood⟩ := run_good (n := empty) (c := .empty) stores_empty before
  have hrun : (machine.run empty (before ++ .start ring settings :: after)).2
      = (machine.run (machine.step (machine.run empty before).2 (.start ring settings)).2
        after).2 := by
    rw [Machine.run_append]
    rfl
  rw [hrun]
  generalize (machine.run empty before).2 = n at hdown hgood ⊢
  obtain ⟨store, root⟩ := n
  cases hdown
  obtain ⟨s, v', c', hstep, hgood', ⟨hring, -⟩, -, -, horphans, -, hready, -⟩ :=
    start_spec hgood ring settings
  rw [hstep]
  refine ⟨s, rfl, rfl, horphans, fun hforbid hup name p hsome => ?_⟩
  have hnone : s.orphans = [] := (hready.mp hup).resolve_right (by
    rw [hforbid]; exact Bool.noConfusion)
  have howned : Owned ring ⟨some s, v'.root⟩ c' := by
    refine ⟨hgood', fun s' hs' => ?_, fun name p hl => ?_⟩
    · cases hs'
      exact hring
    · by_contra hother
      -- a partition of another broker would have been found
      have hfound := (horphans name p).mpr ⟨by rw [hgood'.stores.isSome_part]; exact hl, by
        rw [Ring.ownsPartition_eq, Bool.eq_false_iff.mpr hother]⟩
      obtain ⟨ps, hps, -⟩ := hfound
      rw [hnone] at hps
      cases hps
  obtain ⟨c'', hlater⟩ := howned.run hafter
  have hstores := hlater.good.stores
  have hl : (c''.logs name p).isSome := by
    rcases hsome with hpart | hrecs
    · rwa [hstores.isSome_part] at hpart
    · rw [hstores.records_eq] at hrecs
      unfold Catalog.records at hrecs
      cases hl : c''.logs name p with
      | none => exact absurd (by rw [hl]; rfl) hrecs
      | some rs => rfl
  rw [Ring.ownsPartition_eq, hlater.parts name p hl]

omit [Crc32] in
/-- A broker of its own takes a record into partition 1 of a topic and is
closed. Started again as it was, it becomes ready, and the record is in a
partition of its own. Started as the first of two, it has an orphan. -/
theorem ready_no_orphans_resized : let _ := Crc32.zlib
    let ring (n : ℕ) (h : 0 < n) : Ring := ⟨n, 0, fun b => .ok s!"pyka-{b}", .modulo, h⟩
    let settings : Settings := ⟨"data", 2, .never, ⟨2 ^ 30, by decide⟩, false, by decide⟩
    let before : List Act := [.start (ring 1 (by decide)) settings,
      .ask (.produce ⟨"orders", none, some [], some 5, none, some 1⟩ 7 0), .close]
    (∃ s, (machine.step (machine.run empty before).2 (.start (ring 1 (by decide)) settings)).2.store
          = some s ∧ s.ready = true
        ∧ ((machine.run empty (before ++ [.start (ring 1 (by decide)) settings])).2.root.records
          "orders" 1).length = 1
        ∧ (ring 1 (by decide)).owns "orders" (1 : ℕ) = .ok true)
      ∧ ∃ s, (machine.step (machine.run empty before).2
          (.start (ring 2 (by decide)) settings)).2.store = some s
        ∧ s.ready = false ∧ s.orphans = [("orders", [1])]
        ∧ (ring 2 (by decide)).owns "orders" (1 : ℕ) = .ok false := by
  intro _ ring settings before
  have hdown : (machine.run empty before).2.store = none := run_close empty
    [.start (ring 1 (by decide)) settings, .ask (.produce ⟨"orders", none, some [], some 5, none,
      some 1⟩ 7 0)]
  refine ⟨?_, ?_⟩
  · obtain ⟨s, -, hs, -, howned⟩ :=
      ready_no_orphans before (ring 1 (by decide)) settings [] hdown fun _ _ h => by cases h
    have hready : (machine.step (machine.run empty before).2
        (.start (ring 1 (by decide)) settings)).2.store.map Store.ready = some true := by
      decide +kernel
    have hrecords :
        ((machine.run empty (before ++ [.start (ring 1 (by decide)) settings])).2.root.records
        "orders" 1).length = 1 := by
      decide +kernel
    rw [hs, Option.map_some, Option.some.injEq] at hready
    refine ⟨s, hs, hready, hrecords, howned rfl hready "orders" 1 (Or.inr fun hnone => ?_)⟩
    rw [hnone] at hrecords
    cases hrecords
  · obtain ⟨s, -, hs, horphans, -⟩ :=
      ready_no_orphans before (ring 2 (by decide)) settings [] hdown fun _ _ h => by cases h
    have hfound : (machine.step (machine.run empty before).2
        (.start (ring 2 (by decide)) settings)).2.store.map (fun s => (s.ready, s.orphans))
          = some (false, [("orders", [1])]) := by
      decide +kernel
    rw [hs, Option.map_some, Option.some.injEq, Prod.mk.injEq] at hfound
    obtain ⟨hready, hlist⟩ := hfound
    refine ⟨s, hs, hready, hlist, ((horphans "orders" 1).mp ⟨[1], ?_, List.mem_singleton_self 1⟩).2⟩
    rw [hlist]
    exact List.mem_singleton_self _

end Node

end Pyka
