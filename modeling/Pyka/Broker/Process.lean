import Pyka.Broker.Traffic

/-!
# The process

`serve`: the process of a broker from its start to its end, on a data root
that outlives it. The server listens before `Store.open` is over, so calls
come while `health` still says `NOT_SERVING`. At the signal it no longer says
`SERVING`, the tail is closed, no new call is taken and those in flight may
end, until the grace period is over; then they are cancelled, which stops no
thread. The store is closed last.

## What runs at once

The calls are those of `Broker.LiveTail`, with all their steps, and the
process adds steps of its own in between: it is opened, signalled, found to be
idle or out of time, closed, and over. Which steps of the calls there still
are is a matter of how far the process is (`Phase.admits`). After the grace
period the tasks are gone, but a thread that had taken a job is not: it may
read or write while the store is being closed, and after that. A process may
be killed at any point of this.

## What is shown

`health` says `SERVING` just while the store is ready and no signal has come,
and then everything on disk is open (`Process.serving_spec`). Once the store
is closed, a power failure takes no record that its producer was told of
(`Process.clean_stop`). It is enough for that to know when producers are told:
on the event loop, and so before the calls are over. A record that a thread
writes later may be lost, and nobody was told of it.

That the process gets so far is the subject of `Broker.Drain`.

## What it starts from

A data root as brokers before have left it, power failures included. So the
process need not begin with an empty disk; that its predecessors were asked
one request at a time is only about what they left, and a root that stores a
catalog is all that is used of it.
-/

namespace Pyka

open Struct (Bytes)

namespace LiveTail

/-- Is a stream still going on? It is until it has returned or was aborted. -/
def Stream.inFlight (st : Stream) : Bool :=
  match st.phase with
  | .returned => false
  | .aborted _ => false
  | _ => true

/-- Is an append still to be answered? A cancelled one is not, whatever its
thread does. -/
def Append.inFlight (a : Append) : Bool :=
  match a.phase with
  | .queued => !a.cancelled
  | .running => !a.cancelled
  | .written _ _ => !a.cancelled
  | _ => false

/-- **The task of an append is cancelled**, if it is still in flight. A job
that no thread has taken is dropped with it; one that is running is not. -/
def Append.cancel (a : Append) : Append :=
  match a.phase with
  | .queued => { a with phase := .dropped, cancelled := true }
  | .running => { a with cancelled := true }
  | .written _ _ => { a with cancelled := true }
  | _ => a

/-- What was written stays so, and where it was. -/
theorem Append.Landed.cancel {a : Append} {owns : String → ℕ → Bool}
    {records : String → ℕ → List Record} {place : ℤ × ℤ}
    (h : ∀ place, a.phase.place = some place → a.Landed owns records place)
    (hplace : a.cancel.phase.place = some place) : a.cancel.Landed owns records place := by
  obtain ⟨name, key, value, timestamp, partition, phase, cancelled⟩ := a
  cases phase with
  | queued => cases hplace
  | _ => exact h place hplace

namespace State

/-- No call is in flight, so the server need not wait. -/
def idle (s : State) : Bool := !s.streams.any Stream.inFlight && !s.appends.any Append.inFlight

/-- **The tasks of all calls in flight are cancelled.** A stream is then not
gone on with, since nothing admits its steps any more. -/
def cancelAll (s : State) : State where
  store := s.store
  root := s.root
  streams := s.streams
  appends := s.appends.map Append.cancel

end State

end LiveTail

/-- Opening a store does not change what it allows. -/
theorem Store.allowOrphans_open [Crc32] (s : Store) (v : Volume) :
    (s.open v).2.1.allowOrphans = s.allowOrphans := by
  unfold Store.open
  cases hall : Store.createAll (Topic.names v) s.topic v with
  | mk res rest =>
  obtain ⟨t, v'⟩ := rest
  simp only [hall]
  cases res with
  | error e => rfl
  | ok u =>
    simp only
    split_ifs <;> rfl

namespace Process

/-- How far `serve` is. Each is an `await` of it, but for the last. -/
inductive Phase
  /-- Awaiting `store.open()`; the server listens. -/
  | opening
  /-- Awaiting a signal. -/
  | waiting
  /-- Awaiting `grpc_server.stop(…)`. -/
  | draining
  /-- Awaiting `store.close()`. -/
  | closing
  | stopped
  deriving DecidableEq

/-- **A data root, and the process on it** if there is one: how far it is, whether
`health` says `SERVING`, and the store with the calls on it. -/
inductive State
  | down (root : Root)
  | up (phase : Phase) (serving : Bool) (live : LiveTail.State)

namespace State

def root : State → Root
  | down root => root
  | up _ _ live => live.root

/-- How far a process is, and the calls on it, if there is one. -/
def process : State → Option (Phase × Bool × LiveTail.State)
  | down _ => none
  | up phase serving live => some (phase, serving, live)

/-- There is no other process than the one it says. -/
theorem eq_up_of_process {s : State} {phase : Phase} {serving : Bool} {live : LiveTail.State}
    (h : s.process = some (phase, serving, live)) : s = .up phase serving live := by
  cases s with
  | down root => cases h
  | up phase' serving' live' =>
    cases h
    rfl

end State

/-- **What can happen next.** -/
inductive Event
  /-- The process is started, and its server. -/
  | start (ring : Ring) (settings : Settings)
  /-- `store.open()` is over. -/
  | opened
  /-- A step of the calls. -/
  | call (act : LiveTail.Act)
  | signal
  /-- No call is in flight. -/
  | drained
  /-- The grace period is over. -/
  | expire
  /-- `store.close()` -/
  | close
  | exit
  /-- The process ends without a word. -/
  | kill

/-- **Which steps of the calls there are**: no new calls once the server stops,
and then none of tasks that have been cancelled, but those of threads. -/
def Phase.admits : Phase → LiveTail.Act → Bool
  | _, .close => false
  | .opening, _ => true
  | .waiting, _ => true
  | .draining, .consume _ => false
  | .draining, .append .. => false
  | .draining, _ => true
  | .closing, .fetch _ => true
  | .closing, .write .. => true
  | .stopped, .fetch _ => true
  | .stopped, .write .. => true
  | _, _ => false

section Codec

variable [Crc32]

/-- **One step**, where it is possible. An opening that raises ends the
process, and a close that raises is over all the same. -/
def exec : State → Event → Option State
  | .down root, .start ring settings =>
    match Store.init settings.path settings.partitions settings.syncPolicy settings.maxSegmentBytes
        ring settings.allowOrphans with
    | .error _ => none
    | .ok store => some (.up .opening false ⟨store, root, [], []⟩)
  | .up .opening _ live, .opened =>
    match live.store.open (.of live.root) with
    | (.error _, _, v) => some (.down v.root)
    | (.ok (), store, v) => some (.up .waiting store.ready { live with store, root := v.root })
  | .up phase serving live, .call act =>
    if phase.admits act then (LiveTail.exec live act).map (.up phase serving) else none
  | .up .waiting _ live, .signal =>
    some (.up .draining false
      { live with store := { live.store with tail := live.store.tail.close } })
  | .up .draining serving live, .drained =>
    if live.idle then some (.up .closing serving live) else none
  | .up .draining serving live, .expire => some (.up .closing serving live.cancelAll)
  | .up .closing serving live, .close =>
    let (_, store, v) := live.store.close (.of live.root)
    some (.up .stopped serving { live with store, root := v.root })
  | .up .stopped _ live, .exit => some (.down live.root)
  | .up _ _ live, .kill => some (.down live.root)
  | _, _ => none

/-- **What an event does**, case by case. -/
inductive Step : State → Event → State → Prop
  | start {root : Root} {ring : Ring} {settings : Settings} : Step (.down root)
      (.start ring settings)
      (.up .opening false ⟨PowerLoss.freshStore ring settings, root, [], []⟩)
  | opened {serving : Bool} {live : LiveTail.State} {store : Store} {v : Volume}
      (hopen : live.store.open (.of live.root) = (.ok (), store, v)) :
      Step (.up .opening serving live) .opened
        (.up .waiting store.ready { live with store, root := v.root })
  | failed {serving : Bool} {live : LiveTail.State} {e : PyError} {store : Store} {v : Volume}
      (hopen : live.store.open (.of live.root) = (.error e, store, v)) :
      Step (.up .opening serving live) .opened (.down v.root)
  | call {phase : Phase} {serving : Bool} {live live' : LiveTail.State} {act : LiveTail.Act}
      (hadmits : phase.admits act = true) (hexec : LiveTail.exec live act = some live') :
      Step (.up phase serving live) (.call act) (.up phase serving live')
  | signal {serving : Bool} {live : LiveTail.State} : Step (.up .waiting serving live) .signal
      (.up .draining false { live with store := { live.store with tail := live.store.tail.close } })
  | drained {serving : Bool} {live : LiveTail.State} (hidle : live.idle = true) :
      Step (.up .draining serving live) .drained (.up .closing serving live)
  | expire {serving : Bool} {live : LiveTail.State} :
      Step (.up .draining serving live) .expire (.up .closing serving live.cancelAll)
  | close {serving : Bool} {live : LiveTail.State} {res : Except PyError Unit} {store : Store}
      {v : Volume} (hclose : live.store.close (.of live.root) = (res, store, v)) :
      Step (.up .closing serving live) .close
        (.up .stopped serving { live with store, root := v.root })
  | exit {serving : Bool} {live : LiveTail.State} :
      Step (.up .stopped serving live) .exit (.down live.root)
  | kill {phase : Phase} {serving : Bool} {live : LiveTail.State} :
      Step (.up phase serving live) .kill (.down live.root)

/-- What is computed is one of these cases. The results below go by the cases,
and runs are evaluated by the function. -/
theorem step_of_exec {s s' : State} {e : Event} (hexec : exec s e = some s') : Step s e s' := by
  cases s with
  | down root =>
    cases e with
    | start ring settings =>
      simp only [exec, PowerLoss.init_eq, Option.some.injEq] at hexec
      subst hexec
      exact .start
    | _ => cases hexec
  | up phase serving live =>
    cases e with
    | start ring settings => cases phase <;> cases hexec
    | opened =>
      cases phase with
      | opening =>
        cases hopen : live.store.open (.of live.root) with
        | mk res rest =>
        obtain ⟨store, v⟩ := rest
        cases res with
        | error e =>
          simp only [exec, hopen, Option.some.injEq] at hexec
          subst hexec
          exact .failed hopen
        | ok u =>
          simp only [exec, hopen, Option.some.injEq] at hexec
          subst hexec
          exact .opened hopen
      | _ => cases hexec
    | call act =>
      simp only [exec, Option.ite_none_right_eq_some, Option.map_eq_some_iff] at hexec
      obtain ⟨hadmits, live', hexec, rfl⟩ := hexec
      exact .call hadmits hexec
    | signal =>
      cases phase with
      | waiting =>
        cases hexec
        exact .signal
      | _ => cases hexec
    | drained =>
      cases phase with
      | draining =>
        simp only [exec, Option.ite_none_right_eq_some, Option.some.injEq] at hexec
        obtain ⟨hidle, rfl⟩ := hexec
        exact .drained hidle
      | _ => cases hexec
    | expire =>
      cases phase with
      | draining =>
        cases hexec
        exact .expire
      | _ => cases hexec
    | close =>
      cases phase with
      | closing =>
        cases hexec
        exact .close rfl
      | _ => cases hexec
    | exit =>
      cases phase with
      | stopped =>
        cases hexec
        exact .exit
      | _ => cases hexec
    | kill => cases phase <;> cases hexec <;> exact .kill

/-- **Processes one after another**, on a data root as brokers before them, and
power failures, may have left it. -/
def system : System State Event where
  start s := ∃ (k : ℤ) (before : PowerLoss.State), (PowerLoss.system k).Reachable before
    ∧ before.node.store = none ∧ s = .down before.node.root
  step s e s' := exec s e = some s'

end Codec

variable [Crc32]

/-! ## The invariant

What holds of the calls, from `Broker.Traffic`, and beside it what the phase
says of `health`, of the store and of what is durable. -/

open LiveTail (Sound Grown)

/-- The record of an append whose producer was told is durable. -/
def Safe (live : LiveTail.State) (synced : String → ℕ → ℕ) : Prop :=
  ∀ a ∈ live.appends, ∀ partition offset, a.phase = .notified partition offset →
    offset.toNat < synced a.name partition.toNat

/-- **What holds of a process** at any time. -/
structure Up (phase : Phase) (serving : Bool) (live : LiveTail.State) (synced : String → ℕ → ℕ) :
    Prop where
  sound : Sound live synced
  serving : serving = true ↔ phase = .waiting ∧ live.store.ready = true
  ready : live.store.ready = true → phase = .waiting ∨ phase = .draining ∨ phase = .closing
  allOpen : phase = .waiting ∨ phase = .draining ∨ phase = .closing →
    live.store.topic.AllOpen live.root
  owned : live.store.ready = true → live.store.allowOrphans = false → ∀ name p,
    (live.root.part name p).isSome → live.store.topic.owns name p = true
  closed : phase = .draining ∨ phase = .closing ∨ phase = .stopped → live.store.tail.closed = true
  safe : phase = .stopped → Safe live synced

/-- **What holds at any time**: of a disk with nobody on it, that it stores a
catalog; of a process, what is said of it above. -/
def Holds : State → Prop
  | .down root => ∃ c synced, root.Stores c ∧ root.Kept root.records synced
  | .up phase serving live => ∃ synced, Up phase serving live synced

variable {phase : Phase} {serving : Bool} {live live' : LiveTail.State}
  {synced synced' : String → ℕ → ℕ} {s s' : State}

/-- **A process is killed**, or ends. -/
theorem Up.down (h : Up phase serving live synced) : Holds (.down live.root) := by
  obtain ⟨c, hrep⟩ := h.sound.rep
  exact ⟨c, synced, hrep.topic.stores, h.sound.durable.kept⟩

omit [Crc32] in
/-- No producer is told of a record once the calls are over. -/
theorem notified_of_admits {act : LiveTail.Act} (hadmits : Phase.stopped.admits act = true) :
    (∃ i, act = .fetch i) ∨ ∃ j clock elapsed, act = .write j clock elapsed := by
  cases act with
  | fetch i => exact Or.inl ⟨i, rfl⟩
  | write j clock elapsed => exact Or.inr ⟨j, clock, elapsed, rfl⟩
  | _ => cases hadmits

/-- What threads do tells no producer anything. -/
theorem notified_of_exec {act : LiveTail.Act} (hadmits : Phase.stopped.admits act = true)
    (hexec : LiveTail.exec live act = some live') {a : LiveTail.Append} (ha : a ∈ live'.appends)
    {partition offset : ℤ} (hp : a.phase = .notified partition offset) : a ∈ live.appends := by
  rcases notified_of_admits hadmits with ⟨i, rfl⟩ | ⟨j, clock, elapsed, rfl⟩
  · obtain ⟨st, waiter, limit, -, -, res, store, v, -, rfl⟩ := LiveTail.fetch_cases hexec
    exact ha
  · simp only [LiveTail.exec, Option.bind_eq_bind, Option.bind_eq_some_iff] at hexec
    obtain ⟨b, -, hexec⟩ := hexec
    split at hexec
    · cases hexec
      rcases List.mem_or_eq_of_mem_set ha with hold | rfl
      · exact hold
      · unfold LiveTail.AppendPhase.after at hp
        split at hp <;> cases hp
    · cases hexec

/-- **A step of the calls.** -/
theorem Up.call (h : Up phase serving live synced) {act : LiveTail.Act}
    (hadmits : phase.admits act = true) (hexec : LiveTail.exec live act = some live') :
    ∃ synced', Up phase serving live' synced' := by
  obtain ⟨synced', hsound, hgrown⟩ := h.sound.step hexec
  have hready : live'.store.ready = live.store.ready := by rw [hgrown.store]
  have hallow : live'.store.allowOrphans = live.store.allowOrphans := by rw [hgrown.store]
  refine ⟨synced', hsound, by rw [hready]; exact h.serving, by rw [hready]; exact h.ready,
    fun hphase => hgrown.allOpen (h.allOpen hphase), fun hr ha name p hsome => ?_,
    fun hphase => hgrown.closed (h.closed hphase), fun hphase a ha partition offset hp => ?_⟩
  · rw [hready] at hr
    rw [hallow] at ha
    rw [hgrown.owns]
    rcases hgrown.parts name p hsome with hold | hnew
    · exact h.owned hr ha name p hold
    · exact hnew
  · subst hphase
    exact (h.safe rfl a (notified_of_exec hadmits hexec ha hp) partition offset hp).trans_le
      (hgrown.synced _ _)

/-- **A process that has just been started.** -/
theorem Holds.start {root : Root} (h : Holds (.down root)) (ring : Ring) (settings : Settings) :
    Holds (.up .opening false ⟨PowerLoss.freshStore ring settings, root, [], []⟩) := by
  obtain ⟨c, synced, hstores, hkept⟩ := h
  obtain ⟨t, hinit, hrep, -⟩ := Store.init_rep hstores settings.path settings.syncPolicy ring
    settings.allowOrphans settings.partitions_pos settings.maxSegmentBytes.2
  have hfresh := PowerLoss.init_eq ring settings
  rw [hinit] at hfresh
  have hfresh := Except.ok.inj hfresh
  refine ⟨synced, ⟨⟨{ c with turn := 0 }, hfresh ▸ hrep⟩,
    PowerLoss.durable_freshStore hkept ring settings, Tail.ok_init, fun _ h => (by cases h),
      fun _ h => (by cases h)⟩, ?_, fun h => (by cases h), fun h => ?_, fun h => (by cases h),
    fun h => ?_, fun h => (by cases h)⟩
  · exact iff_of_false Bool.false_ne_true fun h => by cases h.1
  · rcases h with h | h | h <;> cases h
  · rcases h with h | h | h <;> cases h

/-- **The store has been opened.** -/
theorem Up.opened (h : Up .opening serving live synced) :
    ∃ store v, live.store.open (.of live.root) = (.ok (), store, v)
      ∧ Up .waiting store.ready { live with store, root := v.root } synced
      ∧ store.tail = live.store.tail ∧ v.root.records = live.root.records := by
  obtain ⟨c, hrep⟩ := h.sound.rep
  have hready : live.store.ready = false := by
    by_contra hup
    rcases h.ready (Bool.eq_true_of_not_eq_false hup) with h | h | h <;> cases h
  obtain ⟨hcalm, hopen⟩ :=
      PowerLoss.open_calm (v := .of live.root) h.sound.durable fun name hsome => by
    have hstores : live.root.Stores c := hrep.topic.stores
    have hsome : (live.root.metaFile name).isSome := hsome
    rw [hstores.metaFile, Option.isSome_map] at hsome
    obtain ⟨n, hn⟩ := Option.isSome_iff_exists.mp hsome
    exact (hstores.names hn).1
  obtain ⟨store, v, c', hgo, hrep', -, -, hring, -, htail, horphans, hne, hup, -⟩ :=
    Store.open_spec hrep hready
  have hallow := live.store.allowOrphans_open (.of live.root)
  rw [hgo] at hallow
  rw [hgo] at hcalm hopen
  have hrecords : v.root.records = live.root.records := hcalm.durable.kept.records_eq
  have howns : store.topic.owns = live.store.topic.owns := hcalm.owns
  refine ⟨store, v, hgo, ⟨⟨⟨c', hrep'.topic.of, hrep'.owns⟩, hrecords.symm ▸ hcalm.durable,
    htail.symm ▸ h.sound.ok, fun st hst => ?_, fun a ha place hplace => ?_⟩, ?_,
    fun _ => Or.inl rfl,
    fun _ => hopen rfl, fun hr hforbid name p hsome => ?_, fun h => ?_, fun h => (by cases h)⟩,
      htail,
    hrecords⟩
  · show st.Good store.tail (st.onRoot v.root) _
    unfold LiveTail.Stream.onRoot
    rw [htail, hrecords]
    exact h.sound.streams st hst
  · show a.Landed store.topic.owns v.root.records place
    rw [hrecords, howns]
    exact h.sound.landed a ha place hplace
  · exact ⟨fun hr => ⟨rfl, hr⟩, fun hr => hr.2⟩
  · -- what belongs to others would be an orphan
    have hnone : store.orphans = [] := (hup.mp hr).resolve_right (by
      rw [← hallow, hforbid]
      exact Bool.false_ne_true)
    by_contra hother
    have hother : live.store.ring.ownsPartition name p = false := by
      rw [← hring, ← hrep'.owns]
      exact Bool.eq_false_iff.mpr hother
    obtain ⟨ps, hps, -⟩ := (horphans name p).mpr ⟨hsome, by rw [Ring.ownsPartition_eq, hother]⟩
    rw [hnone] at hps
    cases hps
  · rcases h with h | h | h <;> cases h

/-- **The signal**: the tail is closed. -/
theorem Up.signal (h : Up .waiting serving live synced) :
    Up .draining false { live with store := { live.store with tail := live.store.tail.close } }
      synced where
  sound := by
    obtain ⟨synced', hsound, -⟩ := h.sound.step (show LiveTail.exec live .close = some _ from rfl)
    exact ⟨hsound.rep, h.sound.durable, hsound.ok, hsound.streams, h.sound.landed⟩
  serving := iff_of_false Bool.false_ne_true fun h => by cases h.1
  ready _ := Or.inr (Or.inl rfl)
  allOpen _ := h.allOpen (Or.inl rfl)
  owned := h.owned
  closed _ := rfl
  safe h := by cases h

/-- `health` says `SERVING` in one phase only. -/
theorem Up.not_serving (h : Up phase serving live synced) (hphase : phase ≠ .waiting) :
    serving = false :=
  Bool.eq_false_iff.mpr fun hup => hphase (h.serving.mp hup).1

/-- No call is in flight, and the store may be closed. -/
theorem Up.drained (h : Up .draining serving live synced) : Up .closing serving live synced where
  sound := h.sound
  serving := iff_of_false (Bool.eq_false_iff.mp (h.not_serving fun h => by cases h))
    fun h => by cases h.1
  ready _ := Or.inr (Or.inr rfl)
  allOpen _ := h.allOpen (Or.inr (Or.inl rfl))
  owned := h.owned
  closed _ := h.closed (Or.inl rfl)
  safe h := by cases h

/-- All calls in flight are cancelled. Nobody is told of a record by that, and
none is lost. -/
theorem Up.expire (h : Up .draining serving live synced) :
    Up .closing serving live.cancelAll synced := by
  have hclosing := h.drained
  refine ⟨⟨h.sound.rep, h.sound.durable, h.sound.ok, h.sound.streams, fun b hb place hplace => ?_⟩,
    hclosing.serving, hclosing.ready, hclosing.allOpen, hclosing.owned, hclosing.closed,
    fun h => (by cases h)⟩
  obtain ⟨a, ha, rfl⟩ := List.mem_map.mp hb
  exact .cancel (h.sound.landed a ha) hplace

/-- What is on disk of a broker's partitions is open, if all topics are. -/
theorem isSome_stored {store : Store} {v : Volume} {c : Catalog} (hrep : store.Rep v c)
    (hall : store.topic.AllOpen v.root) {name : String} {p : ℕ}
    (ho : store.topic.owns name p = true) (hpart : (v.root.part name p).isSome) :
    ∃ topic, store.topic.opened.lookup name = some topic ∧ (topic.stored.lookup p).isSome := by
  rw [hrep.topic.stores.isSome_part] at hpart
  obtain ⟨rs, hrs⟩ := Option.isSome_iff_exists.mp hpart
  obtain ⟨n, hn, hp⟩ := hrep.topic.stores.counted hrs
  have hmeta := hrep.topic.stores.metaFile name
  rw [hn] at hmeta
  obtain ⟨topic, hlook⟩ := Option.isSome_iff_exists.mp (hall name (Option.isSome_of_eq_some hmeta))
  have hopens := hrep.topic.opened hlook
  have hcount := hopens.count
  rw [hn] at hcount
  refine ⟨topic, hlook, hopens.isSome p ?_ ho⟩
  rwa [← Option.some.inj hcount]

/-- **The store is closed**: all it told its producers of is durable. -/
theorem Up.close (h : Up .closing serving live synced) :
    ∃ store v synced', live.store.close (.of live.root) = (.ok (), store, v)
      ∧ Up .stopped serving { live with store, root := v.root } synced'
      ∧ store.tail = live.store.tail.close ∧ v.root.records = live.root.records := by
  obtain ⟨c, hrep⟩ := h.sound.rep
  obtain ⟨v, synced', hclose, hkept, hmore, hclosed, -⟩ :=
    Topic.close_durable (v := .of live.root) h.sound.durable
  obtain ⟨hf, -⟩ := Topic.close_follows hrep.topic
  have hrep' := hf.rep
  rw [hclose] at hrep'
  have hrecords : v.root.records = live.root.records := hkept.records_eq
  have hgo : live.store.close (.of live.root) = (.ok (),
      { live.store with ready := false, tail := live.store.tail.close,
                        topic := { live.store.topic with opened := ∅ } }, v) := by
    unfold Store.close
    simp only [hclose]
  refine ⟨_, v, synced', hgo, ⟨⟨⟨c, hrep'.of, hrep.owns⟩, ?_, live.store.tail.ok_close,
    fun st hst => ?_, fun a ha place hplace => ?_⟩, ?_, fun h => (by cases h), fun h => ?_,
    fun h => (by cases h), fun _ => rfl, fun _ a ha partition offset hp => ?_⟩, rfl, hrecords⟩
  · exact ⟨hrecords.symm ▸ hkept, fun hlook => (by cases hlook), fun _ _ _ => Nat.zero_le _,
      h.sound.durable.limit⟩
  · show st.Good live.store.tail.close (st.onRoot v.root) _
    unfold LiveTail.Stream.onRoot
    rw [hrecords]
    exact LiveTail.Good.mono_true (h.sound.streams st hst)
      (fun w hw => Or.inl (hw.isSet_close h.sound.ok)) (List.prefix_refl _)
  · show a.Landed live.store.topic.owns v.root.records place
    rw [hrecords]
    exact h.sound.landed a ha place hplace
  · exact iff_of_false (Bool.eq_false_iff.mp (h.not_serving fun h => by cases h)) fun h => by
      cases h.1
  · rcases h with h | h | h <;> cases h
  · obtain ⟨p, k, r, hplace, ho, hr, -⟩ := h.sound.landed a ha (partition, offset) (by rw [hp]; rfl)
    cases hplace
    obtain ⟨hlt, -⟩ := List.getElem?_eq_some_iff.mp hr
    have hpart : (live.root.part a.name p).isSome := by
      unfold Root.records at hlt
      cases hd : live.root.part a.name p with
      | none =>
        rw [hd] at hlt
        exact absurd hlt (Nat.not_lt_zero _)
      | some d => rfl
    obtain ⟨topic, hlook, hsome⟩ := isSome_stored hrep (h.allOpen (Or.inr (Or.inr rfl))) ho hpart
    rw [Int.toNat_natCast, Int.toNat_natCast, hclosed hlook hsome]
    exact hlt

/-! ## Runs

The invariant along a run, and the two results. A run is over processes one
after another, since each may be killed and the next started. -/

/-- **Every step keeps it.** -/
theorem Holds.step (h : Holds s) {e : Event} (hexec : exec s e = some s') : Holds s' := by
  cases step_of_exec hexec with
  | start => exact h.start _ _
  | opened hopen =>
    obtain ⟨synced, hup⟩ := h
    obtain ⟨store, v, hgo, hup', -⟩ := hup.opened
    cases hopen.symm.trans hgo
    exact ⟨synced, hup'⟩
  | failed hopen =>
    obtain ⟨synced, hup⟩ := h
    obtain ⟨store, v, hgo, -⟩ := hup.opened
    cases hopen.symm.trans hgo
  | call hadmits hlive =>
    obtain ⟨synced, hup⟩ := h
    exact hup.call hadmits hlive
  | signal =>
    obtain ⟨synced, hup⟩ := h
    exact ⟨synced, hup.signal⟩
  | drained hidle =>
    obtain ⟨synced, hup⟩ := h
    exact ⟨synced, hup.drained⟩
  | expire =>
    obtain ⟨synced, hup⟩ := h
    exact ⟨synced, hup.expire⟩
  | close hclose =>
    obtain ⟨synced, hup⟩ := h
    obtain ⟨store, v, synced', hgo, hup', -⟩ := hup.close
    cases hclose.symm.trans hgo
    exact ⟨synced', hup'⟩
  | exit =>
    obtain ⟨synced, hup⟩ := h
    exact hup.down
  | kill =>
    obtain ⟨synced, hup⟩ := h
    exact hup.down

/-- So it holds of every state that a run comes to. -/
theorem holds_of_reachable (h : system.Reachable s) : Holds s := by
  refine h.invariant (P := Holds) (fun s hs => ?_) fun s e s' hP hstep => hP.step hstep
  obtain ⟨k, before, hbefore, -, rfl⟩ := hs
  obtain ⟨synced, waiting, hheld⟩ := hbefore.invariant
    (P := fun s => ∃ synced before, PowerLoss.Holds k s synced before)
    (fun s hs => by cases hs; exact ⟨_, _, PowerLoss.holds_empty k⟩)
    fun s e s' ⟨synced, before, hs⟩ hstep => hs.step hstep
  obtain ⟨c, hgood⟩ := hheld.good
  exact ⟨c, synced, hgood.stores, hheld.kept⟩

/-- An empty disk is one that brokers can have left. -/
theorem reachable_empty : system.Reachable (.down .empty) :=
  .start ⟨1, PowerLoss.State.empty, .start rfl, rfl, rfl⟩

/-- A run from an empty data root, from what its steps compute. -/
theorem exists_up {α : Type*} {f : Phase × Bool × LiveTail.State → α} {a : α} {es : List Event}
    (h : ((es.foldlM exec (.down .empty)).bind State.process).map f = some a) :
    ∃ phase serving live, es.foldlM exec (.down .empty) = some (.up phase serving live)
      ∧ system.Reachable (.up phase serving live) ∧ f (phase, serving, live) = a := by
  obtain ⟨⟨phase, serving, live⟩, hprocess, heq⟩ := Option.map_eq_some_iff.mp h
  obtain ⟨s, hs, hprocess⟩ := Option.bind_eq_some_iff.mp hprocess
  cases State.eq_up_of_process hprocess
  exact ⟨phase, serving, live, hs, reachable_empty.foldlM (fun _ _ _ h => h) hs, heq⟩

/-- **What `health` says.** Whatever processes there have been on a data root and
whatever calls, `SERVING` means that the store is ready and no signal has come;
until then `health` and the store agree. A ready store has every topic on disk
open, and unless orphans are allowed all that is on disk is this broker's. -/
theorem serving_spec (h : system.Reachable (.up phase serving live)) :
    (serving = true ↔ phase = .waiting ∧ live.store.ready = true)
      ∧ (live.store.ready = true → live.store.topic.AllOpen live.root
        ∧ (live.store.allowOrphans = false → ∀ name p, (live.root.part name p).isSome →
          live.store.topic.owns name p = true)) := by
  obtain ⟨synced, hup⟩ := holds_of_reachable h
  exact ⟨hup.serving, fun hready => ⟨hup.allOpen (hup.ready hready), hup.owned hready⟩⟩

/-- A broker of its own, and what it is started with: a policy that never
syncs. -/
def alone : Event :=
  .start ⟨1, 0, fun _ => .ok "pyka-0", .modulo, Nat.one_pos⟩
    ⟨"data", 1, ⟨none, none⟩, ⟨2 ^ 30, default_max_segment_bytes⟩, false, Nat.one_pos⟩

omit [Crc32] in
/-- A broker takes a record, is killed, and is started again on what it has
left: it serves, and the partition is open and its own. -/
theorem serving_alone : let _ := Crc32.zlib
    ∃ live, system.Reachable (.up .waiting true live) ∧ live.store.ready = true
      ∧ (live.root.records "orders" 0).map Record.offset = [0]
      ∧ live.store.topic.AllOpen live.root ∧ live.store.topic.owns "orders" 0 = true := by
  intro _
  let es : List Event := [alone, .opened, .call (.append "orders" none (some [97]) (some 5) none),
    .call (.take 0), .call (.write 0 7 0), .call (.notify 0), .kill, alone, .opened]
  have hrun : ((es.foldlM exec (.down .empty)).bind State.process).map
      (fun q => (q.1, q.2.1, (q.2.2.root.records "orders" 0).map Record.offset,
        (q.2.2.root.part "orders" 0).isSome, q.2.2.store.allowOrphans))
        = some (.waiting, true, [0], true, false) := by decide +kernel
  obtain ⟨phase, serving, live, -, hreach, heq⟩ := exists_up hrun
  simp only [Prod.mk.injEq] at heq
  obtain ⟨rfl, rfl, hrecords, hpart, hallow⟩ := heq
  obtain ⟨hserving, hspec⟩ := serving_spec hreach
  obtain ⟨-, hready⟩ := hserving.mp rfl
  obtain ⟨hopen, howned⟩ := hspec hready
  exact ⟨live, hreach, hready, hrecords, hopen, howned hallow "orders" 0 hpart⟩

/-- **A clean stop loses nothing.** Whatever calls there were, whichever of them
were cancelled when the grace period was over, and whatever their threads did
after that: once the store is closed, a power failure leaves every record that
its producer was told of where it was said to be. -/
theorem clean_stop (h : system.Reachable (.up .stopped serving live)) {a : LiveTail.Append}
    (ha : a ∈ live.appends) {partition offset : ℤ} (hp : a.phase = .notified partition offset)
    {left : Root} (hcrash : live.root.Crash left) :
    ∃ r : Record, (left.records a.name partition.toNat)[offset.toNat]? = some r
      ∧ r.key = a.key ∧ r.value = a.value ∧ ∀ t, a.timestamp = some t → r.timestamp = t := by
  obtain ⟨synced, hup⟩ := holds_of_reachable h
  have hsafe := hup.safe rfl a ha partition offset hp
  obtain ⟨p, k, r, hplace, -, hr, hrest⟩ :=
    hup.sound.landed a ha (partition, offset) (by rw [hp]; rfl)
  cases hplace
  simp only [Int.toNat_natCast] at hsafe ⊢
  obtain ⟨m, hleft⟩ := PowerLoss.kept_of_crash hup.sound.durable.kept hcrash
  refine ⟨r, ?_, hrest⟩
  -- what is durable is within what is left
  have hlen := (hleft a.name p).synced_le_length
  rw [List.length_take] at hlen
  rw [hleft.records_eq, List.getElem?_take_of_lt (by omega)]
  exact hr

/-- A power failure may spare everything. -/
theorem crash_self {root : Root} {c : Catalog} (h : root.Stores c) : root.Crash root := by
  refine ⟨fun name => Outage.crash_metaFile_self _, fun name p => ?_⟩
  have hpart := h.part name p
  generalize root.part name p = dir at hpart ⊢
  generalize c.logs name p = records at hpart
  cases hpart with
  | none => exact .none
  | some hkeeps =>
    obtain ⟨rss, rs, t, n, hstored, -, -⟩ := hkeeps
    exact .some hstored.crash_self

omit [Crc32] in
/-- A broker that never syncs of its own accord takes a record and is stopped. -/
theorem clean_stop_alone : let _ := Crc32.zlib
    ∃ (live : LiveTail.State) (a : LiveTail.Append), system.Reachable (.up .stopped false live)
      ∧ a ∈ live.appends ∧ a.phase = .notified 0 0
      ∧ ∃ r : Record, (live.root.records a.name 0)[0]? = some r ∧ r.key = a.key ∧ r.value = a.value
        ∧ ∀ t, a.timestamp = some t → r.timestamp = t := by
  intro _
  let es : List Event := [alone, .opened, .call (.append "orders" none (some [97]) (some 5) none),
    .call (.take 0), .call (.write 0 7 0), .call (.notify 0), .signal, .drained, .close]
  have hrun : ((es.foldlM exec (.down .empty)).bind State.process).map
      (fun q => (q.1, q.2.1, q.2.2.appends.map (·.phase)))
        = some (.stopped, false, [.notified 0 0]) := by decide +kernel
  obtain ⟨phase, serving, live, -, hreach, heq⟩ := exists_up hrun
  simp only [Prod.mk.injEq] at heq
  obtain ⟨rfl, rfl, happends⟩ := heq
  obtain ⟨a, happends, hp⟩ := List.map_eq_singleton_iff.mp happends
  have ha : a ∈ live.appends := happends ▸ List.mem_singleton_self a
  obtain ⟨synced, hup⟩ := holds_of_reachable hreach
  obtain ⟨c, hrep⟩ := hup.sound.rep
  have hstores : live.root.Stores c := hrep.topic.stores
  exact ⟨live, a, hreach, ha, hp, clean_stop hreach ha hp (crash_self hstores)⟩

end Process

end Pyka
