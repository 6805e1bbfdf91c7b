import Pyka.Storage.Handles
import Pyka.Topic.TopicSpec

/-!
# The registry's logs, shared by threads

A `Log` is an object: the cache of topics refers to it, and so does a call
that has left the lock – an append that is about to write to it, a `close`
that is about to close it. So logs are kept in a list here, and referred to by
their place in it; each comes with the directory it was opened on. A place is
never used again, as an object is not, and a log that nothing refers to stays
in the list: it still has its handle.

## The calls, taken apart

A call is taken apart at the registry's lock. `create`, `get` and `append`
hold it to look the topic up, or to open it; an append then asks the
partitioner and writes without. `close` holds it twice, to take its snapshot
of the cache and to clear it, and closes the logs of the snapshot in between,
one after the other. Any number of calls may be under way at once, each at its
own place in its own method (`Call`), and between two steps of one come any
steps of others.

What an append does behind its write, the count and the sync, is one step
here: it concerns one log's counter and opens and closes nothing.
`Topic.Syncing` is about the steps within.

## One writer

Two logs with a handle on one directory would hand out the same offsets. As
long as `close` clears no log that is not of its snapshot, and no append rolls
a log that is closed, a log has a handle only while the cache refers to it, so
there is one for each directory (`Sharing.one_writer`). A topic that is opened
while `close` is at work breaks that (`Sharing.two_writers`). Both conditions
are on the state before the step that might break it, and the second is about
what `Storage.Handles` shows of a closed log: an append that finds no room in
it opens a new segment, and with it a handle.
-/

namespace Pyka

open Struct (Bytes)

namespace Sharing

/-- **A log and its counter**, on the directory of a partition, which it was
opened on and keeps for good. -/
structure Object where
  name : String
  partition : ℕ
  entry : Partition

/-- It has a handle to write with: one of its segments is not closed. -/
def Object.Writable (o : Object) : Prop := o.entry.log.Writable

/-- An open topic, with places of logs for the logs. What the cache holds of
it are references, so a log that changes need not be put back. -/
structure Opened where
  partitions : ℕ
  stored : AList (fun _ : ℕ => ℕ)

/-- The open topics, by name. -/
abbrev Cache := AList (fun _ : String => Opened)

/-- The cache refers to a log: it is one of the logs of an open topic. -/
def Cache.Reaches (cache : Cache) (ref : ℕ) : Prop :=
  ∃ name topic p, cache.lookup name = some topic ∧ topic.stored.lookup p = some ref

/-- What a call answers; that it raised is another way to end (`Call.raised`). -/
inductive Answer
  | count (partitions : ℕ)
  | log (ref : ℕ)
  | appended (partition offset : ℤ)
  | closed

/-- **How far a call has got.** Each constructor is a place in one of the
methods, and has what the method holds there in its local variables. -/
inductive Call
  | create (name : String) (partitions : Option ℕ)
  | get (name : String) (partition : ℤ)
  | append (name : String) (key value : Option Bytes) (timestamp partition : Option ℤ)
  /-- An append has its topic, and no lock any more. -/
  | found (name : String) (topic : Opened) (key value : Option Bytes)
      (timestamp partition : Option ℤ)
  /-- It has its log. -/
  | writing (ref : ℕ) (partition : ℤ) (key value : Option Bytes) (timestamp : Option ℤ)
  /-- The record is written; it is to be counted, and the log synced if it is
  time. -/
  | written (ref : ℕ) (partition offset : ℤ)
  | close
  /-- The logs of a snapshot, and those among them that are still to be
  closed. -/
  | closing (snapshot todo : List ℕ) (errors : List PyError)
  | returned (answer : Answer)
  | raised (e : PyError)

/-- What the threads share, and their calls. The partitioner is shared as
well: it has no lock, and taking a turn is one step. -/
structure State where
  root : Root
  objects : List Object
  cache : Cache
  partitioner : Partitioner
  calls : List Call

namespace State

/-- A call goes on, and nothing else happens. -/
def put (s : State) (i : ℕ) (c : Call) : State := { s with calls := s.calls.set i c }

/-- Call a method of a log: it works on the directory of the log as it finds
it then, and the object at the place is changed. -/
def onLog {α : Type} (s : State) (ref : ℕ) (method : Log → Disk → Except PyError α × Log × Disk) :
    Option (Except PyError α × State) := do
  let o ← s.objects[ref]?
  let (res, log, disk) := method o.entry.log (Volume.disk (.of s.root) o.name o.partition)
  return (res, { s with
    root := s.root.setPart o.name o.partition disk.dir
    objects := s.objects.set ref { o with entry := { o.entry with log } } })

end State

/-- Place the logs of a topic behind those there are, in the order in which
they were opened. -/
def place (name : String) : List (ℕ × Partition) → List Object →
    List Object × AList (fun _ : ℕ => ℕ)
  | [], objects => (objects, ∅)
  | (p, entry) :: rest, objects =>
    let (objects', stored) := place name rest (objects ++ [⟨name, p, entry⟩])
    (objects', stored.insert p objects.length)

section Codec

variable [Crc32]

/-! ## Under the lock

What a call does while it holds the registry's lock, each a single step. It is
what the functions of `Topic` do, with places for logs. -/

/-- `_open_locked`. Where it raises, the logs it has opened are gone with the
exception. -/
def openLocked (t : Topic) (s : State) (name : String) (partitions : Option ℕ) :
    Except PyError Opened × State :=
  match t.openLocked (.of s.root) name partitions with
  | (.error e, _, v) => (.error e, { s with root := v.root })
  | (.ok topic, _, v) =>
    let (objects, stored) := place name (topic.stored.entries.map fun e => (e.1, e.2)) s.objects
    let opened : Opened := { partitions := topic.partitions, stored }
    (.ok opened, { s with root := v.root, objects, cache := s.cache.insert name opened })

/-- Take a topic from the cache, or open it: the question and the opening are
under the lock together, so no topic is opened twice at once. -/
def openCached (t : Topic) (s : State) (name : String) (partitions : Option ℕ) :
    Except PyError Opened × State :=
  match s.cache.lookup name with
  | some topic => (.ok topic, s)
  | none => openLocked t s name partitions

/-- `_topic`: a topic that exists, opened if it was not, or `UnknownTopic`. -/
def existing (t : Topic) (s : State) (name : String) : Except PyError Opened × State :=
  match s.cache.lookup name with
  | some topic => (.ok topic, s)
  | none =>
    match Volume.readMeta (.of s.root) name with
    | .error e => (.error e, s)
    | .ok none => (.error (.unknownTopic name), s)
    | .ok (some _) => openLocked t s name none

/-- `_check_partition`, and the log of the partition. It looks at the topic as
the call has it, which need not be in the cache any more. -/
def checkPartition (name : String) (topic : Opened) (partition : ℤ) : Except PyError ℕ := do
  raiseIf (¬(0 ≤ partition ∧ partition < topic.partitions))
    (.valueError (s!"topic {pyRepr name} has {topic.partitions} partition(s), "
      ++ s!"asked for {partition}"))
  match topic.stored.lookup partition.toNat with
  | none =>
    .error (.partitionNotLocal s!"partition {partition} of {pyRepr name} is not stored here")
  | some ref => .ok ref

/-- `_every_partition`: a snapshot of all logs that the cache refers to. -/
def everyPartition (s : State) : List ℕ :=
  s.cache.entries.flatMap fun e => e.2.stored.entries.map fun p => p.2

/-! ## Steps

One step for each place that a call can be at. A call that has returned or
raised takes none. -/

/-- How a call ends, or goes on: an exception ends it wherever it was. -/
def Call.ofExcept {α : Type} (answer : α → Call) : Except PyError α → Call
  | .ok a => answer a
  | .error e => .raised e

/-- **One step of a call.** -/
def go (t : Topic) (s : State) (i : ℕ) (clock : ℤ) (elapsed : ℚ) : Call → Option State
  | .create name partitions =>
    match validateName name with
    | .error e => some (s.put i (.raised e))
    | .ok () =>
      let (res, s) := openCached t s name partitions
      some (s.put i (.ofExcept (fun topic => .returned (.count topic.partitions)) res))
  | .get name partition =>
    match validateName name with
    | .error e => some (s.put i (.raised e))
    | .ok () =>
      let (res, s) := existing t s name
      some (s.put i (.ofExcept (fun ref => .returned (.log ref))
        (res.bind fun topic => checkPartition name topic partition)))
  | .append name key value timestamp partition =>
    match validateName name with
    | .error e => some (s.put i (.raised e))
    | .ok () =>
      let (res, s) := openCached t s name none
      some (s.put i (.ofExcept (fun topic => .found name topic key value timestamp partition) res))
  | .found name topic key value timestamp partition =>
    let (routed, partitioner) := s.partitioner.choose key partition topic.partitions
    let checked := routed.bind fun p => (checkPartition name topic p).map fun ref => (ref, p)
    some (State.put { s with partitioner } i
      (.ofExcept (fun (ref, p) => .writing ref p key value timestamp) checked))
  | .writing ref partition key value timestamp => do
    let (res, s) ← s.onLog ref fun log disk => log.append disk key value timestamp clock
    return s.put i (.ofExcept (fun offset => .written ref partition offset) res)
  | .written ref partition offset => do
    let o ← s.objects[ref]?
    let o : Object := { o with entry := { o.entry with appends := o.entry.appends + 1 } }
    let s := { s with objects := s.objects.set ref o }
    if t.syncPolicy.shouldSync o.entry.appends elapsed then
      let (res, s) ← s.onLog ref Log.sync
      match res with
      | .error e => return s.put i (.raised e)
      | .ok () =>
        let o ← s.objects[ref]?
        let o : Object := { o with entry := { o.entry with appends := 0 } }
        return State.put { s with objects := s.objects.set ref o } i
          (.returned (.appended partition offset))
    else return s.put i (.returned (.appended partition offset))
  | .close => some (s.put i (.closing (everyPartition s) (everyPartition s) []))
  | .closing snapshot (ref :: todo) errors => do
    let (res, s) ← s.onLog ref Log.close
    return s.put i (.closing snapshot todo (match res with
      | .error e => errors ++ [e]
      | .ok () => errors))
  | .closing _ [] errors =>
    some (State.put { s with cache := ∅ } i (match errors with
      | [] => .returned .closed
      | _ => .raised (.exceptionGroup s!"failed to close {t.path}")))
  | .returned _ => none
  | .raised _ => none

/-- **What happens**: a call comes, or a call goes on. -/
inductive Act
  | call (c : Call)
  | go (i : ℕ) (clock : ℤ) (elapsed : ℚ)

/-- A call as it comes: at the beginning of one of the four methods. -/
def Call.Fresh : Call → Prop
  | create _ _ | get _ _ | append _ _ _ _ _ | close => True
  | _ => False

/-- A step, where it can be taken. Which of the calls goes on is nobody's
choice, so every order there could be is a run. -/
inductive Step (t : Topic) (s : State) : Act → State → Prop
  | call {c : Call} (h : c.Fresh) : Step t s (.call c) { s with calls := s.calls ++ [c] }
  | go {i : ℕ} {clock : ℤ} {elapsed : ℚ} {c : Call} {s' : State} (hc : s.calls[i]? = some c)
      (h : Sharing.go t s i clock elapsed c = some s') : Step t s (.go i clock elapsed) s'

/-- **The threads of a registry that has opened nothing**, on any data
root. -/
def system (t : Topic) : System State Act where
  start s := s.objects = [] ∧ s.cache = ∅ ∧ s.partitioner = t.partitioner ∧ s.calls = []
  step := Step t

/-! ## The logs the cache refers to

An invariant of the logs and the cache, without the calls. It says of each log
that is open for writing where it is referred to, and from that uniqueness
follows. -/

/-- **The invariant of the logs**: one that has a handle is in the cache, and
the cache refers to a log on the directory it should be on. -/
structure Shared (objects : List Object) (cache : Cache) : Prop where
  sound : ∀ o ∈ objects, o.entry.log.Sound
  writable : ∀ {ref o}, objects[ref]? = some o → o.Writable → cache.Reaches ref
  cached : ∀ {name topic p ref}, cache.lookup name = some topic → topic.stored.lookup p = some ref →
    ∃ o, objects[ref]? = some o ∧ o.name = name ∧ o.partition = p

/-- Logs that are closed stay closed. That is what a `close` which has come
half way can rely on. -/
def Stay (objects objects' : List Object) : Prop :=
  ∀ (ref : ℕ) (o : Object), objects[ref]? = some o →
    ∃ o' : Object, objects'[ref]? = some o' ∧ (o'.Writable → o.Writable)

omit [Crc32] in
/-- A log that nothing happens to stays as it is. -/
theorem Stay.refl (objects : List Object) : Stay objects objects :=
  fun _ o ho => ⟨o, ho, id⟩

omit [Crc32] in
/-- And so it is over two steps. -/
theorem Stay.trans {objects objects' objects'' : List Object} (h : Stay objects objects')
    (h' : Stay objects' objects'') : Stay objects objects'' := fun ref o ho => by
  obtain ⟨o', ho', hw⟩ := h ref o ho
  obtain ⟨o'', ho'', hw'⟩ := h' ref o' ho'
  exact ⟨o'', ho'', fun hw'' => hw (hw' hw'')⟩

omit [Crc32] in
/-- **There is one log with a handle for each directory**: two that have one
are both in the cache, under the same name and partition, and so the same. -/
theorem Shared.unique {objects : List Object} {cache : Cache} (h : Shared objects cache) {i j : ℕ}
    {o o' : Object} (hi : objects[i]? = some o) (hj : objects[j]? = some o')
    (hname : o.name = o'.name) (hpart : o.partition = o'.partition) (hw : o.Writable)
    (hw' : o'.Writable) : i = j := by
  obtain ⟨name, topic, p, hlook, href⟩ := h.writable hi hw
  obtain ⟨name', topic', p', hlook', href'⟩ := h.writable hj hw'
  obtain ⟨x, hx, rfl, rfl⟩ := h.cached hlook href
  obtain ⟨x', hx', rfl, rfl⟩ := h.cached hlook' href'
  cases hi.symm.trans hx
  cases hj.symm.trans hx'
  rw [← hname] at hlook'
  cases hlook.symm.trans hlook'
  rw [← hpart] at href'
  exact Option.some.inj (href.symm.trans href')

omit [Crc32] in
/-- A log has changed, and is closed if it was. -/
theorem Shared.set {objects : List Object} {cache : Cache} (h : Shared objects cache) {ref : ℕ}
    {o : Object} (ho : objects[ref]? = some o) (entry : Partition) (hsound : entry.log.Sound)
    (hw : entry.log.Writable → o.Writable) :
    Shared (objects.set ref { o with entry }) cache
      ∧ Stay objects (objects.set ref { o with entry }) := by
  have hlt : ref < objects.length := (List.getElem?_eq_some_iff.mp ho).1
  have hset : ∀ i, (objects.set ref { o with entry })[i]?
      = if ref = i then some { o with entry } else objects[i]? := fun i => by
    rw [List.getElem?_set, if_pos hlt]
  refine ⟨⟨fun x hx => ?_, fun {i x} hx hwx => ?_, fun {name topic p i} hlook hi => ?_⟩,
    fun i x hx => ?_⟩
  · rcases List.mem_or_eq_of_mem_set hx with hx | rfl
    · exact h.sound x hx
    · exact hsound
  · rw [hset] at hx
    split_ifs at hx with hi
    · cases hx
      exact hi ▸ h.writable ho (hw hwx)
    · exact h.writable hx hwx
  · obtain ⟨x, hx, hname, hpart⟩ := h.cached hlook hi
    rw [hset]
    split_ifs with hi'
    · subst hi'
      cases ho.symm.trans hx
      exact ⟨_, rfl, hname, hpart⟩
    · exact ⟨x, hx, hname, hpart⟩
  · rw [hset]
    split_ifs with hi
    · subst hi
      cases ho.symm.trans hx
      exact ⟨_, rfl, hw⟩
    · exact ⟨x, hx, id⟩

omit [Crc32] in
/-- Where the logs of a topic are placed: behind the others, and each is found
under its partition. -/
theorem place_spec (name : String) {entries : List (ℕ × Partition)}
    (hnd : (entries.map Prod.fst).Nodup) (objects : List Object) :
    (place name entries objects).1 = objects ++ entries.map (fun e => ⟨name, e.1, e.2⟩)
      ∧ ∀ p ref, (place name entries objects).2.lookup p = some ref
        ↔ ∃ j entry, entries[j]? = some (p, entry) ∧ ref = objects.length + j := by
  induction entries generalizing objects with
  | nil =>
    refine ⟨by rw [List.map_nil, List.append_nil]; rfl, fun p ref => ?_⟩
    exact ⟨(fun h => by cases h), fun ⟨_, _, h, _⟩ => by cases h⟩
  | cons e entries ih =>
    obtain ⟨q, entry⟩ := e
    rw [List.map_cons, List.nodup_cons] at hnd
    obtain ⟨hobjects, hstored⟩ := ih hnd.2 (objects ++ [⟨name, q, entry⟩])
    refine ⟨?_, fun p ref => ?_⟩
    · rw [List.map_cons]
      exact hobjects.trans (List.append_assoc _ _ _)
    · show ((place name entries (objects ++ [⟨name, q, entry⟩])).2.insert q objects.length).lookup p
        = some ref ↔ _
      by_cases hp : p = q
      · subst hp
        rw [AList.lookup_insert]
        refine ⟨fun h => ⟨0, entry, rfl, (Option.some.inj h).symm⟩, fun ⟨j, entry', h, hj⟩ => ?_⟩
        cases j with
        | zero => rw [hj, Nat.add_zero]
        | succ j =>
          have hmem : (p, entry') ∈ entries := List.mem_of_getElem? h
          exact absurd (List.mem_map.mpr ⟨_, hmem, rfl⟩) hnd.1
      · rw [AList.lookup_insert_ne hp, hstored, List.length_append, List.length_singleton]
        constructor
        · rintro ⟨j, entry', h, rfl⟩
          exact ⟨j + 1, entry', h, by omega⟩
        · rintro ⟨j, entry', h, rfl⟩
          cases j with
          | zero =>
            cases h
            exact absurd rfl hp
          | succ j => exact ⟨j, entry', h, by omega⟩

/-- The logs that are opened have their indexes open, as every log has that
can write. -/
theorem openLogs_sound {t : Topic} {name : String} {ps : List ℕ} {v v' : Volume}
    {stored : AList (fun _ : ℕ => Partition)} (h : t.openLogs name ps v = (.ok stored, v')) :
    ∀ {p entry}, stored.lookup p = some entry → entry.log.Sound := by
  induction ps generalizing v v' stored with
  | nil =>
    cases h
    exact fun hlook => by cases hlook
  | cons q ps ih =>
    unfold Topic.openLogs at h
    split at h
    · cases h
    · rename_i log v₁ hopen
      split at h
      · cases h
      · rename_i stored' v₂ hrest
        cases h
        intro p entry hlook
        by_cases hp : p = q
        · rw [hp, AList.lookup_insert] at hlook
          cases hlook
          unfold Topic.openLog at hopen
          cases hinit : Log.init (v.disk name q) s!"{t.path}/{name}/{q}" t.maxSegmentBytes with
          | mk res disk =>
          rw [hinit] at hopen
          cases hopen
          exact Log.init_sound hinit
        · rw [AList.lookup_insert_ne hp] at hlook
          exact ih hrest hlook

/-- So has each log of a topic that was just opened. -/
theorem openLocked_sound {t t' : Topic} {v v' : Volume} {name : String} {partitions : Option ℕ}
    {topic : OpenTopic} (h : t.openLocked v name partitions = (.ok topic, t', v')) :
    ∀ {p entry}, topic.stored.lookup p = some entry → entry.log.Sound := by
  unfold Topic.openLocked at h
  split at h
  · cases h
  · simp only at h
    split at h
    · cases h
    · rename_i hlogs
      cases h
      exact openLogs_sound hlogs

/-- **Opening a topic that is not in the cache** keeps the invariant: the logs
that are new are in the cache, and there were none on their directories with a
handle. -/
theorem openLocked_shared {t : Topic} {s s' : State} {name : String} {partitions : Option ℕ}
    {res : Except PyError Opened} (h : Shared s.objects s.cache)
    (hnone : s.cache.lookup name = none) (ho : openLocked t s name partitions = (res, s')) :
    Shared s'.objects s'.cache ∧ Stay s.objects s'.objects ∧ s'.calls = s.calls := by
  unfold openLocked at ho
  cases hopen : t.openLocked (.of s.root) name partitions with
  | mk res₁ rest =>
  obtain ⟨t', v⟩ := rest
  cases res₁ with
  | error e =>
    rw [hopen] at ho
    cases ho
    exact ⟨h, .refl _, rfl⟩
  | ok topic =>
    have hlook : ∀ {p entry}, (p, entry) ∈ topic.stored.entries.map (fun e => (e.1, e.2)) →
        topic.stored.lookup p = some entry := fun {p entry} hmem => by
      obtain ⟨e, he, heq⟩ := List.mem_map.mp hmem
      cases heq
      exact AList.mem_lookup_iff.mpr he
    obtain ⟨entries, hentries⟩ :
        ∃ entries, entries = topic.stored.entries.map (fun e => (e.1, e.2)) := ⟨_, rfl⟩
    have hnd : (entries.map Prod.fst).Nodup := by
      rw [hentries, List.map_map]
      exact topic.stored.nodupKeys
    obtain ⟨hobjects, hstored⟩ := place_spec name hnd s.objects
    simp only [hopen, ← hentries] at ho
    cases ho
    rw [hobjects]
    have hold : ∀ {ref o}, s.objects[ref]? = some o →
        (s.objects ++ entries.map fun e => (⟨name, e.1, e.2⟩ : Object))[ref]? = some o :=
      fun ho => by rw [List.getElem?_append_left (List.getElem?_eq_some_iff.mp ho).1, ho]
    have hnew : ∀ j, (s.objects ++ entries.map fun e => (⟨name, e.1, e.2⟩ : Object))[
        s.objects.length + j]? = entries[j]?.map fun e => ⟨name, e.1, e.2⟩ := fun j => by
      rw [List.getElem?_append_right (Nat.le_add_right _ _), Nat.add_sub_cancel_left,
        List.getElem?_map]
    refine ⟨⟨fun o ho => ?_, fun {ref o} ho hw => ?_, fun {name' topic' p ref} hl href => ?_⟩,
      fun ref o ho => ⟨o, hold ho, id⟩, rfl⟩
    · rcases List.mem_append.mp ho with ho | ho
      · exact h.sound o ho
      · obtain ⟨⟨p, entry⟩, he, rfl⟩ := List.mem_map.mp ho
        exact openLocked_sound hopen (hlook (hentries ▸ he))
    · by_cases hlt : ref < s.objects.length
      · -- a log that was there is in a topic that was there
        rw [List.getElem?_append_left hlt] at ho
        obtain ⟨name', topic', p, hl, href⟩ := h.writable ho hw
        have hne : name' ≠ name := fun heq => by
          rw [heq, hnone] at hl
          cases hl
        exact ⟨name', topic', p, by rw [AList.lookup_insert_ne hne, hl], href⟩
      · obtain ⟨j, rfl⟩ := Nat.exists_eq_add_of_le (not_lt.mp hlt)
        rw [hnew] at ho
        obtain ⟨⟨p, entry⟩, he, rfl⟩ := Option.map_eq_some_iff.mp ho
        exact ⟨name, _, p, AList.lookup_insert _, (hstored p _).mpr ⟨j, entry, he, rfl⟩⟩
    · by_cases hn : name' = name
      · subst hn
        rw [AList.lookup_insert] at hl
        cases hl
        obtain ⟨j, entry, he, rfl⟩ := (hstored p ref).mp href
        exact ⟨⟨name', p, entry⟩, by rw [hnew, he]; rfl, rfl, rfl⟩
      · rw [AList.lookup_insert_ne hn] at hl
        obtain ⟨o, ho, hname, hpart⟩ := h.cached hl href
        exact ⟨o, hold ho, hname, hpart⟩

/-- Taking a topic from the cache, or opening it, keeps it too. -/
theorem openCached_shared {t : Topic} {s s' : State} {name : String} {partitions : Option ℕ}
    {res : Except PyError Opened} (h : Shared s.objects s.cache)
    (ho : openCached t s name partitions = (res, s')) :
    Shared s'.objects s'.cache ∧ Stay s.objects s'.objects ∧ s'.calls = s.calls := by
  unfold openCached at ho
  split at ho
  · cases ho
    exact ⟨h, .refl _, rfl⟩
  · rename_i hnone
    exact openLocked_shared h hnone ho

/-- And so does taking a topic that exists. -/
theorem existing_shared {t : Topic} {s s' : State} {name : String} {res : Except PyError Opened}
    (h : Shared s.objects s.cache) (ho : existing t s name = (res, s')) :
    Shared s'.objects s'.cache ∧ Stay s.objects s'.objects ∧ s'.calls = s.calls := by
  unfold existing at ho
  split at ho
  · cases ho
    exact ⟨h, .refl _, rfl⟩
  · rename_i hnone
    split at ho
    · cases ho
      exact ⟨h, .refl _, rfl⟩
    · cases ho
      exact ⟨h, .refl _, rfl⟩
    · exact openLocked_shared h hnone ho

omit [Crc32] in
/-- What calling a method of a log comes to: the object at the place, and its
directory, are as the method leaves them. -/
theorem onLog_eq_some {α : Type} {s s' : State} {ref : ℕ}
    {method : Log → Disk → Except PyError α × Log × Disk} {res : Except PyError α}
    (hcall : s.onLog ref method = some (res, s')) :
    ∃ o log disk disk', s.objects[ref]? = some o ∧ method o.entry.log disk = (res, log, disk')
      ∧ s'.objects = s.objects.set ref { o with entry := { o.entry with log } }
      ∧ s'.cache = s.cache ∧ s'.calls = s.calls := by
  simp only [State.onLog, Option.bind_eq_bind, Option.bind_eq_some_iff] at hcall
  obtain ⟨o, ho, hcall⟩ := hcall
  cases hm : method o.entry.log (Volume.disk (.of s.root) o.name o.partition) with
  | mk res₁ rest =>
  obtain ⟨log, disk⟩ := rest
  rw [hm] at hcall
  cases hcall
  exact ⟨o, log, _, disk, ho, hm, rfl, rfl, rfl⟩

omit [Crc32] in
/-- **Calling a method of a log** that keeps it sound, and closed if it
was. -/
theorem onLog_shared {α : Type} {s s' : State} (h : Shared s.objects s.cache) {ref : ℕ}
    {method : Log → Disk → Except PyError α × Log × Disk} {res : Except PyError α}
    (hcall : s.onLog ref method = some (res, s'))
    (hmethod : ∀ {o disk log disk'}, s.objects[ref]? = some o → o.entry.log.Sound →
      method o.entry.log disk = (res, log, disk') → log.Sound ∧ (log.Writable → o.Writable)) :
    Shared s'.objects s'.cache ∧ Stay s.objects s'.objects ∧ s'.calls = s.calls := by
  obtain ⟨o, log, disk, disk', ho, hm, hobjects, hcache, hcalls⟩ := onLog_eq_some hcall
  obtain ⟨hsound, hw⟩ := hmethod ho (h.sound o (List.mem_of_getElem? ho)) hm
  rw [hobjects, hcache]
  obtain ⟨hshared, hstay⟩ := h.set ho { o.entry with log } hsound hw
  exact ⟨hshared, hstay, hcalls⟩

/-! ## Every step

The calls come in: what a `close` has closed so far belongs to the invariant,
since at its end it clears the cache. -/

/-- Of the logs of its snapshot, a `close` has closed those that are not
still to be closed. -/
def Call.Closes (objects : List Object) : Call → Prop
  | closing snapshot todo _ => ∀ ref ∈ snapshot,
      ∃ o : Object, objects[ref]? = some o ∧ (ref ∉ todo → ¬o.Writable)
  | _ => True

omit [Crc32] in
/-- What has been closed is so after any other step. -/
theorem Call.Closes.mono {objects objects' : List Object} {c : Call} (h : c.Closes objects)
    (hstay : Stay objects objects') : c.Closes objects' := by
  cases c with
  | closing snapshot todo errors =>
    intro ref href
    obtain ⟨o, ho, hclosed⟩ := h ref href
    obtain ⟨o', ho', hw⟩ := hstay ref o ho
    exact ⟨o', ho', fun hnot hw' => hclosed hnot (hw hw')⟩
  | _ => exact h

/-- **The invariant of the registry**: that of the logs, and how far each
`close` has got. -/
structure Inv (s : State) : Prop where
  shared : Shared s.objects s.cache
  closes : ∀ c ∈ s.calls, c.Closes s.objects

omit [Crc32] in
/-- A call goes on, after a step that keeps the invariant of the logs. -/
theorem Inv.put {s s' : State} (h : Inv s) (hs' : Shared s'.objects s'.cache
    ∧ Stay s.objects s'.objects ∧ s'.calls = s.calls) (i : ℕ) {c : Call}
    (hc : c.Closes s'.objects) : Inv (s'.put i c) := by
  obtain ⟨hshared, hstay, hcalls⟩ := hs'
  refine ⟨hshared, fun x hx => ?_⟩
  rcases List.mem_or_eq_of_mem_set hx with hx | rfl
  · rw [hcalls] at hx
    exact (h.closes x hx).mono hstay
  · exact hc

omit [Crc32] in
/-- Of a call that is no `close`, nothing is asked. -/
theorem Call.closes_ofExcept {α : Type} {objects : List Object} {answer : α → Call}
    (h : ∀ a, (answer a).Closes objects) (res : Except PyError α) :
    (Call.ofExcept answer res).Closes objects := by
  cases res with
  | error e => trivial
  | ok a => exact h a

/-- **Nothing slips out of the cache**: `close` clears no log that was opened
since its snapshot and has a handle, and no append rolls a log that is
closed. -/
def Kept (s : State) : Act → Prop
  | .call _ => True
  | .go i clock _ =>
    (∀ snapshot errors, s.calls[i]? = some (.closing snapshot [] errors) →
      ∀ ref, s.cache.Reaches ref → ref ∈ snapshot ∨ ∀ o, s.objects[ref]? = some o → ¬o.Writable)
    ∧ ∀ ref partition key value timestamp,
      s.calls[i]? = some (.writing ref partition key value timestamp) →
      ∀ o, s.objects[ref]? = some o → o.Writable ∨ o.entry.log.active.hasRoomFor
        ⟨o.entry.log.nextOffset, timestamp.getD clock, key, value⟩ = true

/-- **A step of a call keeps the invariant**, by cases on where the call is.
The condition is needed at two of them: a write, and the clearing of the
cache. -/
theorem Inv.go {t : Topic} {s s' : State} (h : Inv s) {i : ℕ} {clock : ℤ} {elapsed : ℚ} {c : Call}
    (hc : s.calls[i]? = some c) (hkept : Kept s (.go i clock elapsed))
    (hgo : Sharing.go t s i clock elapsed c = some s') : Inv s' := by
  have hsame : Shared s.objects s.cache ∧ Stay s.objects s.objects ∧ s.calls = s.calls :=
    ⟨h.shared, .refl _, rfl⟩
  obtain ⟨hclear, hroll⟩ := hkept
  cases c with
  | create name partitions =>
    simp only [Sharing.go] at hgo
    split at hgo
    · cases hgo
      exact h.put hsame i trivial
    · cases hopen : openCached t s name partitions with
      | mk res s₁ =>
      rw [hopen] at hgo
      cases hgo
      refine h.put (openCached_shared h.shared hopen) i ?_
      exact Call.closes_ofExcept (fun _ => by trivial) _
  | get name partition =>
    simp only [Sharing.go] at hgo
    split at hgo
    · cases hgo
      exact h.put hsame i trivial
    · cases hopen : existing t s name with
      | mk res s₁ =>
      rw [hopen] at hgo
      cases hgo
      refine h.put (existing_shared h.shared hopen) i ?_
      exact Call.closes_ofExcept (fun _ => by trivial) _
  | append name key value timestamp partition =>
    simp only [Sharing.go] at hgo
    split at hgo
    · cases hgo
      exact h.put hsame i trivial
    · cases hopen : openCached t s name none with
      | mk res s₁ =>
      rw [hopen] at hgo
      cases hgo
      refine h.put (openCached_shared h.shared hopen) i ?_
      exact Call.closes_ofExcept (fun _ => by trivial) _
  | found name topic key value timestamp partition =>
    cases hchoose : s.partitioner.choose key partition topic.partitions with
    | mk routed partitioner =>
    simp only [Sharing.go, hchoose] at hgo
    cases hgo
    obtain ⟨s₁, hs₁⟩ : ∃ s₁ : State, s₁ = { s with partitioner } := ⟨_, rfl⟩
    have hsame₁ : Shared s₁.objects s₁.cache ∧ Stay s.objects s₁.objects ∧ s₁.calls = s.calls := by
      rw [hs₁]
      exact hsame
    rw [← hs₁]
    refine h.put hsame₁ i ?_
    exact Call.closes_ofExcept (fun _ => by trivial) _
  | writing ref partition key value timestamp =>
    simp only [Sharing.go, Option.bind_eq_bind, Option.bind_eq_some_iff] at hgo
    obtain ⟨⟨res, s₁⟩, hcall, hgo⟩ := hgo
    cases hgo
    refine h.put (onLog_shared h.shared hcall fun ho hsound hm =>
      ⟨Log.append_sound hsound hm, fun hw => ?_⟩) i (Call.closes_ofExcept (fun _ => by trivial) _)
    rcases hroll ref partition key value timestamp hc _ ho with hopen | hroom
    · exact hopen
    · exact Log.writable_append hroom hm hw
  | written ref partition offset =>
    simp only [Sharing.go, Option.bind_eq_bind, Option.bind_eq_some_iff] at hgo
    obtain ⟨o, ho, hgo⟩ := hgo
    have hcounted := h.shared.set ho { o.entry with appends := o.entry.appends + 1 }
      (h.shared.sound o (List.mem_of_getElem? ho)) id
    obtain ⟨objects₁, hobjects₁⟩ : ∃ objects₁, objects₁ = s.objects.set ref
        { o with entry := { o.entry with appends := o.entry.appends + 1 } } := ⟨_, rfl⟩
    obtain ⟨s₁, hs₁⟩ : ∃ s₁ : State, s₁ = { s with objects := objects₁ } := ⟨_, rfl⟩
    have hcounted : Shared s₁.objects s₁.cache ∧ Stay s.objects s₁.objects
        ∧ s₁.calls = s.calls := by
      rw [hs₁, hobjects₁]
      exact ⟨hcounted.1, hcounted.2, rfl⟩
    rw [← hobjects₁, ← hs₁] at hgo
    split_ifs at hgo
    · simp only [Option.bind_eq_some_iff] at hgo
      obtain ⟨⟨res, s₂⟩, hcall, hgo⟩ := hgo
      obtain ⟨hshared, hstay, hcalls⟩ := onLog_shared hcounted.1 hcall fun _ hsound hm =>
        ⟨Log.sync_sound hsound hm, Log.writable_sync hm⟩
      have hsynced : Shared s₂.objects s₂.cache ∧ Stay s.objects s₂.objects
        ∧ s₂.calls = s.calls := ⟨hshared, hcounted.2.1.trans hstay, hcalls.trans hcounted.2.2⟩
      cases res with
      | error e =>
        cases hgo
        exact h.put hsynced i trivial
      | ok u =>
        simp only [Option.bind_eq_some_iff] at hgo
        obtain ⟨o₂, ho₂, hgo⟩ := hgo
        cases hgo
        obtain ⟨hshared', hstay'⟩ := hshared.set ho₂ { o₂.entry with appends := 0 }
          (hshared.sound o₂ (List.mem_of_getElem? ho₂)) id
        obtain ⟨objects₃, hobjects₃⟩ : ∃ objects₃, objects₃ = s₂.objects.set ref
            { o₂ with entry := { o₂.entry with appends := 0 } } := ⟨_, rfl⟩
        obtain ⟨s₃, hs₃⟩ : ∃ s₃ : State, s₃ = { s₂ with objects := objects₃ } := ⟨_, rfl⟩
        have hmarked : Shared s₃.objects s₃.cache ∧ Stay s.objects s₃.objects
            ∧ s₃.calls = s.calls := by
          rw [hs₃, hobjects₃]
          exact ⟨hshared', hsynced.2.1.trans hstay', hsynced.2.2⟩
        rw [← hobjects₃, ← hs₃]
        exact h.put hmarked i trivial
    · cases hgo
      exact h.put hcounted i trivial
  | close =>
    cases hgo
    refine h.put hsame i fun ref href => ?_
    obtain ⟨⟨name, topic⟩, he, hp⟩ := List.mem_flatMap.mp href
    obtain ⟨⟨p, ref⟩, hp', rfl⟩ := List.mem_map.mp hp
    obtain ⟨o, ho, -, -⟩ :=
      h.shared.cached (AList.mem_lookup_iff.mpr he) (AList.mem_lookup_iff.mpr hp')
    exact ⟨o, ho, fun hnot => absurd href hnot⟩
  | closing snapshot todo errors =>
    have hcloses := h.closes _ (List.mem_of_getElem? hc)
    cases todo with
    | nil =>
      cases hgo
      -- a log that has a handle would be one that is cleared
      have hnone : ∀ {ref : ℕ} {o : Object}, s.objects[ref]? = some o → ¬o.Writable := by
        intro ref o ho hw
        rcases hclear snapshot errors hc ref (h.shared.writable ho hw) with hmem | hclosed
        · obtain ⟨o', ho', hclosed⟩ := hcloses ref hmem
          cases ho.symm.trans ho'
          exact hclosed (List.not_mem_nil) hw
        · exact hclosed o ho hw
      obtain ⟨s₁, hs₁⟩ : ∃ s₁ : State, s₁ = { s with cache := ∅ } := ⟨_, rfl⟩
      have hcleared : Shared s₁.objects s₁.cache ∧ Stay s.objects s₁.objects
          ∧ s₁.calls = s.calls := by
        rw [hs₁]
        exact ⟨⟨h.shared.sound, fun ho hw => absurd hw (hnone ho), fun hl => by cases hl⟩,
          .refl _, rfl⟩
      rw [← hs₁]
      refine h.put hcleared i ?_
      cases errors <;> trivial
    | cons ref todo =>
      simp only [Sharing.go, Option.bind_eq_bind, Option.bind_eq_some_iff] at hgo
      obtain ⟨⟨res, s₁⟩, hcall, hgo⟩ := hgo
      cases hgo
      have hclosed : ∀ {o : Object} {disk : Disk} {log : Log} {disk' : Disk}, o.entry.log.Sound →
          Log.close o.entry.log disk = (res, log, disk') → ¬log.Writable := fun hsound hm hw => by
        obtain ⟨x, hx, hopen⟩ := hw
        rw [Log.close_closed hsound hm x hx] at hopen
        cases hopen
      have hs₁ := onLog_shared h.shared hcall fun ho hsound hm =>
        ⟨fun x hx hopen => absurd ⟨x, hx, hopen⟩ (hclosed hsound hm), fun hw =>
          absurd hw (hclosed hsound hm)⟩
      refine h.put hs₁ i fun r hr => ?_
      obtain ⟨o, ho, hnot⟩ := hcloses r hr
      obtain ⟨o', ho', hw⟩ := hs₁.2.1 r o ho
      refine ⟨o', ho', fun hr' hw' => ?_⟩
      by_cases heq : r = ref
      · subst heq
        obtain ⟨o₁, log, disk, disk', ho₁, hm, hobjects, -, -⟩ := onLog_eq_some hcall
        rw [hobjects, List.getElem?_set_self (List.getElem?_eq_some_iff.mp ho₁).1] at ho'
        cases ho'
        exact hclosed (h.shared.sound _ (List.mem_of_getElem? ho₁)) hm hw'
      · exact hnot (List.not_mem_cons_of_ne_of_not_mem heq hr') (hw hw')
  | returned answer => cases hgo
  | raised e => cases hgo

/-- At first there are no logs, and nothing is referred to. -/
theorem inv_start {t : Topic} {s : State} (h : (system t).start s) : Inv s := by
  obtain ⟨hobjects, hcache, -, hcalls⟩ := h
  have hnone : ∀ {ref : ℕ} {o : Object}, s.objects[ref]? ≠ some o := fun ho => by
    rw [hobjects] at ho
    cases ho
  refine ⟨⟨fun o ho => ?_, fun ho => absurd ho hnone, fun hl => ?_⟩, fun c hc => ?_⟩
  · rw [hobjects] at ho
    cases ho
  · rw [hcache] at hl
    cases hl
  · rw [hcalls] at hc
    cases hc

/-- **Every step keeps the invariant.** -/
theorem Inv.step {t : Topic} {s s' : State} {act : Act} (h : Inv s) (hkept : Kept s act)
    (hstep : Step t s act s') : Inv s' := by
  cases hstep with
  | @call c₀ hfresh =>
    refine ⟨h.shared, fun c hc => ?_⟩
    rcases List.mem_append.mp hc with hc | hc
    · exact h.closes c hc
    · cases List.mem_singleton.mp hc
      cases c₀ with
      | closing => exact hfresh.elim
      | _ => trivial
  | go hc hgo => exact h.go hc hkept hgo

/-- **One writer for each directory.** In every run in which nothing slips out
of the cache there are never two logs with a handle on one directory, and a
log is closed or the cache refers to it. -/
theorem one_writer {t : Topic} {s : State} (h : ((system t).given Kept).Reachable s) :
    (∀ (i j : ℕ) (o o' : Object), s.objects[i]? = some o → s.objects[j]? = some o' →
        o.name = o'.name → o.partition = o'.partition → o.Writable → o'.Writable → i = j)
    ∧ ∀ (ref : ℕ) (o : Object), s.objects[ref]? = some o →
        ¬o.Writable ∨ s.cache.Reaches ref := by
  have hinv : Inv s := by
    refine System.Reachable.invariant (S := (system t).given Kept) (fun s hs => ?_)
      (fun s act s' hs hstep => ?_) h
    · exact inv_start (show (system t).start s from hs)
    · obtain ⟨hstep, hkept⟩ := hstep
      exact hs.step hkept hstep
  refine ⟨fun i j o o' => hinv.shared.unique, fun ref o ho => ?_⟩
  by_cases hw : o.Writable
  · exact .inr (hinv.shared.writable ho hw)
  · exact .inl hw

/-! ## A topic opened while the registry closes

A run that breaks it, and one beside it that meets the condition although a
`close` and an append get in each other's way. -/

/-- A log that stands for records has a handle. -/
theorem writable_of_represents {l : Log} {v : ℤ → Option File} {records : List Record} {synced : ℕ}
    (h : l.Represents v records synced) : l.Writable := by
  obtain ⟨rss, rs, d, h, -, -⟩ := h
  exact ⟨l.active, Log.mem_segments.mpr (.inr rfl), h.active_open⟩

/-- A registry whose topics have one partition, stored here. -/
def single : Topic :=
  { path := "data", defaultPartitions := 1, syncPolicy := .never, maxSegmentBytes := 2 ^ 30,
    owns := fun _ _ => true, partitioner := ⟨0⟩, opened := ∅ }

/-- The one log of a topic, at a place. -/
def Opened.one (ref : ℕ) : Opened := ⟨1, AList.insert 0 ref ∅⟩

/-- It opens a topic that has no records. Other topics are left alone, and the
log stands for no records. -/
theorem openLocked_single {s : State} (name : String)
    (hmeta : s.root.metaFile name = none ∨ s.root.metaFile name = some (TopicJson.dumps 1))
    (hkeeps : Keeps ((s.root.part name 0).getD .empty).logs.view [] 0) :
    ∃ (log : Log) (disk : Disk) (root : Root), openLocked single s name none
        = (.ok (.one s.objects.length),
        ⟨root, s.objects ++ [⟨name, 0, ⟨log, 0⟩⟩], s.cache.insert name (.one s.objects.length),
          s.partitioner, s.calls⟩)
      ∧ root.metaFile name = some (TopicJson.dumps 1) ∧ root.part name 0 = some disk.dir
      ∧ log.Represents disk.view [] 0
      ∧ ∀ name', name' ≠ name → root.metaFile name' = s.root.metaFile name'
        ∧ root.part name' 0 = s.root.part name' 0 := by
  obtain ⟨found, hfound, hread⟩ : ∃ found, (found = none ∨ found = some 1
        ∧ s.root.metaFile name = some (TopicJson.dumps 1))
          ∧ Volume.readMeta (.of s.root) name = .ok found := by
    rcases hmeta with hmeta | hmeta
    · exact ⟨none, .inl rfl, Volume.readMeta_eq hmeta⟩
    · exact ⟨some 1, .inr ⟨rfl, hmeta⟩, Volume.readMeta_eq hmeta⟩
  obtain ⟨v, hv, hvmeta, hvpart⟩ : ∃ v, v = (if found.isNone
        then (Volume.of s.root).writeMeta name 1 else .of s.root)
      ∧ (∀ name', v.root.metaFile name' = if name' = name then some (TopicJson.dumps 1)
        else s.root.metaFile name')
      ∧ ∀ name', v.root.part name' 0 = s.root.part name' 0 := by
    refine ⟨_, rfl, fun name' => ?_, fun name' => ?_⟩
    · split_ifs with hnone hn hn
      · rw [Volume.root_writeMeta, Root.metaFile_setMeta, if_pos hn]
      · rw [Volume.root_writeMeta, Root.metaFile_setMeta, if_neg hn]
        rfl
      · rcases hfound with rfl | ⟨-, hmeta⟩
        · exact absurd rfl hnone
        · rw [hn]
          exact hmeta
      · rfl
    · split_ifs
      · rw [Volume.root_writeMeta, Root.part_setMeta]
        rfl
      · rfl
  have hkeeps' : Keeps (v.disk name 0).view [] 0 := by
    unfold Volume.disk
    rw [hvpart, Disk.view_of]
    exact hkeeps
  have hlimit : 0 < single.maxSegmentBytes ∧ single.maxSegmentBytes ≤ maxU32 + 1 := by decide
  obtain ⟨log, disk, hopen, hrep, -⟩ := Topic.openLog_spec hlimit hkeeps'
  refine ⟨log, disk, (v.onPart name 0 disk).root, ?_, ?_, ?_, hrep, fun name' hne => ⟨?_, ?_⟩⟩
  · have hcount : found.getD (single.countOf none) = 1 := by
      rcases hfound with rfl | ⟨rfl, -⟩ <;> rfl
    have hfilter : (List.range 1).filter (single.owns name) = [0] := rfl
    have hlogs : single.openLogs name [0] v
        = (.ok (AList.insert 0 ⟨log, 0⟩ ∅), v.onPart name 0 disk) := by
      simp only [Topic.openLogs, hopen]
    unfold openLocked Topic.openLocked
    simp only [hread, hcount, ← hv, hfilter, hlogs]
    rfl
  · rw [Volume.root_onPart, Root.metaFile_setPart, hvmeta, if_pos rfl]
  · rw [Volume.root_onPart, Root.part_setPart, if_pos ⟨rfl, rfl⟩]
  · rw [Volume.root_onPart, Root.metaFile_setPart, hvmeta, if_neg hne]
  · rw [Volume.root_onPart, Root.part_setPart, if_neg fun h => hne h.1, hvpart]

/-- A `create` that opens a topic: one step, to its answer. -/
theorem go_create {s : State} {i : ℕ} {name : String} {topic : Opened} {s' : State}
    (hname : validateName name = .ok ()) (hnone : s.cache.lookup name = none)
    (hopen : openLocked single s name none = (.ok topic, s')) :
    Sharing.go single s i 0 0 (.create name none)
      = some (s'.put i (.returned (.count topic.partitions))) := by
  simp only [Sharing.go, hname, openCached, hnone, hopen, Call.ofExcept]

omit [Crc32] in
/-- A snapshot has all that the cache refers to at the moment it is taken. -/
theorem mem_everyPartition {s : State} {ref : ℕ} (h : s.cache.Reaches ref) :
    ref ∈ everyPartition s := by
  obtain ⟨name, topic, p, hlook, href⟩ := h
  exact List.mem_flatMap.mpr ⟨⟨name, topic⟩, AList.mem_lookup_iff.mp hlook,
    List.mem_map.mpr ⟨⟨p, ref⟩, AList.mem_lookup_iff.mp href, rfl⟩⟩

/-- Whether the call goes on without losing a cached object: a `close` drops
only what is in its snapshot, and an `append` finds room in the active
segment. It is the condition `Kept`, made decidable and a little stronger. -/
def State.keeps (s : State) (i : ℕ) (clock : ℤ) : Bool :=
  match s.calls[i]? with
  | some (.closing snapshot [] _) => (everyPartition s).all fun ref => ref ∈ snapshot
  | some (.writing ref _ key value timestamp) => (s.objects[ref]?).all fun o =>
    o.entry.log.active.hasRoomFor ⟨o.entry.log.nextOffset, timestamp.getD clock, key, value⟩
  | _ => true

/-- A step of a registry of one partition a topic, taken only where nothing is
lost. Runs of it are evaluated. -/
def execKept (s : State) : Act → Option State
  | .call (.create name partitions) => some { s with calls := s.calls ++ [.create name partitions] }
  | .call (.append name key value timestamp partition) =>
    some { s with calls := s.calls ++ [.append name key value timestamp partition] }
  | .call .close => some { s with calls := s.calls ++ [.close] }
  | .call _ => none
  | .go i clock elapsed =>
    if s.keeps i clock then (s.calls[i]?).bind (Sharing.go single s i clock elapsed) else none

/-- Each such step is one of the system, under its condition. -/
theorem execKept_some {s s' : State} {act : Act} (h : execKept s act = some s') :
    ((system single).given Kept).step s act s' := by
  cases act with
  | call c =>
    cases c with
    | create | append | close =>
      cases h
      exact ⟨.call trivial, trivial⟩
    | _ => cases h
  | go i clock elapsed =>
    obtain ⟨hkeeps, hgo⟩ := Option.ite_none_right_eq_some.mp h
    obtain ⟨c, hc, hgo⟩ := Option.bind_eq_some_iff.mp hgo
    refine ⟨.go hc hgo, fun snapshot errors hclosing ref hreaches => Or.inl ?_,
      fun ref partition key value timestamp hwriting o ho => Or.inr ?_⟩
    · simp only [State.keeps, hclosing, List.all_eq_true, decide_eq_true_eq] at hkeeps
      exact hkeeps ref (mem_everyPartition hreaches)
    · simpa only [State.keeps, hwriting, ho, Option.all_some] using hkeeps

omit [Crc32] in
/-- An append has its log when `close` takes its snapshot, closes the log and
clears the cache. The append comes to write and is refused, as the log is
closed and has room; then the topic is created again. Of the two logs on the
directory the second is the one with a handle, and the one in the cache. -/
theorem one_writer_closed : let _ := Crc32.zlib
    ∃ s, ((system single).given Kept).Reachable s
      ∧ s.objects.map (fun o => (o.name, o.partition, o.entry.log.segments.map (·.closed)))
        = [("orders", 0, [true]), ("orders", 0, [false])]
      ∧ everyPartition s = [1]
      ∧ (∀ (i j : ℕ) (o o' : Object), s.objects[i]? = some o → s.objects[j]? = some o' →
        o.name = o'.name → o.partition = o'.partition → o.Writable → o'.Writable → i = j)
      ∧ ∀ (ref : ℕ) (o : Object), s.objects[ref]? = some o →
        ¬o.Writable ∨ s.cache.Reaches ref := by
  intro _
  let acts : List Act := [.call (.create "orders" none), .go 0 0 0,
    .call (.append "orders" none (some []) (some 5) none), .go 1 0 0, .go 1 0 0,
    .call .close, .go 2 0 0, .go 2 0 0, .go 2 0 0, .go 1 0 0,
    .call (.create "orders" none), .go 3 0 0]
  have hrun : ((acts.foldlM execKept ⟨.empty, [], ∅, ⟨0⟩, []⟩).map fun s =>
      (s.objects.map (fun o => (o.name, o.partition, o.entry.log.segments.map (·.closed))),
        everyPartition s))
      = some ([("orders", 0, [true]), ("orders", 0, [false])], [1]) := by
    decide +kernel
  obtain ⟨s, hs, heq⟩ := Option.map_eq_some_iff.mp hrun
  obtain ⟨hobjects, hcached⟩ := Prod.mk.inj heq
  have hstart : ((system single).given Kept).start ⟨.empty, [], ∅, ⟨0⟩, []⟩ := ⟨rfl, rfl, rfl, rfl⟩
  have hreach := (System.Reachable.start hstart).foldlM (fun _ _ _ h => execKept_some h) hs
  exact ⟨s, hreach, hobjects, hcached, one_writer hreach⟩

omit [Crc32] in
/-- **Two writers.** A topic is opened while `close` closes the logs of its
snapshot. `close` clears it from the cache and returns; its log is not
closed, and nothing refers to it. The next `create` opens another log on the
same directory. -/
theorem two_writers : let _ := Crc32.zlib
    ∃ s, (system single).Reachable s ∧ .returned .closed ∈ s.calls
      ∧ ∃ (i j : ℕ) (o o' : Object), i ≠ j ∧ s.objects[i]? = some o ∧ s.objects[j]? = some o'
        ∧ o.name = o'.name ∧ o.partition = o'.partition ∧ o.Writable ∧ o'.Writable
        ∧ ¬s.cache.Reaches i := by
  intro _
  have horders : validateName "orders" = .ok () := by decide +kernel
  have hclicks : validateName "clicks" = .ok () := by decide +kernel
  have hne : "orders" ≠ "clicks" := by decide
  have hgo : ∀ {s s'} (i : ℕ) {c : Call}, s.calls[i]? = some c →
      Sharing.go single s i 0 0 c = some s' → (system single).step s (.go i 0 0) s' :=
    fun _ _ hc h => .go hc h
  have hstart : (system single).start ⟨.empty, [], ∅, ⟨0⟩, []⟩ := ⟨rfl, rfl, rfl, rfl⟩
  -- a topic is created
  obtain ⟨log₁, disk₁, root₁, hopen₁, -, hpart₁, hrep₁, hothers₁⟩ := openLocked_single
    (s := ⟨.empty, [], ∅, ⟨0⟩, [.create "orders" none]⟩) "orders" (.inl rfl) keeps_empty
  have hcreated : (system single).Reachable ⟨root₁, [⟨"orders", 0, ⟨log₁, 0⟩⟩],
      AList.insert "orders" (.one 0) ∅, ⟨0⟩, [.returned (.count 1)]⟩ :=
    ((System.Reachable.start hstart).step (.call (c := .create "orders" none) trivial)).step
      (hgo 0 rfl (go_create horders rfl hopen₁))
  -- `close` takes its snapshot
  have hsnapshot : (system single).Reachable ⟨root₁, [⟨"orders", 0, ⟨log₁, 0⟩⟩],
      AList.insert "orders" (.one 0) ∅, ⟨0⟩, [.returned (.count 1), .closing [0] [0] []]⟩ :=
    (hcreated.step (.call (c := .close) trivial)).step (hgo 1 rfl rfl)
  -- another topic is created
  have hempty₁ := hothers₁ "clicks" hne.symm
  obtain ⟨log₂, disk₂, root₂, hopen₂, hmeta₂, hpart₂, hrep₂, hothers₂⟩ := openLocked_single
    (s := ⟨root₁, [⟨"orders", 0, ⟨log₁, 0⟩⟩], AList.insert "orders" (.one 0) ∅, ⟨0⟩,
      [.returned (.count 1), .closing [0] [0] [], .create "clicks" none]⟩) "clicks"
    (.inl hempty₁.1) (by
      rw [hempty₁.2]
      exact keeps_empty)
  have hcreated₂ : (system single).Reachable ⟨root₂,
      [⟨"orders", 0, ⟨log₁, 0⟩⟩, ⟨"clicks", 0, ⟨log₂, 0⟩⟩],
      AList.insert "clicks" (.one 1) (AList.insert "orders" (.one 0) ∅), ⟨0⟩,
      [.returned (.count 1), .closing [0] [0] [], .returned (.count 1)]⟩ :=
    (hsnapshot.step (.call (c := .create "clicks" none) trivial)).step
      (hgo 2 rfl (go_create hclicks rfl hopen₂))
  -- `close` closes the first one's log, and clears the cache
  have hrep₁ : log₁.Represents (Disk.of disk₁.dir).view [] 0 := hrep₁
  obtain ⟨log₁', disk₁', hclose, -⟩ := hrep₁.close
  have hdisk : Volume.disk (.of root₂) "orders" 0 = .of disk₁.dir := by
    unfold Volume.disk
    rw [show (Volume.of root₂).root = root₂ from rfl, (hothers₂ "orders" hne).2, hpart₁]
    rfl
  have hclosed : (system single).Reachable ⟨root₂.setPart "orders" 0 disk₁'.dir,
      [⟨"orders", 0, ⟨log₁', 0⟩⟩, ⟨"clicks", 0, ⟨log₂, 0⟩⟩],
      AList.insert "clicks" (.one 1) (AList.insert "orders" (.one 0) ∅), ⟨0⟩,
      [.returned (.count 1), .closing [0] [] [], .returned (.count 1)]⟩ := by
    refine hcreated₂.step (hgo 1 rfl ?_)
    simp only [Sharing.go, State.onLog, List.getElem?_cons_zero, Option.bind_eq_bind,
      Option.bind_some, hdisk, hclose]
    rfl
  have hcleared : (system single).Reachable ⟨root₂.setPart "orders" 0 disk₁'.dir,
      [⟨"orders", 0, ⟨log₁', 0⟩⟩, ⟨"clicks", 0, ⟨log₂, 0⟩⟩], ∅, ⟨0⟩,
      [.returned (.count 1), .returned .closed, .returned (.count 1)]⟩ :=
    hclosed.step (hgo 1 rfl rfl)
  -- the other topic is created again
  obtain ⟨log₃, disk₃, root₃, hopen₃, -, -, hrep₃, -⟩ := openLocked_single
    (s := ⟨root₂.setPart "orders" 0 disk₁'.dir,
      [⟨"orders", 0, ⟨log₁', 0⟩⟩, ⟨"clicks", 0, ⟨log₂, 0⟩⟩],
      ∅, ⟨0⟩, [.returned (.count 1), .returned .closed, .returned (.count 1),
        .create "clicks" none]⟩) "clicks"
    (.inr (by rw [Root.metaFile_setPart, hmeta₂])) (by
      rw [Root.part_setPart, if_neg fun h => hne h.1.symm, hpart₂]
      exact hrep₂.keeps)
  have hlast : (system single).Reachable ⟨root₃,
      [⟨"orders", 0, ⟨log₁', 0⟩⟩, ⟨"clicks", 0, ⟨log₂, 0⟩⟩, ⟨"clicks", 0, ⟨log₃, 0⟩⟩],
      AList.insert "clicks" (.one 2) ∅, ⟨0⟩, [.returned (.count 1), .returned .closed,
        .returned (.count 1), .returned (.count 1)]⟩ :=
    (hcleared.step (.call (c := .create "clicks" none) trivial)).step
      (hgo 3 rfl (go_create hclicks rfl hopen₃))
  refine ⟨_, hlast, List.mem_cons_of_mem _ List.mem_cons_self, 1, 2, _, _, by omega, rfl, rfl, rfl,
    rfl, writable_of_represents hrep₂, writable_of_represents hrep₃, fun hreaches => ?_⟩
  obtain ⟨name, topic, p, hlook, href⟩ := hreaches
  by_cases hn : name = "clicks"
  · rw [hn, AList.lookup_insert] at hlook
    cases hlook
    by_cases hp : p = 0
    · rw [hp, Opened.one, AList.lookup_insert] at href
      cases href
    · rw [Opened.one, AList.lookup_insert_ne hp] at href
      cases href
  · rw [AList.lookup_insert_ne hn] at hlook
    cases hlook

end Codec

end Sharing

end Pyka
