import Pyka.Broker.Node

/-!
# The sync endpoint

`POST /topics/{name}/sync` makes what is in a topic durable, as an operator
asks for it before a planned shutdown. It asks for the log of every partition
that the topic has and then syncs those logs. On a broker that the ring gives
only some of the partitions there is no log of the others to ask for: that
raises `PartitionNotLocal`, which the admin side does not map to a status, and
nothing is synced, not even what is stored there.

So the endpoint works where this broker owns the whole topic, and only there
(`Admin.syncTopic_works_iff`).

## What it is for

The docstring of the endpoint promises a sync of every partition of the topic,
to make the tail durable without waiting for the policy. A broker can do that
for what it stores; `Works` says so, and asks it of the partitions that the
ring gives to this broker, of which there may be none. The registry's own
`sync`, which goes through all topics, takes the partitions stored here and so
has no such case.

## The other endpoints

They are in `Broker.Control`, where the whole of the admin side is asked
beside the data plane. This one comes first, since it makes something durable
and is the only one that goes through all partitions of a topic. Where an
exception is mapped to no status the framework answers 500.
-/

namespace Pyka

/-- How a request to the admin side fails: with a status, or by an exception
nothing maps to one, which the framework answers with 500. -/
inductive HttpError
  | status (code : ℕ) (detail : String)
  | unhandled (e : PyError)
  deriving DecidableEq, Repr

namespace Topic

variable [Crc32]

/-- Sync the log of a partition. It is reached through the registry, where
it has been found before. -/
def syncLog (t : Topic) (v : Volume) (name : String) (p : ℕ) :
    Except PyError Unit × Topic × Volume :=
  match t.opened.lookup name with
  | none => (.ok (), t, v)
  | some topic =>
    match topic.stored.lookup p with
    | none => (.ok (), t, v)
    | some entry =>
      let (res, log, disk) := entry.log.sync (v.disk name p)
      (res, t.setEntry name topic p { entry with log }, v.onPart name p disk)

end Topic

namespace Admin

/-- **`_to_thread`**: the exceptions of the storage, as statuses. A
`PartitionNotLocal` is a `KeyError` and is not among them. -/
def toThread {α : Type} : Except PyError α → Except HttpError α
  | .ok a => .ok a
  | .error (.unknownTopic name) => .error (.status 404 (PyError.unknownTopic name).text)
  | .error e => .error (if e.isValueError then .status 400 e.text else .unhandled e)

section Codec

variable [Crc32]

/-- `_get_log`: the log of a partition, which is known by the partition's
number from here on. -/
def getLog (s : Store) (v : Volume) (name : String) (p : ℕ) : Except HttpError ℕ × Store × Volume :=
  let (res, topic, v) := s.topic.get v name p
  (toThread (res.map fun _ => p), { s with topic }, v)

/-- The logs of partitions, one after the other, up to the first that is not
to be had. -/
def getLogs (name : String) : List ℕ → Store → Volume → Except HttpError (List ℕ) × Store × Volume
  | [], s, v => (.ok [], s, v)
  | p :: ps, s, v =>
    match getLog s v name p with
    | (.error e, s, v) => (.error e, s, v)
    | (.ok log, s, v) =>
      let (res, s, v) := getLogs name ps s v
      (res.map (log :: ·), s, v)

/-- **`_all_logs`**: of every partition that the topic has in total, not of
those stored here. -/
def allLogs (s : Store) (v : Volume) (name : String) :
    Except HttpError (List ℕ) × Store × Volume :=
  let (res, s, v) := s.partitionsOf v name
  match toThread res with
  | .error e => (.error e, s, v)
  | .ok count => getLogs name (List.range count) s v

/-- Sync logs, one after the other; those before one that fails have been
synced. -/
def syncLogs (name : String) : List ℕ → Store → Volume → Except HttpError Unit × Store × Volume
  | [], s, v => (.ok (), s, v)
  | log :: logs, s, v =>
    let (res, topic, v) := s.topic.syncLog v name log
    match toThread res with
    | .error e => (.error e, { s with topic }, v)
    | .ok () => syncLogs name logs { s with topic } v

/-- **`sync_topic`**: the answer's body, where there is one. -/
def syncTopic (s : Store) (v : Volume) (name : String) :
    Except HttpError (List (String × String)) × Store × Volume :=
  match allLogs s v name with
  | (.error e, s, v) => (.error e, s, v)
  | (.ok logs, s, v) =>
    let (res, s, v) := syncLogs name logs s v
    (res.map fun () => [("status", "synced")], s, v)

/-! ## Asking for the logs

First all logs are asked for, and only then the first is synced. So whatever
fails here fails before anything was done. -/

variable {s : Store} {v : Volume} {c : Catalog} {name : String} {topic : OpenTopic}

omit [Crc32] in
/-- What is answered is passed on as it is. -/
theorem toThread_eq_ok {α : Type} {res : Except PyError α} {a : α} :
    toThread res = .ok a ↔ res = .ok a := by
  cases res with
  | ok b => exact ⟨fun h => congrArg Except.ok (Except.ok.inj h), fun h => congrArg toThread h⟩
  | error e =>
    refine ⟨fun h => ?_, fun h => by cases h⟩
    cases e <;> cases h

/-- **A partition of a topic that is open**: its log, or none here. -/
theorem getLog_eq (hname : validateName name = .ok ())
    (hlook : s.topic.opened.lookup name = some topic) {p : ℕ} (hp : p < topic.partitions) :
    getLog s v name p = (if (topic.stored.lookup p).isSome then .ok p
      else .error (.unhandled
        (.partitionNotLocal s!"partition {(p : ℤ)} of {pyRepr name} is not stored here")),
      s, v) := by
  have hrange : ¬¬(0 ≤ (p : ℤ) ∧ (p : ℤ) < topic.partitions) :=
    not_not.mpr ⟨Int.natCast_nonneg p, Int.ofNat_lt.mpr hp⟩
  unfold getLog Topic.get
  simp only [Topic.existing_of_opened hname hlook, Except.bind, Topic.checkPartition, raiseIf,
    if_neg hrange, Int.toNat_natCast]
  cases topic.stored.lookup p with
  | none => rfl
  | some entry => rfl

/-- Asking for logs changes nothing. It succeeds where they are all here, and
not otherwise. -/
theorem getLogs_spec (hname : validateName name = .ok ())
    (hlook : s.topic.opened.lookup name = some topic) {ps : List ℕ}
    (hps : ∀ p ∈ ps, p < topic.partitions) :
    (∃ res, getLogs name ps s v = (res, s, v))
      ∧ ((∀ p ∈ ps, (topic.stored.lookup p).isSome) → getLogs name ps s v = (.ok ps, s, v))
      ∧ ((∃ p ∈ ps, topic.stored.lookup p = none) → ∃ msg,
          getLogs name ps s v = (.error (.unhandled (.partitionNotLocal msg)), s, v)) := by
  induction ps with
  | nil => exact ⟨⟨_, rfl⟩, fun _ => rfl, fun ⟨p, hp, _⟩ => (by cases hp)⟩
  | cons p ps ih =>
    obtain ⟨⟨res, hres⟩, hall, hsome⟩ := ih fun q hq => hps q (List.mem_cons_of_mem _ hq)
    have hget : getLog s v name p = _ := getLog_eq hname hlook (hps p List.mem_cons_self)
    unfold getLogs
    rw [hget]
    cases hp : topic.stored.lookup p with
    | none =>
      refine ⟨⟨_, rfl⟩, fun hstored => ?_, fun _ => ⟨_, rfl⟩⟩
      have := hstored p List.mem_cons_self
      rw [hp] at this
      cases this
    | some entry =>
      refine ⟨⟨res.map (p :: ·), ?_⟩, fun hstored => ?_, fun ⟨q, hq, hnone⟩ => ?_⟩
      · simp only [Option.isSome_some, if_true, hres]
      · simp only [Option.isSome_some, if_true,
          hall fun q hq => hstored q (List.mem_cons_of_mem _ hq)]
        rfl
      · rcases List.mem_cons.mp hq with rfl | hq
        · rw [hp] at hnone
          cases hnone
        · obtain ⟨msg, herror⟩ := hsome ⟨q, hq, hnone⟩
          refine ⟨msg, ?_⟩
          simp only [Option.isSome_some, if_true, herror]
          rfl

/-! ## Syncing them

To sync a log changes what is durable of one partition, and no record of any. -/

/-- **A partition all of whose records are durable.** -/
def Durable (root : Root) (name : String) (p : ℕ) (records : List Record) : Prop :=
  ∃ dir, root.part name p = some dir ∧ Keeps dir.logs.view records records.length

/-- **Syncing one log** makes its records durable and leaves all else. -/
theorem syncLog_spec (h : s.Rep v c) (hlook : s.topic.opened.lookup name = some topic) {p : ℕ}
    (hp : (topic.stored.lookup p).isSome) :
    ∃ t' v' topic', s.topic.syncLog v name p = (.ok (), t', v')
      ∧ Store.Rep { s with topic := t' } v' c
      ∧ t'.opened.lookup name = some topic'
      ∧ (∀ q, (topic'.stored.lookup q).isSome = (topic.stored.lookup q).isSome)
      ∧ Durable v'.root name p (c.records name p)
      ∧ ∀ q, q ≠ p → v'.root.part name q = v.root.part name q := by
  obtain ⟨entry, hentry⟩ := Option.isSome_iff_exists.mp hp
  obtain ⟨-, -, d, rs, hd, hl, hrep⟩ := (h.topic.opened hlook).stored hentry
  have hdisk : v.disk name p = .of d := by rw [Volume.disk, hd]; rfl
  have hrecs : c.records name p = rs := by rw [Catalog.records, hl]; rfl
  have hrep : entry.log.Represents (v.disk name p).view rs 0 := by rwa [hdisk]
  obtain ⟨log, disk, hsync, hrep', -⟩ := hrep.sync
  have hpart : ∀ q, (v.onPart name p disk).root.part name q
      = if name = name ∧ q = p then some disk.dir else v.root.part name q := fun _ =>
    Root.part_setPart ..
  refine ⟨s.topic.setEntry name topic p { entry with log }, v.onPart name p disk,
    { topic with stored := topic.stored.insert p { entry with log } }, ?_,
    ⟨h.topic.setEntry hlook hentry (hrep'.mono (Nat.zero_le _)) rfl rfl (Topic.logs_eq_ite hl),
      h.owns⟩,
    AList.lookup_insert _, fun q => ?_, ⟨disk.dir, ?_, ?_⟩, fun q hq => ?_⟩
  · unfold Topic.syncLog
    simp only [hlook, hentry, hsync]
  · show ((topic.stored.insert p { entry with log }).lookup q).isSome = _
    by_cases hq : q = p
    · rw [hq, AList.lookup_insert, hentry]
      rfl
    · rw [AList.lookup_insert_ne hq]
  · rw [hpart, if_pos ⟨rfl, rfl⟩]
  · rw [hrecs]
    exact hrep'.keeps
  · rw [hpart, if_neg fun hc => hq hc.2]

/-- **Syncing logs** makes the records of each durable, by induction on the
list of partitions. -/
theorem syncLogs_spec (h : s.Rep v c) (hlook : s.topic.opened.lookup name = some topic)
    {ps : List ℕ}
    (hps : ∀ p ∈ ps, (topic.stored.lookup p).isSome) :
    ∃ s' v', syncLogs name ps s v = (.ok (), s', v')
      ∧ (∀ p ∈ ps, Durable v'.root name p (c.records name p))
      ∧ ∀ q, q ∉ ps → v'.root.part name q = v.root.part name q := by
  induction ps generalizing s v topic with
  | nil => exact ⟨s, v, rfl, fun p hp => (by cases hp), fun _ _ => rfl⟩
  | cons p ps ih =>
    obtain ⟨t₁, v₁, topic₁, hsync, hrep, hlook₁, hstored, hdurable, hrest⟩ :=
      syncLog_spec h hlook (hps p List.mem_cons_self)
    obtain ⟨s', v', hlogs, hdurable', hrest'⟩ := ih hrep hlook₁ fun q hq => by
      rw [hstored]
      exact hps q (List.mem_cons_of_mem _ hq)
    refine ⟨s', v', ?_, fun q hq => ?_, fun q hq => ?_⟩
    · unfold syncLogs
      simp only [hsync, toThread]
      exact hlogs
    · by_cases hq' : q ∈ ps
      · exact hdurable' q hq'
      · -- synced here, and not touched after it
        obtain rfl : q = p := (List.mem_cons.mp hq).resolve_right hq'
        obtain ⟨dir, hdir, hkeeps⟩ := hdurable
        exact ⟨dir, (hrest' q hq').trans hdir, hkeeps⟩
    · rw [hrest' q fun hmem => hq (List.mem_cons_of_mem _ hmem),
        hrest q fun heq => hq (heq ▸ List.mem_cons_self)]

/-! ## The endpoint

Both parts together, for a broker that has been through any life. -/

/-- **What the endpoint is for**: it answers that the topic is synced, and the
records of every partition of it that is stored here are durable. -/
def Works (s : Store) (v : Volume) (name : String) : Prop :=
  (syncTopic s v name).1 = .ok [("status", "synced")]
    ∧ ∀ n p, v.root.metaFile name = some (TopicJson.dumps n) → p < n
      → s.ring.owns name p = .ok true →
      Durable (syncTopic s v name).2.2.root name p (v.root.records name p)

/-- **What asking for the logs of a topic comes to**: there is no such topic,
or all logs are here, or one of them is not and that is raised. -/
theorem allLogs_spec (h : s.Rep v c) (name : String) :
    (c.counts name = none ∧ ∃ e s' v', allLogs s v name = (.error e, s', v'))
    ∨ ∃ n topic s' v' c', c.counts name = some n ∧ s'.Rep v' c'
        ∧ (∀ p, c'.records name p = c.records name p)
        ∧ s'.topic.opened.lookup name = some topic
        ∧ (∀ p < n, (topic.stored.lookup p).isSome ↔ s.ring.owns name p = .ok true)
        ∧ ((∀ p < n, s.ring.owns name p = .ok true) →
            allLogs s v name = (.ok (List.range n), s', v'))
        ∧ (¬(∀ p < n, s.ring.owns name p = .ok true) → ∃ msg,
            allLogs s v name = (.error (.unhandled (.partitionNotLocal msg)), s', v')) := by
  unfold allLogs Store.partitionsOf Topic.partitionsOf
  rcases Topic.existing_spec h.topic name with ⟨e, ht, hc⟩ | ⟨topic, t', v', ht, hc, hlook, hf⟩
  · left
    rcases Catalog.existing_cases hc with ⟨e', -, -, hwhy⟩ | ⟨n, -, -, hn, -⟩
    · refine ⟨?_, ?_⟩
      · rcases hwhy with hname | ⟨-, hnone, -⟩
        · cases hn : c.counts name with
          | none => rfl
          | some n =>
            have := (h.topic.stores.names hn).1
            rw [hname] at this
            cases this
        · exact hnone
      · simp only [ht]
        cases hthread : toThread (Except.map OpenTopic.partitions (.error e)) with
        | error e' => exact ⟨e', _, _, rfl⟩
        | ok n => cases toThread_eq_ok.mp hthread
    · cases hn
  · right
    obtain ⟨hname, hn⟩ : validateName name = .ok () ∧ c.counts name = some topic.partitions := by
      rcases Catalog.existing_cases hc with ⟨e, he, -⟩ | ⟨n, hname, hn, he, -⟩
      · cases he
      · cases he
        exact ⟨hname, hn⟩
    have howns : t'.owns = s.ring.ownsPartition :=
      (congrArg Holder.owns hf.holder).trans h.owns
    have hrep : Store.Rep { s with topic := t' } v'
        (c.touch s.topic.holder name topic.partitions) :=
      ⟨hf.rep, howns⟩
    have hopen := hf.rep.opened hlook
    have hstored : ∀ p < topic.partitions,
        (topic.stored.lookup p).isSome ↔ s.ring.owns name p = .ok true := fun p hp => by
      rw [Ring.ownsPartition_eq]
      refine ⟨fun hsome => ?_, fun ho => hopen.isSome p hp ?_⟩
      · obtain ⟨entry, hentry⟩ := Option.isSome_iff_exists.mp hsome
        rw [← howns, (hopen.stored hentry).2.1]
      · rw [howns, Except.ok.inj ho]
    obtain ⟨-, hall, hsome⟩ := getLogs_spec (s := { s with topic := t' }) (v := v') hname hlook
      (show ∀ p ∈ List.range topic.partitions, p < topic.partitions from fun p => List.mem_range.mp)
    refine ⟨topic.partitions, topic, { s with topic := t' }, v', _, hn, hrep,
      fun p => Catalog.records_touch, hlook, hstored, fun howned => ?_, fun hforeign => ?_⟩
    · simp only [ht, Except.map, toThread]
      exact hall fun p hp =>
        (hstored p (List.mem_range.mp hp)).mpr (howned p (List.mem_range.mp hp))
    · simp only [ht, Except.map, toThread]
      obtain ⟨p, hp, hother⟩ := not_forall₂.mp hforeign
      refine hsome ⟨p, List.mem_range.mpr hp, Option.not_isSome_iff_eq_none.mp fun hhere =>
        hother ?_⟩
      exact (hstored p hp).mp hhere

/-- **The sync endpoint works where the whole topic is owned.** Whatever a
broker has been through: it answers a sync of a topic with success, and what
it stores of the topic is durable then, if and only if the topic is there
and the ring gives this broker every partition of it. -/
theorem syncTopic_works_iff {acts : List Node.Act} {root : Root}
    (hrun : (Node.machine.run .empty acts).2 = ⟨some s, root⟩) (name : String) :
    Works s (.of root) name ↔ ∃ n, root.metaFile name = some (TopicJson.dumps n)
      ∧ ∀ p < n, s.ring.owns name p = .ok true := by
  obtain ⟨c, hgood⟩ := Node.run_good (n := .empty) (c := .empty) stores_empty acts
  rw [hrun] at hgood
  have h : s.Rep (.of root) c := hgood.rep rfl
  have hmeta : root.metaFile name = (c.counts name).map TopicJson.dumps :=
    h.topic.stores.metaFile name
  have hrecs : ∀ p, root.records name p = c.records name p := h.topic.stores.records_eq name
  rcases allLogs_spec h name with ⟨hnone, e, s', v', hlogs⟩
    | ⟨n, topic, s', v', c', hn, hrep, hrecs', hlook, hstored, howned, hforeign⟩
  · refine ⟨fun hw => ?_, fun ⟨n, hn, _⟩ => ?_⟩
    · have hanswer := hw.1
      unfold syncTopic at hanswer
      rw [hlogs] at hanswer
      cases hanswer
    · rw [hmeta, hnone] at hn
      cases hn
  · have hcount : ∀ m, root.metaFile name = some (TopicJson.dumps m) → m = n := fun m hm =>
      Option.some.inj ((h.topic.stores.count_of hm).symm.trans hn)
    constructor
    · intro hw
      refine ⟨n, by rw [hmeta, hn]; rfl, ?_⟩
      by_contra hother
      obtain ⟨msg, hlogs⟩ := hforeign hother
      have hanswer := hw.1
      unfold syncTopic at hanswer
      rw [hlogs] at hanswer
      cases hanswer
    · rintro ⟨m, hm, hall⟩
      obtain rfl := hcount m hm
      obtain ⟨s'', v'', hsync, hdurable, -⟩ := syncLogs_spec hrep hlook
        (show ∀ p ∈ List.range m, (topic.stored.lookup p).isSome from fun p hp =>
          (hstored p (List.mem_range.mp hp)).mpr (hall p (List.mem_range.mp hp)))
      have hout : syncTopic s (.of root) name = (.ok [("status", "synced")], s'', v'') := by
        unfold syncTopic
        rw [howned hall]
        simp only [hsync]
        rfl
      refine ⟨congrArg Prod.fst hout, fun k p hk hp _ => ?_⟩
      obtain rfl := hcount k hk
      rw [hout, show (Volume.of root).root.records name p = c.records name p from hrecs p,
        ← hrecs' p]
      exact hdurable p (List.mem_range.mpr hp)

end Codec

/-! ### On a broker of one, and on a broker of two

The same acts on a broker that is alone and on the first of two. Either has a
record to sync. -/

/-- Broker 0 of so many, with a topic of two partitions and a record in it. -/
def ordersOn (brokers : ℕ) (h : 0 < brokers) : List Node.Act :=
  [.start ⟨brokers, 0, fun b => .ok s!"pyka-{b}", .modulo, h⟩
      ⟨"data", 2, .never, ⟨2 ^ 30, default_max_segment_bytes⟩, false, Nat.two_pos⟩,
    .ask (.create "orders" none),
    .ask (.produce ⟨"orders", none, some [97], some 5, none, some 0⟩ 7 0)]

theorem syncTopic_works_iff_alone : let _ := Crc32.zlib
    ∃ s root, (Node.machine.run .empty (ordersOn 1 Nat.one_pos)).2 = ⟨some s, root⟩
      ∧ Works s (.of root) "orders" := by
  intro _
  have hmeta : (Node.machine.run .empty (ordersOn 1 Nat.one_pos)).2.root.metaFile "orders"
      = some (TopicJson.dumps 2) := by
    decide +kernel
  have howns : ∀ p : ℕ, p < 2 → (Node.machine.run .empty (ordersOn 1 Nat.one_pos)).2.store.map
      (fun s => s.ring.owns "orders" p) = some (.ok true) := by
    decide +kernel
  cases hrun : (Node.machine.run .empty (ordersOn 1 Nat.one_pos)).2 with
  | mk store root =>
  rw [hrun] at hmeta howns
  cases store with
  | none => cases howns 0 Nat.two_pos
  | some s =>
    exact ⟨s, root, rfl, (syncTopic_works_iff hrun "orders").mpr
      ⟨2, hmeta, fun p hp => Option.some.inj (howns p hp)⟩⟩

/-- **A broker of two**: its own partition is not synced either, and the
answer is no status. -/
theorem syncTopic_split : let _ := Crc32.zlib
    ∃ s root, (Node.machine.run .empty (ordersOn 2 Nat.two_pos)).2 = ⟨some s, root⟩
      ∧ root.metaFile "orders" = some (TopicJson.dumps 2)
      ∧ s.ring.owns "orders" 0 = .ok true
      ∧ (syncTopic s (.of root) "orders").1
        = .error (.unhandled (.partitionNotLocal "partition 1 of 'orders' is not stored here"))
      ∧ ((syncTopic s (.of root) "orders").2.2.root.part "orders" 0).map
          (fun dir => (dir.logs.lookup 0).map File.kept) = some (some 0)
      ∧ ¬Works s (.of root) "orders" := by
  intro _
  have hmeta : (Node.machine.run .empty (ordersOn 2 Nat.two_pos)).2.root.metaFile "orders"
      = some (TopicJson.dumps 2) := by
    decide +kernel
  have howns : (Node.machine.run .empty (ordersOn 2 Nat.two_pos)).2.store.map
      (fun s => s.ring.owns "orders" 0) = some (.ok true) := by
    decide +kernel
  have hout : (Node.machine.run .empty (ordersOn 2 Nat.two_pos)).2.store.map (fun s =>
      let out := syncTopic s (.of (Node.machine.run .empty (ordersOn 2 Nat.two_pos)).2.root)
        "orders"
      (out.1, (out.2.2.root.part "orders" 0).map (fun dir => (dir.logs.lookup 0).map File.kept)))
      = some (.error (.unhandled (.partitionNotLocal "partition 1 of 'orders' is not stored here")),
        some (some 0)) := by
    decide +kernel
  cases hrun : (Node.machine.run .empty (ordersOn 2 Nat.two_pos)).2 with
  | mk store root =>
  rw [hrun] at hmeta howns hout
  cases store with
  | none => cases howns
  | some s =>
    obtain ⟨hanswer, hkept⟩ := Prod.mk.inj (Option.some.inj hout)
    refine ⟨s, root, rfl, hmeta, Option.some.inj howns, hanswer, hkept, fun hw => ?_⟩
    rw [hw.1] at hanswer
    cases hanswer

end Admin

end Pyka
