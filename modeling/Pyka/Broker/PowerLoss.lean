import Pyka.Broker.Outage
import Pyka.Topic.Durable

/-!
# Power failures

`Topic.SyncPolicy` says how much data one is willing to lose when the power
fails. `PowerLoss.system` is a broker over its lives, as `Node.machine` has
it, with power failures: at any state that the data root passes through while
the broker does something, or nothing. It keeps what nobody stores, which
records their producers have been told of and how many of these a failure took
away.

A record is told of when it is in the file, and synced when `k` of them are;
so while one life goes on `k - 1` of them may be at stake. But killing a
broker syncs nothing, and the one started next counts from zero. At stake are
`k - 1` records for every start since the partition was last closed in order
(`PowerLoss.lost_le`). A broker that syncs every record loses none, however it
ends (`PowerLoss.none_lost`).

## One request at a time

The broker is asked one request after another: `Node.machine` answers each
before it is given the next. That matters for the bound. `Topic.append`
counts, syncs and clears its count in three regions of its own, and with two
appends at once the second may count between the sync and the clearing, so
that its record is told of and no sync is to come for it
(`Syncing.forgotten`). What holds of appends that overlap is in
`Topic/Syncing`, with the condition under which the count is kept.

Power failures here spare `topic.json`: what becomes of a topic whose
`topic.json` is torn is the subject of `Broker/Outage`.
-/

namespace Pyka

open Struct (Bytes)

namespace Node

/-- The states that the data root passes through in a step. -/
def through [Crc32] (n : Node) : Act → List Root
  | .start ring settings =>
    match n.store with
    | some _ => [n.root]
    | none =>
      match Store.init settings.path settings.partitions settings.syncPolicy
          settings.maxSegmentBytes ring settings.allowOrphans with
      | .error _ => [n.root]
      | .ok s => (s.open (.of n.root)).2.2.states
  | .ask request =>
    match n.store with
    | none => [n.root]
    | some s => (request.exec s (.of n.root)).2.2.states
  | .close =>
    match n.store with
    | none => [n.root]
    | some s => (s.close (.of n.root)).2.2.states
  | .kill => [n.root]

end Node

namespace PowerLoss

/-- A broker; for each partition the records that somebody was told of and
that are not lost, how many are lost, and how often a broker that owns it was
started – the last two since one was last closed in order. -/
structure State where
  node : Node
  told : String → ℕ → List Record
  lost : String → ℕ → ℕ
  starts : String → ℕ → ℕ

/-- Nothing yet. -/
def State.empty : State := ⟨.empty, fun _ _ => [], fun _ _ => 0, fun _ _ => 0⟩

/-- What happens: an act, or a power failure in the middle of one, which
leaves a data root. -/
inductive Event
  | act (act : Node.Act)
  | failure (act : Node.Act) (left : Root)

/-- The record that a producer is told of: what was asked for, at the place in
the answer. Nobody is told of a record that was refused. -/
def toldOf : Node.Act → Node.Answer → Option (String × ℕ × Record)
  | .ask (.produce request clock _), .produced (.ok response) =>
    some (request.topic, response.partition.toNat,
      ⟨response.offset, request.timestamp.getD clock, request.key, request.value⟩)
  | _, _ => none

/-- A broker owns a partition that one is started or closed with: a number,
since it is what a start adds and a close sets back. -/
def owned (ring : Ring) (name : String) (p : ℕ) : ℕ := if ring.ownsPartition name p then 1 else 0

section Codec

variable [Crc32]

/-- **An act**, and what is told by it. A start counts for the partitions that
the ring gives to the broker; closing in order sets those back, as it leaves
nothing that waits for a sync. -/
def State.after (s : State) (act : Node.Act) : State where
  node := (Node.machine.step s.node act).2
  told :=
    match toldOf act (Node.machine.step s.node act).1 with
    | none => s.told
    | some (name, p, r) => setAt s.told name p (s.told name p ++ [r])
  lost name p :=
    match act, s.node.store with
    | .close, some store => if store.ring.ownsPartition name p then 0 else s.lost name p
    | _, _ => s.lost name p
  starts name p :=
    match act, s.node.store with
    | .start ring _, none => s.starts name p + owned ring name p
    | .close, some store => if store.ring.ownsPartition name p then 0 else s.starts name p
    | _, _ => s.starts name p

/-- Where nobody is told, the records told of are those that were. -/
theorem State.told_of_none {s : State} {act : Node.Act}
    (h : toldOf act (Node.machine.step s.node act).1 = none) : (s.after act).told = s.told := by
  simp only [State.after, h]

/-- Where somebody is, there is one more, of that partition. -/
theorem State.told_of_some {s : State} {act : Node.Act} {name : String} {p : ℕ} {r : Record}
    (h : toldOf act (Node.machine.step s.node act).1 = some (name, p, r)) :
    (s.after act).told = setAt s.told name p (s.told name p ++ [r]) := by
  simp only [State.after, h]

/-- Is a record where it was said to be? -/
def inPlace (root : Root) (name : String) (p : ℕ) (r : Record) : Bool :=
  decide ((root.records name p)[r.offset.toNat]? = some r)

/-- **A power failure**: the process is gone, and with it the records that are
not where they were. Those are counted, and not told of any more. -/
def State.fail (s : State) (left : Root) : State where
  node := ⟨none, left⟩
  told name p := (s.told name p).filter (inPlace left name p)
  lost name p := s.lost name p
    + ((s.told name p).length - ((s.told name p).filter (inPlace left name p)).length)
  starts := s.starts

/-- **The steps.** No broker is started that syncs less often than every `k`
records, and no failure breaks a `topic.json`, after which none would start. -/
inductive Step (k : ℤ) : State → Event → State → Prop
  | act {s : State} {act : Node.Act}
      (h : ∀ ring settings, act = .start ring settings →
        ∃ j ≤ k, settings.syncPolicy.records = some j) :
      Step k s (.act act) (s.after act)
  | failure {s : State} {act : Node.Act} {mid left : Root} (hmid : mid ∈ s.node.through act)
      (hcrash : mid.Crash left) (hwhole : left.Whole) :
      Step k s (.failure act left) (s.fail left)

/-- Runs start from an empty data root, and nobody told of anything. -/
def system (k : ℤ) : System State Event where
  start s := s = State.empty
  step := Step k

end Codec

variable [Crc32]

/-! ## Requests

What each request of a broker does to what is durable, lifted from
`Topic.Durable`: all but an append are calm. -/

section Requests

open Topic (Calm Takes Durable)

variable {s : Store} {v : Volume} {records : String → ℕ → List Record} {synced : String → ℕ → ℕ}

/-- **Opening every topic of a list** is calm, and leaves each open that it
was made to open. -/
theorem createAll_calm (names : List String) {t : Topic} {v : Volume}
    (h : t.Durable v.root records synced) :
    Calm records synced t v (Store.createAll names t v).2.1 (Store.createAll names t v).2.2
      ∧ ((Store.createAll names t v).1 = .ok () → ∀ name ∈ names,
        ((Store.createAll names t v).2.1.opened.lookup name).isSome) := by
  induction names generalizing t v with
  | nil => exact ⟨h.calm, fun _ _ hn => by cases hn⟩
  | cons name names ih =>
    obtain ⟨hcalm, hopen⟩ := Topic.create_calm h name none
    unfold Store.createAll
    cases hcreate : t.create v name none with
    | mk res rest =>
    obtain ⟨t₁, v₁⟩ := rest
    rw [hcreate] at hcalm hopen
    cases res with
    | error e => exact ⟨hcalm, fun herr => by cases herr⟩
    | ok n =>
      obtain ⟨hcalm', hopen'⟩ := ih hcalm.durable
      refine ⟨hcalm.trans hcalm', fun hok name' hn => ?_⟩
      rcases List.mem_cons.mp hn with rfl | hn
      · exact hcalm'.stays (hopen rfl)
      · exact hopen' hok name' hn

/-- **Opening a store** makes nothing durable; every topic is open after it. -/
theorem open_calm (h : s.topic.Durable v.root records synced)
    (hnames : ∀ name, (v.root.metaFile name).isSome → validateName name = .ok ()) :
    Calm records synced s.topic v (s.open v).2.1.topic (s.open v).2.2
      ∧ ((s.open v).1 = .ok () → (s.open v).2.1.topic.AllOpen (s.open v).2.2.root) := by
  obtain ⟨hcalm, hopen⟩ := createAll_calm (Topic.names v) h
  unfold Store.open
  cases hall : Store.createAll (Topic.names v) s.topic v with
  | mk res rest =>
  obtain ⟨t', v'⟩ := rest
  rw [hall] at hcalm hopen
  simp only [hall]
  cases res with
  | error e => exact ⟨hcalm, fun herr => by cases herr⟩
  | ok u =>
    simp only
    have htopic : ∀ s' : Store, s'.topic = t' → Calm records synced s.topic v s'.topic v'
        ∧ s'.topic.AllOpen v'.root := by
      rintro s' rfl
      refine ⟨hcalm, fun name hsome => ?_⟩
      rcases hcalm.metaFile name with hsame | hthere
      · rw [hsame] at hsome
        exact hopen rfl name ((Store.mem_names_iff v name).mpr ⟨hnames name hsome, hsome⟩)
      · exact hthere
    refine (htopic _ ?_).imp id fun hall _ => hall
    split_ifs <;> rfl

/-- A read does to the registry what asking for the topic does. What it reads
is no matter here. -/
theorem read_snd (s : Store) (v : Volume) (request : ConsumeRequest) (offset limit : ℤ) :
    (Handler.read s v request offset limit).2.1.topic = (s.topic.existing v request.topic).2.1
      ∧ (Handler.read s v request offset limit).2.2 = (s.topic.existing v request.topic).2.2 := by
  have hread : (s.read v request.topic offset request.partition limit).2.1.topic
        = (s.topic.existing v request.topic).2.1
      ∧ (s.read v request.topic offset request.partition limit).2.2
        = (s.topic.existing v request.topic).2.2 := ⟨rfl, rfl⟩
  unfold Handler.read
  cases hgo : s.read v request.topic offset request.partition limit with
  | mk res rest =>
  rw [hgo] at hread
  cases res with
  | ok rs => exact hread
  | error e => cases e <;> exact hread

/-- So does a request for metadata. -/
theorem metadata_snd (s : Store) (v : Volume) (topic : String) :
    (Handler.metadata s v topic).2.1.topic = (s.topic.existing v topic).2.1
      ∧ (Handler.metadata s v topic).2.2 = (s.topic.existing v topic).2.2 := by
  have hcount : (s.partitionsOf v topic).2.1.topic = (s.topic.existing v topic).2.1
      ∧ (s.partitionsOf v topic).2.2 = (s.topic.existing v topic).2.2 := ⟨rfl, rfl⟩
  unfold Handler.metadata
  cases hgo : s.partitionsOf v topic with
  | mk res rest =>
  rw [hgo] at hcount
  cases res with
  | ok n => exact hcount
  | error e => cases e <;> exact hcount

/-- A refusal that names the owner is calm; it takes a turn at most. -/
theorem redirect_calm (h : s.topic.Durable v.root records synced) (topic : String)
    (partition : Option ℤ) (key : Option Bytes) :
    Calm records synced s.topic v (Handler.redirect s v topic partition key).2.1.topic
      (Handler.redirect s v topic partition key).2.2 := by
  unfold Handler.redirect
  cases partition with
  | some p => exact h.calm
  | none =>
    have hcalm : Calm records synced s.topic v (s.route v topic key).2.1.topic
      (s.route v topic key).2.2 := Topic.route_calm h topic key
    simp only
    cases hroute : s.route v topic key with
    | mk res rest =>
    rw [hroute] at hcalm
    cases res <;> exact hcalm

/-- **A produce**: it is refused and adds no record, or it is answered for a
record that is there. -/
theorem append_durable (h : s.topic.Durable v.root records synced) (request : ProduceRequest)
    (clock : ℤ) (elapsed : ℚ) :
    let out := Handler.append s v request clock elapsed
    (∃ failure, out.1 = .error failure ∧ Calm records synced s.topic v out.2.1.topic out.2.2)
      ∨ ∃ p : ℕ,
          let r : Record := ⟨(records request.topic p).length, request.timestamp.getD clock,
            request.key, request.value⟩
          out.1 = .ok ((p : ℤ), r.offset)
            ∧ ∃ n, Takes records synced s.topic v request.topic p r n out.2.1.topic out.2.2 := by
  have hdur := Topic.append_durable h request.topic request.key request.value request.timestamp
    request.partition clock elapsed
  unfold Handler.append Store.append
  cases happ : s.topic.append v request.topic request.key request.value request.timestamp
    request.partition clock elapsed with
  | mk res rest =>
  obtain ⟨t', v'⟩ := rest
  rw [happ] at hdur
  rcases hdur with ⟨e, rfl, hcalm⟩ | ⟨p, rfl, -, htakes⟩
  · refine Or.inl ?_
    have hcalm' : Calm records synced s.topic v ({ s with topic := t' } : Store).topic v' := hcalm
    cases e with
    | partitionNotLocal msg =>
      exact ⟨_, rfl, hcalm'.trans (redirect_calm hcalm'.durable request.topic request.partition
        request.key)⟩
    | _ => exact ⟨_, rfl, hcalm'⟩
  · exact Or.inr ⟨p, rfl, htakes⟩

/-- **A request**: nobody is told of a record and none is added, or a record is
added and its producer is told where it is. -/
theorem exec_durable (h : s.topic.Durable v.root records synced) (request : Node.Request) :
    let out := request.exec s v
    (toldOf (.ask request) out.1 = none ∧ Calm records synced s.topic v out.2.1.topic out.2.2)
      ∨ ∃ name p r n, toldOf (.ask request) out.1 = some (name, p, r)
          ∧ r.offset = (records name p).length
          ∧ Takes records synced s.topic v name p r n out.2.1.topic out.2.2 := by
  cases request with
  | create name partitions => exact Or.inl ⟨rfl, (Topic.create_calm h name partitions).1⟩
  | partitionsOf name => exact Or.inl ⟨rfl, Topic.existing_calm h name⟩
  | route name key => exact Or.inl ⟨rfl, Topic.route_calm h name key⟩
  | produce request clock elapsed =>
    show let out := Handler.produce s v request clock elapsed; _
    unfold Handler.produce
    rcases append_durable h request clock elapsed with ⟨failure, herr, hcalm⟩ | ⟨p, hok, n, htakes⟩
    · exact Or.inl ⟨by simp only [Node.Request.exec, Handler.produce, herr]; rfl, hcalm⟩
    · exact Or.inr ⟨request.topic, p, _, n,
        by simp only [Node.Request.exec, Handler.produce, hok]; rfl, rfl, htakes⟩
  | read request offset limit =>
    obtain ⟨htopic, hvolume⟩ := read_snd s v request offset limit
    refine Or.inl ⟨rfl, ?_⟩
    show Calm records synced s.topic v (Handler.read s v request offset limit).2.1.topic
      (Handler.read s v request offset limit).2.2
    rw [htopic, hvolume]
    exact Topic.existing_calm h request.topic
  | metadata topic =>
    obtain ⟨htopic, hvolume⟩ := metadata_snd s v topic
    refine Or.inl ⟨rfl, ?_⟩
    show Calm records synced s.topic v (Handler.metadata s v topic).2.1.topic
      (Handler.metadata s v topic).2.2
    rw [htopic, hvolume]
    exact Topic.existing_calm h topic

end Requests

/-! ## What a failure leaves

A failure cuts every file somewhere behind what was synced. What is left of a
list of records is a front of it, with those that were durable in it. -/

omit [Crc32] in
/-- The records that are lost are among those that were not durable. -/
theorem length_filter_add {l : List Record} {here stake : Record → Bool}
    (h : ∀ r ∈ l, here r = false → stake r = true) :
    (l.length - (l.filter here).length) + (l.filter here).countP stake = l.countP stake := by
  induction l with
  | nil => rfl
  | cons r l ih =>
    have ih := ih fun r' hr' => h r' (List.mem_cons_of_mem _ hr')
    have hle := List.length_filter_le here l
    cases hhere : here r with
    | true =>
      rw [List.filter_cons_of_pos hhere, List.countP_cons, List.countP_cons, List.length_cons,
        List.length_cons]
      omega
    | false =>
      rw [List.filter_cons_of_neg (by simp [hhere]),
        List.countP_cons_of_pos (h r List.mem_cons_self hhere), List.length_cons]
      omega

/-- **A failure leaves the first so many records** of every partition, those
that are durable among them. -/
theorem kept_of_crash {root left : Root} {records : String → ℕ → List Record}
    {synced : String → ℕ → ℕ} (h : root.Kept records synced) (hcrash : root.Crash left) :
    ∃ m : String → ℕ → ℕ, left.Kept (fun name p => (records name p).take (m name p)) synced := by
  have hone : ∀ name p, ∃ m, Keeps (left.dirOf name p).logs.view ((records name p).take m)
      (synced name p) := by
    intro name p
    have hkeeps := h name p
    have hdir := hcrash.2 name p
    unfold Root.dirOf at hkeeps ⊢
    generalize root.part name p = o at hkeeps hdir
    generalize left.part name p = o' at hdir ⊢
    cases hdir with
    | none => exact ⟨(records name p).length, by rwa [List.take_length]⟩
    | some hdir =>
      obtain ⟨m, -, hm⟩ := Keeps.crash hkeeps hdir
      exact ⟨m, hm⟩
  choose m hm using hone
  exact ⟨m, hm⟩

/-- What was durable is where it was, in the front that is left. -/
theorem inPlace_of_lt {left : Root} {records records' : String → ℕ → List Record}
    {m synced : String → ℕ → ℕ} (hkept : ∀ name p, records name p <+: records' name p)
    (h : left.Kept (fun name p => (records' name p).take (m name p)) synced) {name : String} {p : ℕ}
    {r : Record} (hr : (records name p)[r.offset.toNat]? = some r)
    (hlt : r.offset.toNat < synced name p) : inPlace left name p r = true := by
  have hlen := (h name p).synced_le_length
  rw [List.length_take] at hlen
  unfold inPlace
  rw [h.records_eq, decide_eq_true_iff, List.getElem?_take_of_lt (by omega)]
  obtain ⟨more, hmore⟩ := hkept name p
  obtain ⟨hin, -⟩ := List.getElem?_eq_some_iff.mp hr
  rw [← hmore, List.getElem?_append_left hin]
  exact hr

/-! ## The invariant

Two numbers for each partition: how many records are durable, and how many of
those told of may have been left behind, not durable, by earlier lives. -/

/-- How many of the records told of are not durable: those a failure at this
moment may take. -/
def atStake (synced : ℕ) (told : List Record) : ℕ := told.countP fun r => synced ≤ r.offset.toNat

/-- How many records of a partition wait for a sync, by the count of the life
that goes on. -/
def waiting (n : Node) (name : String) (p : ℕ) : ℕ :=
  match n.store with
  | none => 0
  | some s => s.topic.unsynced name p

/-- How many can, in the life that goes on: one less than the policy has,
where it owns the partition. -/
def allowed (k : ℤ) (n : Node) (name : String) (p : ℕ) : ℕ :=
  match n.store with
  | none => 0
  | some s => (k - 1).toNat * owned s.ring name p

/-- **The invariant**: of the records told of, no more are lost or at stake
than came from earlier lives and wait for a sync in this one. -/
structure Holds (k : ℤ) (s : State) (synced before : String → ℕ → ℕ) : Prop where
  good : ∃ c, s.node.Good c
  kept : s.node.root.Kept s.node.root.records synced
  told : ∀ {name p r}, r ∈ s.told name p →
    (s.node.root.records name p)[r.offset.toNat]? = some r
  lost : ∀ name p, s.lost name p ≤ before name p
  stake : ∀ name p, s.lost name p + atStake (synced name p) (s.told name p)
    ≤ before name p + waiting s.node name p
  starts : ∀ name p, before name p + allowed k s.node name p
    ≤ (k - 1).toNat * s.starts name p
  up : ∀ {store}, s.node.store = some store →
    store.topic.Durable s.node.root s.node.root.records synced
      ∧ store.topic.AllOpen s.node.root ∧ ∃ j ≤ k, store.topic.syncPolicy.records = some j

/-- At first nothing is told of, and nothing at stake. -/
theorem holds_empty (k : ℤ) : Holds k State.empty (fun _ _ => 0) fun _ _ => 0 where
  good := ⟨.empty, stores_empty⟩
  kept _ _ := keeps_empty
  told hr := by cases hr
  lost _ _ := le_rfl
  stake _ _ := le_rfl
  starts _ _ := Nat.zero_le _
  up h := by cases h

/-- A partition that another broker owns is not open, so nothing of it waits. -/
theorem unsynced_of_not_owns {t : Topic} {root : Root} {records : String → ℕ → List Record}
    {synced : String → ℕ → ℕ} (h : t.Durable root records synced) {name : String} {p : ℕ}
    (ho : t.owns name p = false) : t.unsynced name p = 0 := by
  unfold Topic.unsynced
  cases hlook : t.opened.lookup name with
  | none => rfl
  | some topic =>
    rw [Option.bind_some]
    cases hentry : topic.stored.lookup p with
    | none => rfl
    | some entry =>
      rw [(h.opened hlook hentry).1] at ho
      cases ho

namespace Holds

variable {k : ℤ} {s : State} {synced before : String → ℕ → ℕ}

/-- No more records wait than can, since the registry counts them against its
policy. -/
theorem waiting_le (h : Holds k s synced before) (name : String) (p : ℕ) :
    waiting s.node name p ≤ allowed k s.node name p := by
  obtain ⟨c, hgood⟩ := h.good
  unfold waiting allowed
  cases hstore : s.node.store with
  | none => exact le_rfl
  | some store =>
    obtain ⟨hdur, -, j, hj, hpolicy⟩ := h.up hstore
    have howns := (hgood.rep hstore).owns
    simp only
    unfold owned
    split_ifs with ho
    · have := hdur.waiting hpolicy name p
      omega
    · rw [unsynced_of_not_owns hdur (by rw [howns]; simpa using ho)]
      exact Nat.zero_le _

/-- **No process runs any more**: what waited is from an earlier life now. -/
theorem down (h : Holds k s synced before) (name : String) (p : ℕ) :
    before name p + waiting s.node name p ≤ (k - 1).toNat * s.starts name p :=
  (Nat.add_le_add_left (h.waiting_le name p) _).trans (h.starts name p)

end Holds

/-! ## A store just made

The start of a broker in two steps: a store with nothing open, which is then
opened. -/

omit [Crc32] in
/-- The store that a broker starts with, before it is opened. -/
def freshStore (ring : Ring) (settings : Settings) : Store where
  ring := ring
  topic := ⟨settings.path, settings.partitions, settings.syncPolicy, settings.maxSegmentBytes,
    ring.ownsPartition, ⟨0⟩, ∅⟩
  tail := .init
  ready := false
  allowOrphans := settings.allowOrphans
  orphans := []

omit [Crc32] in
/-- The settings are such that the store is made. -/
theorem init_eq (ring : Ring) (settings : Settings) :
    Store.init settings.path settings.partitions settings.syncPolicy settings.maxSegmentBytes ring
      settings.allowOrphans = .ok (freshStore ring settings) := by
  have hpos := settings.partitions_pos
  unfold Store.init Topic.init raiseIf
  rw [if_neg (by omega)]
  rfl

/-- Starting a broker is making that store and opening it. -/
theorem step_start (root : Root) (ring : Ring) (settings : Settings) :
    Node.machine.step ⟨none, root⟩ (.start ring settings)
      = (.done ((freshStore ring settings).open (.of root)).1,
        ⟨some ((freshStore ring settings).open (.of root)).2.1,
          ((freshStore ring settings).open (.of root)).2.2.root⟩) := by
  simp only [Node.machine, init_eq]

/-- The states in between are those of the opening. -/
theorem through_start (root : Root) (ring : Ring) (settings : Settings) :
    (⟨none, root⟩ : Node).through (.start ring settings)
      = ((freshStore ring settings).open (.of root)).2.2.states := by
  simp only [Node.through, init_eq]

/-- It has nothing open, so whatever is durable on disk is all there is to
say. -/
theorem durable_freshStore {root : Root} {records : String → ℕ → List Record}
    {synced : String → ℕ → ℕ} (h : root.Kept records synced) (ring : Ring) (settings : Settings) :
    (freshStore ring settings).topic.Durable root records synced :=
  ⟨h, fun hlook => (by cases hlook), fun _ _ _ => Nat.zero_le _, settings.maxSegmentBytes.2⟩

omit [Crc32] in
/-- And nothing waits: it counts from zero, whatever was left unsynced before. -/
theorem unsynced_freshStore (ring : Ring) (settings : Settings) (name : String) (p : ℕ) :
    (freshStore ring settings).topic.unsynced name p = 0 := rfl

omit [Crc32] in
/-- Nobody is told of anything where nobody was asked. -/
theorem toldOf_idle (act : Node.Act) : toldOf act .idle = none := by
  cases act with
  | ask request => cases request <;> rfl
  | _ => rfl

/-! ## In the middle of a step

The power may fail at any state that a step passes through. Each keeps the
records that were there before the step, or one more. -/

/-- **The states a step passes through**: each keeps the records that were
there, and what was durable is. -/
theorem Holds.mid {k : ℤ} {s : State} {synced before : String → ℕ → ℕ}
    (h : Holds k s synced before) {act : Node.Act} {mid : Root} (hmid : mid ∈ s.node.through act) :
    ∃ records, (∀ name p, s.node.root.records name p <+: records name p)
      ∧ mid.Kept records synced := by
  obtain ⟨P, hP⟩ : ∃ P : Root → Prop, P = fun root => ∃ records,
      (∀ name p, s.node.root.records name p <+: records name p) ∧ root.Kept records synced :=
        ⟨_, rfl⟩
  have hsame : ∀ root, Root.Kept s.node.root.records synced root → P root := fun root hroot =>
    hP ▸ ⟨_, fun _ _ => List.prefix_rfl, hroot⟩
  have hof : (Volume.of s.node.root).Always P := ⟨hsame _ h.kept, fun r hr => by cases hr⟩
  suffices hall : P mid by rwa [hP] at hall
  obtain ⟨⟨store, root⟩, told, lost, starts⟩ := s
  have hnow : ∀ {mid : Root}, mid ∈ [root] → P mid := fun hmid => by
    rw [List.mem_singleton.mp hmid]
    exact hsame _ h.kept
  cases act with
  | start ring settings =>
    cases store with
    | some store => exact hnow hmid
    | none =>
      rw [through_start] at hmid
      obtain ⟨c, hgood⟩ := h.good
      obtain ⟨hcalm, -⟩ := open_calm (v := .of root) (durable_freshStore h.kept ring settings)
        fun name hsome => by
          have hsome : (root.metaFile name).isSome := hsome
          rw [hgood.stores.metaFile, Option.isSome_map] at hsome
          obtain ⟨n, hn⟩ := Option.isSome_iff_exists.mp hsome
          exact (hgood.stores.names hn).1
      exact (hcalm.always hsame hof).of_mem_states hmid
  | ask request =>
    cases store with
    | none => exact hnow hmid
    | some store =>
      have hdur : store.topic.Durable (Volume.of root).root root.records synced := (h.up rfl).1
      rcases exec_durable hdur request with ⟨-, hcalm⟩ | ⟨name, p, r, n, -, -, htakes⟩
      · exact (hcalm.always hsame hof).of_mem_states hmid
      · refine (htakes.always hsame (fun root' hroot' => hP ▸ ⟨_, fun name' p' => ?_, hroot'⟩)
          hof).of_mem_states hmid
        unfold setAt
        split_ifs with hc
        · rw [hc.1, hc.2]
          exact List.prefix_append ..
        · exact List.prefix_rfl
  | close =>
    cases store with
    | none => exact hnow hmid
    | some store =>
      have hdur : store.topic.Durable (Volume.of root).root root.records synced := (h.up rfl).1
      obtain ⟨v', synced', hclose, -, -, -, halways⟩ := Topic.close_durable hdur
      have hvolume : (store.close (.of root)).2.2 = v' := by
        show (store.topic.close (.of root)).2.2 = v'
        rw [hclose]
      have hmid : mid ∈ (store.close (.of root)).2.2.states := hmid
      rw [hvolume] at hmid
      exact (halways hsame hof).of_mem_states hmid
  | kill => exact hnow hmid

/-- The same state is one that a store opens on if its `topic.json`s are
whole; so the run can go on after the failure. -/
theorem between_of_mem_through {n : Node} {c : Catalog} (h : n.Good c) {act : Node.Act} {mid : Root}
    (hmid : mid ∈ n.through act) : Outage.Between [] mid := by
  have hroot : Outage.Between [] n.root := Outage.between_of_stores h.stores fun e he => by cases he
  have hof : (Volume.of n.root).Always (Outage.Between []) := ⟨hroot, fun r hr => by cases hr⟩
  obtain ⟨store, root⟩ := n
  have hnow : ∀ {mid : Root}, mid ∈ [root] → Outage.Between [] mid := fun hmid => by
    rw [List.mem_singleton.mp hmid]
    exact hroot
  cases act with
  | start ring settings =>
    cases store with
    | some store => exact hnow hmid
    | none =>
      rw [through_start] at hmid
      obtain ⟨t, hinit, hrep, -⟩ := Store.init_rep h.stores settings.path settings.syncPolicy ring
        settings.allowOrphans settings.partitions_pos settings.maxSegmentBytes.2
      rw [init_eq] at hinit
      obtain ⟨s', v', c', hopen, -, -, -, -, -, -, -, -, -, halways⟩ :=
        Store.open_spec hrep rfl
      have hvolume : ((freshStore ring settings).open (.of root)).2.2 = v' := by
        rw [Except.ok.inj hinit, hopen]
      rw [hvolume] at hmid
      exact (halways Outage.stable_between hof).of_mem_states hmid
  | ask request =>
    cases store with
    | none => exact hnow hmid
    | some store =>
      obtain ⟨answer, c', hf, -⟩ := Node.exec_spec (h.rep rfl) request
      exact (hf.always Outage.stable_between hof).of_mem_states hmid
  | close =>
    cases store with
    | none => exact hnow hmid
    | some store =>
      obtain ⟨s', v', hclose, -, halways⟩ := Store.close_spec (h.rep rfl)
      have hmid : mid ∈ (store.close (.of root)).2.2.states := hmid
      have hclose : store.close (.of root) = (.ok (), s', v') := hclose
      rw [hclose] at hmid
      exact (halways Outage.stable_between hof).of_mem_states hmid
  | kill => exact hnow hmid

/-! ## The steps keep it

One lemma for each kind of step. The two numbers are named anew each time. -/

omit [Crc32] in
/-- A record told of is not at stake once every record is durable. -/
theorem atStake_of_forall {n : ℕ} {told : List Record} (h : ∀ r ∈ told, r.offset.toNat < n) :
    atStake n told = 0 := by
  refine List.countP_eq_zero.mpr fun r hr => ?_
  have := h r hr
  simpa using this

omit [Crc32] in
/-- The more is durable, the less is at stake. -/
theorem atStake_mono {n n' : ℕ} (h : n ≤ n') (told : List Record) :
    atStake n' told ≤ atStake n told := by
  refine List.countP_mono_left fun r _ hr => ?_
  simp only [decide_eq_true_eq] at hr ⊢
  omega

namespace Holds

variable {k : ℤ} {s : State} {synced before : String → ℕ → ℕ}

/-- The offsets of the records told of are below the number of records that
there are. -/
theorem offset_lt (h : Holds k s synced before) {name : String} {p : ℕ} {r : Record}
    (hr : r ∈ s.told name p) : r.offset.toNat < (s.node.root.records name p).length :=
  (List.getElem?_eq_some_iff.mp (h.told hr)).1

/-- **Starting a broker** puts as many records at stake as it may leave without
a sync. -/
theorem start (h : Holds k s synced before) (ring : Ring) {settings : Settings} {j : ℤ} (hj : j ≤ k)
    (hpolicy : settings.syncPolicy.records = some j) :
    ∃ synced' before', Holds k (s.after (.start ring settings)) synced' before' := by
  obtain ⟨⟨store, root⟩, told, lost, starts⟩ := s
  cases store with
  | some store => exact ⟨synced, before, h⟩
  | none =>
    obtain ⟨c, hgood⟩ := h.good
    obtain ⟨hcalm, hopen⟩ := open_calm (v := .of root) (durable_freshStore h.kept ring settings)
      fun name hsome => by
        have hsome : (root.metaFile name).isSome := hsome
        rw [hgood.stores.metaFile, Option.isSome_map] at hsome
        obtain ⟨n, hn⟩ := Option.isSome_iff_exists.mp hsome
        exact (hgood.stores.names hn).1
    obtain ⟨store', v', c', hstep, hgood', ⟨hring, -⟩, -⟩ :=
      Node.start_spec hgood.stores ring settings
    rw [step_start] at hstep
    obtain ⟨hres, hnode⟩ := Prod.mk.inj hstep
    obtain ⟨hstore, hvolume⟩ := Node.mk.inj hnode
    have hrecords : v'.root.records = root.records := by
      rw [← hvolume]
      exact hcalm.durable.kept.records_eq
    have hafter : (State.after ⟨⟨none, root⟩, told, lost, starts⟩ (.start ring settings)).node
        = ⟨some store', v'.root⟩ := by
      show (Node.machine.step ⟨none, root⟩ (.start ring settings)).2 = _
      rw [step_start]
      exact hnode
    have htopic : store'.topic = ((freshStore ring settings).open (.of root)).2.1.topic := by
      rw [Option.some.inj hstore]
    have hwaiting : ∀ name p, store'.topic.unsynced name p = 0 := fun name p => by
      rw [htopic, hcalm.unsynced, unsynced_freshStore]
    have hdur : store'.topic.Durable v'.root root.records synced := by
      rw [htopic, ← hvolume]
      exact hcalm.durable
    refine ⟨synced, fun name p => (k - 1).toNat * starts name p, ?_⟩
    refine ⟨⟨c', by rw [hafter]; exact hgood'⟩, ?_, fun {name p r} hr => ?_, fun name p => ?_,
      fun name p => ?_, fun name p => ?_, fun {store₁} hstore₁ => ?_⟩
    · rw [hafter, hrecords]
      exact hdur.kept
    · rw [hafter, hrecords]
      exact h.told hr
    · exact (h.lost name p).trans ((Nat.le_add_right _ _).trans (h.starts name p))
    · have hstake := (h.stake name p).trans (h.down name p)
      rw [hafter]
      exact hstake.trans (Nat.le_add_right _ _)
    · rw [hafter]
      show (k - 1).toNat * starts name p + (k - 1).toNat * owned store'.ring name p
        ≤ (k - 1).toNat * (starts name p + owned ring name p)
      rw [hring, Nat.mul_add]
    · rw [hafter] at hstore₁ ⊢
      cases hstore₁
      rw [hrecords]
      refine ⟨hdur, ?_, j, hj, ?_⟩
      · rw [htopic, ← hvolume]
        exact hopen (Node.Answer.done.inj hres)
      · rw [htopic, hcalm.syncPolicy]
        exact hpolicy

/-- **Asking a broker**: a record that is told of waits for a sync, or none
does any more. -/
theorem ask (h : Holds k s synced before) (request : Node.Request) :
    ∃ synced' before', Holds k (s.after (.ask request)) synced' before' := by
  obtain ⟨⟨store, root⟩, told, lost, starts⟩ := s
  cases store with
  | none =>
    refine ⟨synced, before, h.good, h.kept, ?_, h.lost, ?_, h.starts, h.up⟩
    · simp only [State.after, Node.machine, toldOf_idle]
      exact h.told
    · simp only [State.after, Node.machine, toldOf_idle]
      exact h.stake
  | some store =>
    obtain ⟨c, hgood⟩ := h.good
    obtain ⟨hdur, hall, j, hj, hpolicy⟩ := h.up rfl
    obtain ⟨s', v', answer, c', hstep, hgood', -, hring, -⟩ := Node.ask_spec hgood request
    have hnode : (State.after ⟨⟨some store, root⟩, told, lost, starts⟩ (.ask request)).node
        = ⟨some s', v'.root⟩ := by
      show (Node.machine.step ⟨some store, root⟩ (.ask request)).2 = _
      rw [hstep]
    obtain ⟨hstore, hvolume⟩ := Node.mk.inj (show (⟨some (request.exec store (.of root)).2.1,
      (request.exec store (.of root)).2.2.root⟩ : Node) = ⟨some s', v'.root⟩ from hnode)
    have htopic : (request.exec store (.of root)).2.1.topic = s'.topic := by
      rw [Option.some.inj hstore]
    have hdur : store.topic.Durable (Volume.of root).root root.records synced := hdur
    have hanswer : (Node.machine.step ⟨some store, root⟩ (.ask request)).1
        = (request.exec store (.of root)).1 := rfl
    have hallowed : ∀ name p, allowed k ⟨some s', v'.root⟩ name p
        = allowed k ⟨some store, root⟩ name p := fun name p => by
      show (k - 1).toNat * owned s'.ring name p = (k - 1).toNat * owned store.ring name p
      rw [hring]
    rcases exec_durable hdur request with ⟨hnone, hcalm⟩ | ⟨name, p, r, n, htold, hoffset, htakes⟩
    · -- nobody is told of anything
      rw [htopic] at hcalm
      have hall' := hcalm.allOpen hall
      have hdur' := hcalm.durable
      rw [hvolume] at hall' hdur'
      have hrecords : v'.root.records = root.records := hdur'.kept.records_eq
      have hsame : (State.after ⟨⟨some store, root⟩, told, lost, starts⟩ (.ask request)).told
          = told :=
        State.told_of_none (by rw [hanswer, hnone])
      refine ⟨synced, before, ⟨c', by rw [hnode]; exact hgood'⟩, ?_, fun {name p r} hr => ?_,
        h.lost,
        fun name p => ?_, fun name p => ?_, fun {store₁} hstore₁ => ?_⟩
      · rw [hnode, hrecords]
        exact hdur'.kept
      · rw [hsame] at hr
        rw [hnode, hrecords]
        exact h.told hr
      · rw [hsame, hnode]
        have hwaits : waiting ⟨some s', v'.root⟩ name p = waiting ⟨some store, root⟩ name p := by
          show s'.topic.unsynced name p = store.topic.unsynced name p
          rw [hcalm.unsynced]
        rw [hwaits]
        exact h.stake name p
      · rw [hnode, hallowed]
        exact h.starts name p
      · rw [hnode] at hstore₁ ⊢
        cases hstore₁
        rw [hrecords]
        exact ⟨hdur', hall', j, hj, by rw [hcalm.syncPolicy, hpolicy]⟩
    · -- one record more
      rw [htopic] at htakes
      have hall' := htakes.allOpen hall
      have hdur' := htakes.durable
      rw [hvolume] at hall' hdur'
      have hrecords := hdur'.kept.records_eq
      have hmore : (State.after ⟨⟨some store, root⟩, told, lost, starts⟩ (.ask request)).told
          = setAt told name p (told name p ++ [r]) :=
        State.told_of_some (by rw [hanswer, htold])
      have hpolicy' : s'.topic.syncPolicy = store.topic.syncPolicy := by rw [htakes.same]
      refine ⟨setAt synced name p n, before, ⟨c', by rw [hnode]; exact hgood'⟩, ?_,
        fun {name' p' r'} hr => ?_, h.lost, fun name' p' => ?_, fun name' p' => ?_,
        fun {store₁} hstore₁ => ?_⟩
      · rw [hnode, hrecords]
        exact hdur'.kept
      · rw [hmore] at hr
        rw [hnode, hrecords]
        unfold setAt at hr ⊢
        split_ifs at hr ⊢ with hc
        · rcases List.mem_append.mp hr with hr | hr
          · rw [List.getElem?_append_left (h.offset_lt hr)]
            exact h.told hr
          · rw [List.mem_singleton.mp hr, hoffset, Int.toNat_natCast, List.getElem?_concat_length]
        · exact h.told hr
      · rw [hmore, hnode]
        by_cases hc : name' = name ∧ p' = p
        · obtain ⟨rfl, rfl⟩ := hc
          rw [setAt_self, setAt_self]
          show lost name' p' + atStake n (told name' p' ++ [r])
            ≤ before name' p' + s'.topic.unsynced name' p'
          have hstake := h.stake name' p'
          have hlost := h.lost name' p'
          rcases htakes.waits with ⟨rfl, hwaits⟩ | ⟨rfl, hwaits⟩
          · rw [hwaits, setAt_self]
            have hone : atStake (synced name' p') (told name' p' ++ [r])
                ≤ atStake (synced name' p') (told name' p') + 1 := by
              unfold atStake
              rw [List.countP_append]
              exact Nat.add_le_add_left List.countP_le_length _
            have hstake : lost name' p' + atStake (synced name' p') (told name' p')
              ≤ before name' p' + store.topic.unsynced name' p' := hstake
            omega
          · rw [hwaits, setAt_self, atStake_of_forall fun r' hr' => ?_]
            · exact hlost
            · rcases List.mem_append.mp hr' with hr' | hr'
              · exact (h.offset_lt hr').trans (Nat.lt_succ_self _)
              · rw [List.mem_singleton.mp hr', hoffset, Int.toNat_natCast]
                exact Nat.lt_succ_self _
        · rw [setAt_of_ne _ _ hc, setAt_of_ne _ _ hc]
          have hwaits : waiting ⟨some s', v'.root⟩ name' p'
              = waiting ⟨some store, root⟩ name' p' := by
            show s'.topic.unsynced name' p' = store.topic.unsynced name' p'
            rcases htakes.waits with ⟨-, hwaits⟩ | ⟨-, hwaits⟩
            · rw [hwaits, setAt_of_ne _ _ hc]
            · rw [hwaits, setAt_of_ne _ _ hc]
          rw [hwaits]
          exact h.stake name' p'
      · rw [hnode, hallowed]
        exact h.starts name' p'
      · rw [hnode] at hstore₁ ⊢
        cases hstore₁
        rw [hrecords]
        exact ⟨hdur', hall', j, hj, by rw [hpolicy', hpolicy]⟩

/-- **Closing a broker** makes durable what it owns. Partitions of others are
as they were, with what earlier lives left of them. -/
theorem close (h : Holds k s synced before) :
    ∃ synced' before', Holds k (s.after .close) synced' before' := by
  obtain ⟨⟨store, root⟩, told, lost, starts⟩ := s
  cases store with
  | none => exact ⟨synced, before, h⟩
  | some store =>
    obtain ⟨c, hgood⟩ := h.good
    obtain ⟨hdur, hall, -⟩ := h.up rfl
    have howns := hgood.owns
    have howns : store.topic.owns = store.ring.ownsPartition := howns
    have hdur : store.topic.Durable (Volume.of root).root root.records synced := hdur
    obtain ⟨v', synced', hclose, hkept, hmore, hclosed, -⟩ := Topic.close_durable hdur
    obtain ⟨v'', hstep, hgood'⟩ := Node.close_spec hgood
    have hnode : (State.after ⟨⟨some store, root⟩, told, lost, starts⟩ .close).node
        = ⟨none, v'.root⟩ := by
      show (⟨none, (store.topic.close (.of root)).2.2.root⟩ : Node) = _
      rw [hclose]
    have hgood'' : (⟨none, v'.root⟩ : Node).Good c := by
      rw [← hnode]
      show (Node.machine.step ⟨some store, root⟩ .close).2.Good c
      rw [hstep]
      exact hgood'
    have hrecords : v'.root.records = root.records := hkept.records_eq
    -- what this broker owns is open, and so is durable now
    have hsafe : ∀ name p, store.ring.ownsPartition name p = true →
        atStake (synced' name p) (told name p) = 0 := by
      intro name p ho
      refine atStake_of_forall fun r hr => ?_
      have hlt : r.offset.toNat < (root.records name p).length := h.offset_lt hr
      suffices hlen : synced' name p = (root.records name p).length by rwa [hlen]
      have hthere : (root.part name p).isSome := by
        unfold Root.records at hlt
        cases hd : root.part name p with
        | none => rw [hd] at hlt; exact absurd hlt (Nat.not_lt_zero _)
        | some d => rfl
      rw [hgood.stores.isSome_part] at hthere
      obtain ⟨rs, hrs⟩ := Option.isSome_iff_exists.mp hthere
      obtain ⟨n, hn, hp⟩ := hgood.stores.counted hrs
      have hmeta : (root.metaFile name).isSome := by
        have hmeta := hgood.stores.metaFile name
        rw [hn] at hmeta
        exact Option.isSome_of_eq_some hmeta
      obtain ⟨topic, hlook⟩ := Option.isSome_iff_exists.mp (hall name hmeta)
      have hopens := (hgood.rep rfl).topic.opened hlook
      have hcount := hopens.count
      rw [hn] at hcount
      refine hclosed hlook (hopens.isSome p ?_ (by rw [howns]; exact ho))
      rw [← Option.some.inj hcount]
      exact hp
    refine ⟨synced', fun name p => if store.ring.ownsPartition name p then 0 else before name p,
      ⟨c, by rw [hnode]; exact hgood''⟩, ?_, fun {name p r} hr => ?_, fun name p => ?_,
      fun name p => ?_, fun name p => ?_, fun hstore₁ => ?_⟩
    · rw [hnode, hrecords]
      exact hkept
    · rw [hnode, hrecords]
      exact h.told hr
    · show (if store.ring.ownsPartition name p then 0 else lost name p) ≤ _
      split_ifs
      · exact le_rfl
      · exact h.lost name p
    · rw [hnode]
      show (if store.ring.ownsPartition name p then 0 else lost name p)
        + atStake (synced' name p) (told name p)
          ≤ (if store.ring.ownsPartition name p then 0 else before name p) + 0
      split_ifs with ho
      · rw [hsafe name p ho]
      · have hstake := h.stake name p
        have hzero : waiting ⟨some store, root⟩ name p = 0 :=
          unsynced_of_not_owns hdur (by rw [howns]; simpa using ho)
        have hless := atStake_mono (hmore name p) (told name p)
        rw [hzero] at hstake
        have hstake : lost name p + atStake (synced name p) (told name p) ≤ before name p := hstake
        omega
    · rw [hnode]
      show (if store.ring.ownsPartition name p then 0 else before name p) + 0
        ≤ (k - 1).toNat * (if store.ring.ownsPartition name p then 0 else starts name p)
      split_ifs
      · exact Nat.zero_le _
      · exact (Nat.le_add_right _ _).trans (h.starts name p)
    · rw [hnode] at hstore₁
      cases hstore₁

/-- **Killing a broker** syncs nothing: what waited is left behind, and stays
at stake. -/
theorem kill (h : Holds k s synced before) :
    ∃ synced' before', Holds k (s.after .kill) synced' before' := by
  obtain ⟨c, hgood⟩ := h.good
  refine ⟨synced, fun name p => before name p + waiting s.node name p, ⟨c, Node.kill_spec hgood⟩,
    h.kept, h.told, fun name p => ?_, h.stake, h.down, fun hstore => by cases hstore⟩
  exact (h.lost name p).trans (Nat.le_add_right _ _)

/-- **A power failure** takes records that were at stake. -/
theorem fail (h : Holds k s synced before) {act : Node.Act} {mid left : Root}
    (hmid : mid ∈ s.node.through act) (hcrash : mid.Crash left) (hwhole : left.Whole) :
    ∃ synced' before', Holds k (s.fail left) synced' before' := by
  obtain ⟨c, hgood⟩ := h.good
  obtain ⟨records, hprefix, hkept⟩ := h.mid hmid
  obtain ⟨m, hleft⟩ := kept_of_crash hkept hcrash
  obtain ⟨c', hstores, -⟩ :=
    Outage.stores_of_whole (between_of_mem_through hgood hmid) hcrash hwhole
  have hrecords := hleft.records_eq
  have hcount : ∀ name p, ((s.told name p).length
        - ((s.told name p).filter (inPlace left name p)).length)
      + atStake (synced name p) ((s.told name p).filter (inPlace left name p))
      = atStake (synced name p) (s.told name p) := fun name p =>
    length_filter_add fun r hr hgone => by
      by_contra hsafe
      have hlt : r.offset.toNat < synced name p := by simpa using hsafe
      rw [inPlace_of_lt hprefix hleft (h.told hr) hlt] at hgone
      cases hgone
  refine ⟨synced, fun name p => before name p + waiting s.node name p, ⟨c', hstores⟩,
    fun name p => ?_, fun {name p r} hr => ?_, fun name p => ?_, fun name p => ?_, h.down,
    fun hstore => by cases hstore⟩
  · show Keeps (left.dirOf name p).logs.view (left.records name p) (synced name p)
    rw [hrecords]
    exact hleft name p
  · exact of_decide_eq_true (List.mem_filter.mp hr).2
  · have hstake := h.stake name p
    have hone := hcount name p
    show s.lost name p + _ ≤ _
    omega
  · have hstake := h.stake name p
    have hone := hcount name p
    show s.lost name p + ((s.told name p).length
        - ((s.told name p).filter (inPlace left name p)).length)
      + atStake (synced name p) ((s.told name p).filter (inPlace left name p))
        ≤ before name p + waiting s.node name p + 0
    omega

/-- **Every step keeps the invariant.** -/
theorem step (h : Holds k s synced before) {e : Event} {s' : State} (hstep : Step k s e s') :
    ∃ synced' before', Holds k s' synced' before' := by
  cases hstep with
  | @act act hpaced =>
    cases act with
    | start ring settings =>
      obtain ⟨j, hj, hpolicy⟩ := hpaced ring settings rfl
      exact h.start ring hj hpolicy
    | ask request => exact h.ask request
    | close => exact h.close
    | kill => exact h.kill
  | failure hmid hcrash hwhole => exact h.fail hmid hcrash hwhole

end Holds

/-! ## What is lost

The two results, read off the invariant: a bound for any policy, and that with
a sync after every record nothing is lost. -/

/-- **How much a power failure can take.** Let a broker that is asked one
request at a time live as often as it likes, under any rings, ended in order or
killed, and let the power fail at any point of a start, a request or a close.
Then a record that its producer was told of is where it was said to be, or is
one of those lost; and of these there are no more than `k - 1` for every start
of a broker that owns the partition, since one was last closed in order. -/
theorem lost_le {k : ℤ} {s : State} (h : (system k).Reachable s) (name : String) (p : ℕ) :
    (∀ r ∈ s.told name p, (s.node.root.records name p)[r.offset.toNat]? = some r)
      ∧ s.lost name p ≤ (k - 1).toNat * s.starts name p := by
  obtain ⟨synced, before, hs⟩ := h.invariant (P := fun s =>
    ∃ synced before, Holds k s synced before)
    (fun s hs => by cases hs; exact ⟨_, _, holds_empty k⟩)
    fun s e s' ⟨synced, before, hs⟩ hstep => hs.step hstep
  exact ⟨fun r hr => hs.told hr,
    (hs.lost name p).trans ((Nat.le_add_right _ _).trans (hs.starts name p))⟩

omit [Crc32] in
/-- Two lives with a policy of two records, the first one killed: the two
records told of are lost together. -/
theorem lost_le_two : let _ := Crc32.zlib
    let ring : Ring := ⟨1, 0, fun b => .ok s!"pyka-{b}", .modulo, Nat.one_pos⟩
    let settings : Settings :=
      ⟨"data", 1, ⟨some 2, none⟩, ⟨2 ^ 30, default_max_segment_bytes⟩, false,
      Nat.one_pos⟩
    let produce : Node.Act := .ask (.produce ⟨"orders", none, some [97], some 5, none, none⟩ 7 0)
    let s : State := ((((State.empty.after (.start ring settings)).after produce).after .kill).after
      (.start ring settings)).after produce
    ∃ left, (system 2).Reachable (s.fail left) ∧ (s.fail left).lost "orders" 0 = 2
      ∧ (s.fail left).lost "orders" 0 ≤ (2 - 1 : ℤ).toNat * (s.fail left).starts "orders" 0 := by
  intro _ ring settings produce s
  let left : Root := (Root.empty.setMeta "orders" (TopicJson.dumps 1)).setPart "orders" 0 .empty
  have hstart : ∀ {s}, (system 2).Reachable s →
      (system 2).Reachable (s.after (.start ring settings)) := fun hs =>
        hs.step (.act fun _ _ h => by
    cases h
    exact ⟨2, le_rfl, rfl⟩)
  have hother : ∀ {s act}, (∀ ring settings, act ≠ .start ring settings) → (system 2).Reachable s →
      (system 2).Reachable (s.after act) := fun hact hs =>
    hs.step (.act fun ring settings h => absurd h (hact ring settings))
  have hproduce : ∀ ring settings, produce ≠ .start ring settings := fun _ _ h =>
    Node.Act.noConfusion h
  have hkill : ∀ ring settings, Node.Act.kill ≠ .start ring settings := fun _ _ h =>
    Node.Act.noConfusion h
  have hs : (system 2).Reachable s :=
    hother hproduce (hstart (hother hkill (hother hproduce (hstart (.start rfl)))))
  -- what is on the disk, and that none of it is durable
  have hkeys : s.node.root.keys = ["orders"] := by decide +kernel
  have hmeta : s.node.root.metaFile "orders" = some (TopicJson.dumps 1) := by decide +kernel
  have hparts : (s.node.root.lookup "orders").map (fun dir => dir.parts.keys) = some [0] := by
    decide +kernel
  have hfiles : (s.node.root.part "orders" 0).map (fun dir => dir.logs.keys) = some [0] := by
    decide +kernel
  have hdurable : (s.node.root.part "orders" 0).bind (fun dir => (dir.logs.view 0).map File.durable)
      = some none := by decide +kernel
  have hnone : ∀ name, name ≠ "orders" → s.node.root.lookup name = none := fun name hname => by
    rw [AList.lookup_eq_none, AList.mem_keys, hkeys]
    simpa using hname
  have hcrash : s.node.root.Crash left := by
    refine ⟨fun name => ?_, fun name p => ?_⟩
    · by_cases hname : name = "orders"
      · subst hname
        have hleft : left.metaFile "orders"
            = some ((TopicJson.dumps 1).take (TopicJson.dumps 1).length) := by
          rw [List.take_length]
          rfl
        rw [hmeta, hleft]
        exact .cut _ _
      · have hleft : left.metaFile name = none := by simp [left, hname]
        rw [hleft, Root.metaFile, hnone name hname]
        exact .absent
    · by_cases hhere : name = "orders" ∧ p = 0
      · obtain ⟨rfl, rfl⟩ := hhere
        obtain ⟨dir, hdir, hlogs⟩ := Option.map_eq_some_iff.mp hfiles
        have hleft : left.part "orders" 0 = some .empty := by simp [left]
        rw [hdir, Option.bind_some] at hdurable
        obtain ⟨f, hf, hf'⟩ := Option.map_eq_some_iff.mp hdurable
        rw [hdir, hleft]
        refine .some fun base => ?_
        by_cases hbase : base = 0
        · subst hbase
          rw [hf]
          exact .lost hf'
        · have hgone : dir.logs.view base = none := by
            rw [Files.view, AList.lookup_eq_none, AList.mem_keys, hlogs]
            simpa using hbase
          rw [hgone]
          exact .absent
      · have hleft : left.part name p = none := by simp [left, hhere]
        have hgone : s.node.root.part name p = none := by
          by_cases hname : name = "orders"
          · subst hname
            obtain ⟨dir, hdir, hkeys⟩ := Option.map_eq_some_iff.mp hparts
            rw [Root.part, hdir, Option.bind_some, AList.lookup_eq_none, AList.mem_keys, hkeys]
            simpa using fun h => hhere ⟨rfl, h⟩
          · rw [Root.part, hnone name hname, Option.bind_none]
        rw [hleft, hgone]
        exact .none
  have hwhole : left.Whole := fun name text htext => by
    have htext : name = "orders" ∧ TopicJson.dumps 1 = text := by simpa [left] using htext
    exact ⟨1, htext.2.symm⟩
  have hfail : (system 2).Reachable (s.fail left) :=
    hs.step (Step.failure
      (show s.node.root ∈ s.node.through .kill from List.mem_cons_self) hcrash hwhole)
  exact ⟨left, hfail, by decide +kernel, (lost_le hfail "orders" 0).2⟩

/-- **A broker that syncs every record loses none** that its producer was told
of, however often it is killed and the power fails, as long as it is asked one
request at a time: of two appends that overlap one may be told of unsynced
(`Syncing.forgotten`). -/
theorem none_lost {s : State} (h : (system 1).Reachable s) (name : String) (p : ℕ) :
    s.lost name p = 0 := by
  obtain ⟨-, hlost⟩ := lost_le h name p
  simpa using hlost

end PowerLoss

end Pyka
