import Pyka.Broker.Node

/-!
# A cluster under a fixed ring

Brokers that are all started with one number of brokers, one address template
and one placement, each with its own ordinal and its own disk. Nothing passes
between them: what one is asked changes only what it holds itself. That a
partition lives on one broker only comes from the ring, which gives it to
exactly one of them (`Cluster.exists_owner`), and from every broker keeping to
what the ring gives it (`Node.Owned`).

## No protocol

There is no controller, no election and no message between brokers, so a
cluster is its brokers beside each other: a state has a node for each, and an
act concerns one of them. An act that starts a broker carries the proof that
it is started with its own ring; that is the assumption on how the cluster is
run, and there is no other. Starting a broker of a cluster of another size is
`Cluster.Migration`, and what a broker does that was started with the wrong
ring is `Broker.Resizing`.

## What one step does

`Serves` says what comes of an act for the records of the whole cluster: a
record that is accepted is stored on the owner of its partition and nowhere
else, one that is refused is stored nowhere, and an answer to a read has the
owner's records. `Good.step` shows it of every act, and that the cluster is in
order after it, by what is known of one node; `Good.run` follows by induction.

Agreement is a matter of the ring alone. What brokers do not share is which
topics there are, and with how many partitions: that is `Cluster.Creation`.
-/

namespace Pyka

/-- **A cluster**: what its brokers have in common, which is what each is
started with. -/
structure Cluster where
  brokers : ℕ
  address : ℕ → Except PyError String
  placement : Placement
  brokers_pos : 0 < brokers

namespace Cluster

variable {cl : Cluster}

/-- What a broker sees of the cluster: all of it, and which one it is. -/
def ring (cl : Cluster) (i : Fin cl.brokers) : Ring where
  brokers := cl.brokers
  me := i
  address := cl.address
  placement := cl.placement
  me_lt := i.2

/-- Something that happens to a broker, which is started with its own ring
only. -/
structure Act (cl : Cluster) where
  broker : Fin cl.brokers
  act : Node.Act
  fixed : ∀ ring settings, act = .start ring settings → ring = cl.ring broker

/-- Ask a broker. -/
def Act.ask (i : Fin cl.brokers) (request : Node.Request) : Act cl :=
  ⟨i, .ask request, fun _ _ h => Node.Act.noConfusion h⟩

/-- Start a broker. -/
def Act.start (i : Fin cl.brokers) (settings : Settings) : Act cl :=
  ⟨i, .start (cl.ring i) settings, fun _ _ h => (Node.Act.start.inj h).1.symm⟩

/-- The brokers, each with its disk. No two of them share anything. -/
abbrev State (cl : Cluster) := Fin cl.brokers → Node

/-- Nothing yet: no broker is up, and no disk has anything on it. -/
def State.empty : State cl := fun _ => .empty

/-- **A cluster over time**: an act changes one node, and the answer is that
one's. -/
def machine [Crc32] (cl : Cluster) : Machine (State cl) (Act cl) Node.Answer where
  step nodes e :=
    let (answer, n) := Node.machine.step (nodes e.broker) e.act
    (answer, Function.update nodes e.broker n)

/-! ## Ownership

A fact about rings: the brokers of a cluster have rings that differ in `me`
only. -/

/-- **A partition has exactly one owner.** -/
theorem exists_owner (cl : Cluster) (topic : String) {partition : ℤ} (hp : 0 ≤ partition) :
    ∃! i : Fin cl.brokers, (cl.ring i).owns topic partition = .ok true := by
  obtain ⟨b, hb, hfor, -⟩ := (cl.ring ⟨0, cl.brokers_pos⟩).owns_eq_ok topic hp
  have howns : ∀ i : Fin cl.brokers, (cl.ring i).owns topic partition = .ok (decide (b = i)) := by
    intro i
    obtain ⟨b', -, hfor', howns⟩ := (cl.ring i).owns_eq_ok topic hp
    have hsame : (cl.ring i).brokerFor topic partition = .ok b :=
      (Ring.brokerFor_congr rfl rfl topic partition).trans hfor
    rw [hfor'] at hsame
    cases hsame
    exact howns
  refine ⟨⟨b, hb⟩, ?_, fun i hi => ?_⟩
  · show (cl.ring ⟨b, hb⟩).owns topic partition = _
    rw [howns, decide_eq_true rfl]
  · have hi : (cl.ring i).owns topic partition = .ok true := hi
    rw [howns] at hi
    exact Fin.ext (of_decide_eq_true (Except.ok.inj hi)).symm

/-! ## What is asked, and what comes of it

What an act does to the records of all brokers, by what it does to one node. -/

variable [Crc32]

/-- **What comes of an act** for the records of the cluster. -/
structure Serves (cl : Cluster) (before : State cl) (e : Act cl) (answer : Node.Answer)
    (after : State cl) : Prop where
  /-- A record accepted is stored on the owner of the partition it is said to
  be in, and nowhere else. -/
  accepted : ∀ {request clock elapsed response}, e.act = .ask (.produce request clock elapsed) →
    answer = .produced (.ok response) →
    ∃ (p : ℕ) (r : Record), response.partition = p ∧ response.offset = r.offset
      ∧ r.timestamp = request.timestamp.getD clock ∧ r.key = request.key ∧ r.value = request.value
      ∧ (cl.ring e.broker).owns request.topic p = .ok true
      ∧ (∀ q, request.partition = some q → q = p)
      ∧ (∃ n, (after e.broker).root.metaFile request.topic = some (TopicJson.dumps n) ∧ p < n
        ∧ ∀ key, request.partition = none → request.key = some key → p = keyPartition key n)
      ∧ r.offset = ((before e.broker).root.records request.topic p).length
      ∧ ∀ i name q, (after i).root.records name q
        = if i = e.broker ∧ name = request.topic ∧ q = p
          then (before i).root.records name q ++ [r] else (before i).root.records name q
  /-- Nothing else adds a record. -/
  unchanged : (∀ response, answer ≠ .produced (.ok response)) →
    ∀ i name q, (after i).root.records name q = (before i).root.records name q
  /-- A produce for a partition owned elsewhere is refused. -/
  refused : ∀ {request clock elapsed p}, e.act = .ask (.produce request clock elapsed) →
    request.partition = some p → (cl.ring e.broker).owns request.topic p = .ok false →
    (before e.broker).store ≠ none → ∃ failure, answer = .produced (.error failure)
  /-- A consume of a partition owned elsewhere is refused. -/
  unread : ∀ {request offset limit}, e.act = .ask (.read request offset limit) →
    (cl.ring e.broker).owns request.topic request.partition = .ok false →
    (before e.broker).store ≠ none → ∃ failure, answer = .records (.error failure)
  /-- A broker that starts becomes ready and has no orphans. -/
  started : ∀ {ring settings}, e.act = .start ring settings → (before e.broker).store = none →
    answer = .done (.ok ())
      ∧ ∃ s, (after e.broker).store = some s ∧ s.ready = true ∧ s.orphans = []

/-- **A cluster in order**: every broker has on its disk only what is its
own, and is ready while it is up. -/
structure Good (cl : Cluster) (nodes : State cl) (cs : Fin cl.brokers → Catalog) : Prop where
  owned : ∀ i, Node.Owned (cl.ring i) (nodes i) (cs i)
  ready : ∀ i s, (nodes i).store = some s → s.ready = true ∧ s.orphans = []

/-- At first there is nothing on any disk. -/
theorem good_empty (cl : Cluster) : Good cl State.empty fun _ => .empty :=
  ⟨fun _ => ⟨stores_empty, fun _ h => (by cases h), fun _ _ h => (by cases h)⟩,
    fun _ _ h => by cases h⟩

variable {nodes : State cl} {cs : Fin cl.brokers → Catalog}

/-- A broker goes on, the others stay as they are: so the cluster is in order
if that one is. -/
theorem Good.update (h : Good cl nodes cs) {i : Fin cl.brokers} {n : Node} {c : Catalog}
    (hn : Node.Owned (cl.ring i) n c)
    (hr : ∀ s, n.store = some s → s.ready = true ∧ s.orphans = []) :
    Good cl (Function.update nodes i n) (Function.update cs i c) := by
  refine ⟨fun j => ?_, fun j => ?_⟩
  · by_cases hj : j = i
    · subst hj
      rwa [Function.update_self, Function.update_self]
    · rw [Function.update_of_ne hj, Function.update_of_ne hj]
      exact h.owned j
  · by_cases hj : j = i
    · subst hj
      rwa [Function.update_self]
    · rw [Function.update_of_ne hj]
      exact h.ready j

/-- No record is added anywhere if none is added to one broker's catalog. -/
theorem Good.unchanged (h : Good cl nodes cs) {i : Fin cl.brokers} {n : Node} {c : Catalog}
    (hn : n.Good c) (hc : ∀ name q, c.records name q = (cs i).records name q)
    (j : Fin cl.brokers) (name : String) (q : ℕ) :
    (Function.update nodes i n j).root.records name q = (nodes j).root.records name q := by
  by_cases hj : j = i
  · subst hj
    rw [Function.update_self, hn.stores.records_eq, hc, (h.owned j).good.stores.records_eq]
  · rw [Function.update_of_ne hj]

omit [Crc32] in
/-- A broker's own partition is not owned elsewhere. -/
theorem not_elsewhere {r : Ring} {topic : String} {partition : ℤ} {p : ℕ} (hp : partition = p)
    (ho : r.ownsPartition topic p = true) : r.owns topic partition ≠ .ok false := by
  rw [hp, Ring.ownsPartition_eq, ho]
  exact fun h => Bool.noConfusion (Except.ok.inj h)

/-- **What a request comes to in the cluster**, by the cases that there are
for a node. -/
theorem Good.serves_ask (h : Good cl nodes cs) {i : Fin cl.brokers} {request : Node.Request}
    {hfixed} {answer : Node.Answer} {n : Node} {c : Catalog} {holder : Holder}
    (hown : holder.owns = (cl.ring i).ownsPartition) (hn : n.Good c)
    (hr : Node.Responds (cl.ring i) holder (cs i) request answer c) :
    Serves cl nodes ⟨i, .ask request, hfixed⟩ answer (Function.update nodes i n) where
  accepted {request clock elapsed response} hact hanswer := by
    cases hact
    cases hr with
    | refused => cases hanswer
    | @produced _ _ _ p r _ hp htimestamp hkey hvalue hadds =>
      cases hanswer
      obtain ⟨m, hm, htarget⟩ := hp
      refine ⟨p, r, rfl, rfl, htimestamp, hkey, hvalue, ?_, fun q hq => ?_,
        ⟨m, ?_, ?_, fun key hnone hk => ?_⟩, ?_, fun j name q => ?_⟩
      · have ho := hadds.owns
        rw [hown] at ho
        show (cl.ring i).owns request.topic p = _
        rw [Ring.ownsPartition_eq, ho]
      · rw [hq] at htarget
        exact htarget
      · show (Function.update nodes i n i).root.metaFile request.topic = _
        rw [Function.update_self, hn.stores.metaFile, hm]
        rfl
      · obtain ⟨m', hm', hlt⟩ := hadds.count
        rw [hm] at hm'
        cases hm'
        exact hlt
      · rw [hnone, hk] at htarget
        have htarget : ((keyPartition key m : ℕ) : ℤ) = p := htarget
        exact (Int.ofNat.inj htarget).symm
      · show r.offset = ((nodes i).root.records request.topic p).length
        rw [(h.owned i).good.stores.records_eq, hadds.offset]
      · show (Function.update nodes i n j).root.records name q = _
        by_cases hj : j = i
        · subst hj
          rw [Function.update_self, hn.stores.records_eq, hadds.records,
            (h.owned j).good.stores.records_eq]
          by_cases hq : name = request.topic ∧ q = p
          · rw [if_pos hq, if_pos ⟨rfl, hq⟩, hq.1, hq.2]
          · rw [if_neg hq, if_neg fun h => hq h.2]
        · rw [Function.update_of_ne hj, if_neg fun h => hj h.1]
  unchanged hanswer := by
    refine h.unchanged hn fun name q => ?_
    rcases hr with _ | _ | _ | hset | _ | hset | hset
    · exact (Catalog.Settles.create rfl).records name q
    · exact (Catalog.Settles.existing rfl).records name q
    · exact (Catalog.Settles.route rfl).records name q
    · exact hset.records name q
    · exact absurd rfl (hanswer _)
    · exact hset.records name q
    · exact hset.records name q
  refused {request clock elapsed p} hact hpart helse _ := by
    cases hact
    cases hr with
    | refused => exact ⟨_, rfl⟩
    | produced hp _ _ _ hadds =>
      obtain ⟨m, -, htarget⟩ := hp
      rw [hpart] at htarget
      have ho := hadds.owns
      rw [hown] at ho
      exact absurd helse (not_elsewhere htarget ho)
  unread {request offset limit} hact helse _ := by
    cases hact
    cases hr with
    | @read _ _ _ answer _ _ _ hread =>
      cases answer with
      | error failure => exact ⟨failure, rfl⟩
      | ok records =>
        obtain ⟨-, p, hp, ho, -⟩ := hread records rfl
        rw [hown] at ho
        exact absurd helse (not_elsewhere hp ho)
  started hact := by cases hact

/-- What no broker is asked adds no record: starting, ending, or asking one
that is not up. -/
theorem Serves.of_unasked {e : Act cl} {answer : Node.Answer} {after : State cl}
    (hanswer : ∀ response, answer ≠ .produced response)
    (hask : ∀ request, e.act = .ask request → (nodes e.broker).store = none)
    (hstart : ∀ {ring settings}, e.act = .start ring settings → (nodes e.broker).store = none →
      answer = .done (.ok ())
        ∧ ∃ s, (after e.broker).store = some s ∧ s.ready = true ∧ s.orphans = [])
    (hrecs : ∀ i name q, (after i).root.records name q = (nodes i).root.records name q) :
    Serves cl nodes e answer after where
  accepted _ h := absurd h (hanswer _)
  unchanged _ := hrecs
  refused hact _ _ hup := absurd (hask _ hact) hup
  unread hact _ hup := absurd (hask _ hact) hup
  started := hstart

/-- **One step of a cluster.** -/
theorem Good.step (h : Good cl nodes cs) (e : Act cl) :
    ∃ cs', Good cl (cl.machine.step nodes e).2 cs'
      ∧ Serves cl nodes e (cl.machine.step nodes e).1 (cl.machine.step nodes e).2 := by
  obtain ⟨i, act, hfixed⟩ := e
  obtain ⟨hgood, hown, hparts⟩ := h.owned i
  have hready := h.ready i
  show ∃ cs', Good cl (Function.update nodes i (Node.machine.step (nodes i) act).2) cs'
    ∧ Serves cl nodes ⟨i, act, hfixed⟩ (Node.machine.step (nodes i) act).1
      (Function.update nodes i (Node.machine.step (nodes i) act).2)
  cases hn : nodes i with
  | mk store root =>
  rw [hn] at hgood hown hready
  -- a broker that is ended, or left as it is
  have hquiet : ∀ n : Node, n.Good (cs i) → (n.store = none ∨ n.store = store) →
      Good cl (Function.update nodes i n) (Function.update cs i (cs i)) := by
    intro n hgood' hstore
    refine h.update ⟨hgood', fun s hs => ?_, hparts⟩ fun s hs => ?_
    · rcases hstore with hnone | hsame
      · rw [hnone] at hs
        cases hs
      · exact hown s (hsame.symm.trans hs)
    · rcases hstore with hnone | hsame
      · rw [hnone] at hs
        cases hs
      · exact hready s (hsame.symm.trans hs)
  have hstore : (nodes i).store = store := by rw [hn]
  cases act with
  | start ring settings =>
    cases hfixed ring settings rfl
    cases store with
    | some s =>
      exact ⟨_, hquiet _ hgood (Or.inr rfl), .of_unasked (fun _ h => by cases h)
        (fun _ h => by cases h) (fun _ hnone => by rw [hstore] at hnone; cases hnone)
        (h.unchanged hgood fun _ _ => rfl)⟩
    | none =>
      obtain ⟨s, v', c', hstep, hgood', ⟨hring, -⟩, -, hset, horphans, hne, hup, -⟩ :=
        Node.start_spec hgood (cl.ring i) settings
      have hparts' : ∀ name p, (c'.logs name p).isSome → (cl.ring i).ownsPartition name p = true :=
        fun name p hl => (hset.logs hl).elim (hparts name p) id
      have hnone : s.orphans = [] := by
        cases ho : s.orphans with
        | nil => rfl
        | cons found rest =>
          -- a partition found would not be this broker's
          obtain ⟨p, hp⟩ := List.exists_mem_of_ne_nil _ (hne found (ho ▸ List.mem_cons_self))
          obtain ⟨hpart, helse⟩ :=
            (horphans found.1 p).mp ⟨found.2, ho ▸ List.mem_cons_self, hp⟩
          rw [hgood'.stores.isSome_part] at hpart
          exact absurd helse (not_elsewhere rfl (hparts' found.1 p hpart))
      have hr : s.ready = true := hup.mpr (Or.inl hnone)
      rw [hstep]
      refine ⟨_, h.update (c := c') ⟨hgood', ?_, hparts'⟩ ?_, .of_unasked (fun _ h => by cases h)
        (fun _ h => by cases h) (fun _ _ => ⟨rfl, s, ?_, hr, hnone⟩)
        (h.unchanged hgood' hset.records)⟩
      · intro s' hs'
        cases hs'
        exact hring
      · intro s' hs'
        cases hs'
        exact ⟨hr, hnone⟩
      · show (Function.update nodes i _ i).store = _
        rw [Function.update_self]
  | ask request =>
    cases store with
    | none =>
      exact ⟨_, hquiet _ hgood (Or.inl rfl), .of_unasked (fun _ h => by cases h)
        (fun _ _ => hstore) (fun h => by cases h) (h.unchanged hgood fun _ _ => rfl)⟩
    | some s =>
      obtain ⟨s', v', answer, c', hstep, hgood', hr, hring, -, horphans, hup⟩ :=
        Node.ask_spec hgood request
      have howns := hgood.owns
      rw [hown s rfl] at hr howns
      rw [hstep]
      refine ⟨_, h.update (c := c') ⟨hgood', ?_, fun name p hl => ?_⟩ ?_,
        h.serves_ask howns hgood' hr⟩
      · intro s'' hs''
        cases hs''
        exact hring.trans (hown s rfl)
      · exact (hr.logs hl).elim (hparts name p) fun ho => howns ▸ ho
      · intro s'' hs''
        cases hs''
        rw [hup, horphans]
        exact hready s rfl
  | close =>
    cases store with
    | none =>
      exact ⟨_, hquiet _ hgood (Or.inl rfl), .of_unasked (fun _ h => by cases h)
        (fun _ h => by cases h) (fun h => by cases h) (h.unchanged hgood fun _ _ => rfl)⟩
    | some s =>
      obtain ⟨v', hstep, hgood'⟩ := Node.close_spec hgood
      rw [hstep]
      exact ⟨_, hquiet _ hgood' (Or.inl rfl), .of_unasked (fun _ h => by cases h)
        (fun _ h => by cases h) (fun h => by cases h) (h.unchanged hgood' fun _ _ => rfl)⟩
  | kill =>
    have hgood' := Node.kill_spec hgood
    exact ⟨_, hquiet _ hgood' (Or.inl rfl), .of_unasked (fun _ h => by cases h)
      (fun _ h => by cases h) (fun h => by cases h) (h.unchanged hgood' fun _ _ => rfl)⟩

/-- **A whole run of a cluster** keeps it in order, by induction on the acts. -/
theorem Good.run (h : Good cl nodes cs) (acts : List (Act cl)) :
    ∃ cs', Good cl (cl.machine.run nodes acts).2 cs' := by
  induction acts generalizing nodes cs with
  | nil => exact ⟨cs, h⟩
  | cons e acts ih =>
    obtain ⟨cs₁, h₁, -⟩ := h.step e
    exact ih h₁

/-- **A partition lives on one broker.** Whatever the brokers of a cluster
have been asked and however often they were started again: a partition has
one owner, nobody else has a directory or an open log for it, whatever comes
next is stored with the owner or refused, and a broker that starts is ready.
All brokers route alike. -/
theorem one_owner (cl : Cluster) (acts : List (Act cl)) :
    (∀ topic (p : ℕ), ∃! i : Fin cl.brokers, (cl.ring i).owns topic p = .ok true)
      ∧ (∀ i name p, ((cl.machine.run State.empty acts).2 i).root.part name p ≠ none →
          (cl.ring i).owns name p = .ok true)
      ∧ (∀ i s name topic (p : ℕ), ((cl.machine.run State.empty acts).2 i).store = some s →
          s.topic.opened.lookup name = some topic → topic.stored.lookup p ≠ none →
          (cl.ring i).owns name p = .ok true)
      ∧ (∀ e : Act cl, Serves cl (cl.machine.run State.empty acts).2 e
          (cl.machine.step (cl.machine.run State.empty acts).2 e).1
          (cl.machine.step (cl.machine.run State.empty acts).2 e).2)
      ∧ ∀ (i j : Fin cl.brokers) topic partitions,
          (cl.ring i).routingTable topic partitions
            = (cl.ring j).routingTable topic partitions := by
  obtain ⟨cs, h⟩ := (good_empty cl).run acts
  refine ⟨fun topic p => cl.exists_owner topic (Int.natCast_nonneg p), fun i name p hp => ?_,
    fun i s name topic p hs hopen hstored => ?_, fun e => ?_,
    fun i j topic partitions => Ring.routingTable_congr rfl rfl rfl topic partitions⟩
  · have hl := Option.isSome_iff_ne_none.mpr hp
    rw [(h.owned i).good.stores.isSome_part] at hl
    rw [Ring.ownsPartition_eq, (h.owned i).parts name p hl]
  · have hgood := (h.owned i).good
    unfold Node.Good at hgood
    rw [hs] at hgood
    obtain ⟨entry, hentry⟩ := Option.ne_none_iff_exists'.mp hstored
    obtain ⟨-, howns, -⟩ := (hgood.topic.opened hopen).stored hentry
    rw [hgood.owns, (h.owned i).sameRing s hs] at howns
    rw [Ring.ownsPartition_eq, howns]
  · obtain ⟨-, -, hserves⟩ := h.step e
    exact hserves

end Cluster

end Pyka
