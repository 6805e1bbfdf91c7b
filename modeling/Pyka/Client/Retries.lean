import Pyka.Client.Delivery

/-!
# Retries

A producer that sends records of one key one after another, each until it is
acknowledged, while its requests may be answered, or given up with
`UNAVAILABLE` and carried out by the broker at any later time, or never. What
else happens to the cluster is left open.

Every record that is acknowledged is stored where `send` says. But a request
that was given up may be carried out after later records: then an old record
is stored once more behind them (`Retries.reordered`). Where no request is
carried out as late as that, the copies of the records are in the order in
which they were sent (`Retries.kept_order`).

## Requests on their way

A request and its answer are two messages, and each of them may take its time.
So an attempt puts a request on its way (`Flight`); that the broker carries it
out is a step of its own, and that the answer gets to the client is another.
The client may give up in between. It has one attempt at a time, and no way to
call a request back: what it gave up stays on its way. `send`, as one function
in `Client.Client`, is what becomes of these steps when each answer comes
before the client has lost patience.

## What is claimed of order

Of the copies of records in a partition, that a record sent earlier stands
before one sent later (`Ordered`). There may be two copies of one record, when
an attempt was given up and carried out all the same; they are not compared
with each other. The condition on a step (`Kept`) is on the state before it:
when a request is carried out, no copy of a later record is in its partition.
Requests that are carried out in the order in which they were sent meet it;
nothing in the client or the broker sees to that across two attempts.

## What else may happen

`Event.other` is any step of the cluster, by anybody: other producers, other
topics, brokers that are stopped and started. So the copies of these records
may have others between them.
-/

namespace Pyka

open Struct (Bytes)

/-! ## Calls as steps of the cluster

What a client does to a cluster is a step of it, or nothing. So what holds of
runs of a cluster holds here. -/

namespace Cluster

variable {cl : Cluster} {host : String → Option (Fin cl.brokers)} {address : String}
  {nodes : State cl}

/-- **A call is a request to one broker**, or reaches nobody. -/
theorem call_cases [Crc32] {α : Type} (host : String → Option (Fin cl.brokers)) (address : String)
    (nodes : State cl) {f : Store → Volume → α × Store × Volume} (request : Node.Request)
    (wrap : α → Node.Answer)
    (hf : ∀ s v, request.exec s v = (wrap (f s v).1, (f s v).2)) :
    call host address nodes f = (none, nodes)
      ∨ ∃ i answer nodes', host address = some i ∧ call host address nodes f = (some answer, nodes')
        ∧ cl.machine.step nodes (.ask i request) = (wrap answer, nodes') := by
  unfold call
  cases hhost : host address with
  | none => exact Or.inl rfl
  | some i =>
    cases hs : (nodes i).store with
    | none => exact Or.inl (by simp only [hs])
    | some s =>
      refine Or.inr ⟨i, (f s (.of (nodes i).root)).1, Function.update nodes i
        ⟨some (f s (.of (nodes i).root)).2.1, (f s (.of (nodes i).root)).2.2.root⟩, rfl,
        by simp only [hs], ?_⟩
      simp only [machine, Act.ask, Node.machine, hs, hf]

/-- **Nodes in order where no record has come or gone.** -/
def Still [Crc32] (nodes nodes' : State cl) : Prop :=
  (∃ cs, Good cl nodes' cs)
    ∧ ∀ i name p, (nodes' i).root.records name p = (nodes i).root.records name p

variable [Crc32]

/-- Brokers in order, to which nothing happens. -/
theorem Still.refl {cs : Fin cl.brokers → Catalog} (hgood : Good cl nodes cs) : Still nodes nodes :=
  ⟨⟨cs, hgood⟩, fun _ _ _ => rfl⟩

/-- And over two steps. -/
theorem Still.trans {nodes₁ nodes₂ : State cl} (h : Still nodes nodes₁) (h' : Still nodes₁ nodes₂) :
    Still nodes nodes₂ :=
  ⟨h'.1, fun i name p => (h'.2 i name p).trans (h.2 i name p)⟩

/-- Asking for the routing adds no record. -/
theorem still_fetchRouting {cs : Fin cl.brokers → Catalog} (hgood : Good cl nodes cs)
    (host : String → Option (Fin cl.brokers)) (topic : String) (addresses : List String)
    (last : Option RpcError) :
    Still nodes (Connection.fetchRouting host topic nodes addresses last).2 := by
  induction addresses generalizing nodes cs last with
  | nil => exact .refl hgood
  | cons address addresses ih =>
    rw [Connection.fetchRouting]
    rcases call_cases host address nodes (f := fun s v => Handler.metadata s v topic)
      (.metadata topic) .table (fun _ _ => rfl) with hcall | ⟨i, answer, nodes', -, hcall, hstep⟩
    · rw [hcall]
      exact ih hgood _
    · obtain ⟨cs', hgood', hserves⟩ := hgood.step (.ask i (.metadata topic))
      rw [hstep] at hgood' hserves
      have hsame := hserves.unchanged fun _ h => by cases h
      rw [hcall]
      have hdone : Still nodes nodes' := ⟨⟨cs', hgood'⟩, hsame⟩
      cases answer with
      | ok table => exact hdone
      | error failure =>
        have hnext : Still nodes (Connection.fetchRouting host topic nodes' addresses
            (some failure.toRpc)).2 := hdone.trans (ih hgood' (some failure.toRpc))
        cases failure with
        | unhandled e => exact hnext
        | abort code details =>
          cases code with
          | notFound => exact hdone
          | _ => exact hnext

/-- Nor does taking the routing from where it is kept. -/
theorem still_routing {cs : Fin cl.brokers → Catalog} (hgood : Good cl nodes cs) (c : Connection)
    (topic : String) (refresh : Bool) : Still nodes (c.routing host nodes topic refresh).2.2 := by
  have hfetch := still_fetchRouting hgood host topic c.bootstrap none
  unfold Connection.routing
  cases (if refresh then none else c.cache.lookup topic) with
  | some table => exact .refl hgood
  | none =>
    cases hres : Connection.fetchRouting host topic nodes c.bootstrap none with
    | mk res nodes' =>
      rw [hres] at hfetch
      cases res <;> exact hfetch

/-- Computing a partition asks for the routing at most. -/
theorem still_partitionFor {cs : Fin cl.brokers → Catalog} (hgood : Good cl nodes cs)
    (c : Connection) (topic : String) (key : Option Bytes) :
    Still nodes (c.partitionFor host nodes topic key).2.2 := by
  have hrouting : Still nodes (c.routing host nodes topic false).2.2 :=
    still_routing hgood c topic false
  unfold Connection.partitionFor
  cases hres : c.routing host nodes topic false with
  | mk res rest =>
    obtain ⟨c', nodes'⟩ := rest
    rw [hres] at hrouting
    cases res <;> exact hrouting

/-- And so does looking up an address. -/
theorem still_addressFor {cs : Fin cl.brokers → Catalog} (hgood : Good cl nodes cs)
    (c : Connection) (topic : String) (partition : ℤ) :
    Still nodes (c.addressFor host nodes topic partition).2.2 := by
  have hrouting : Still nodes (c.routing host nodes topic false).2.2 :=
    still_routing hgood c topic false
  unfold Connection.addressFor
  cases hres : c.routing host nodes topic false with
  | mk res rest =>
    obtain ⟨c', nodes'⟩ := rest
    rw [hres] at hrouting
    cases res with
    | error e => exact hrouting
    | ok table =>
      simp only
      cases table.lookup partition <;> exact hrouting

/-- **What is sent for a record**, once it is known where to. -/
theorem still_prepare {cs : Fin cl.brokers → Catalog} (hgood : Good cl nodes cs) (c : Connection)
    (topic : String) (value key : Option Bytes) (timestamp : Option ℤ) :
    Still nodes (Producer.prepare host c nodes topic value key timestamp).2.2
      ∧ ∀ p address request, (Producer.prepare host c nodes topic value key timestamp).1
          = .ok (p, address, request)
            → request = ⟨topic, key, value, timestamp, none, some (p : ℤ)⟩ := by
  have hpart : Still nodes (c.partitionFor host nodes topic key).2.2 :=
    still_partitionFor hgood c topic key
  unfold Producer.prepare
  cases hres : c.partitionFor host nodes topic key with
  | mk res rest =>
    obtain ⟨c₁, nodes₁⟩ := rest
    rw [hres] at hpart
    cases res with
    | error e => exact ⟨hpart, fun _ _ _ h => by cases h⟩
    | ok p =>
      obtain ⟨⟨cs₁, hgood₁⟩, -⟩ := id hpart
      have haddr : Still nodes₁ (c₁.addressFor host nodes₁ topic p).2.2 :=
        still_addressFor hgood₁ c₁ topic p
      simp only
      cases hres' : c₁.addressFor host nodes₁ topic p with
      | mk res rest =>
        obtain ⟨c₂, nodes₂⟩ := rest
        rw [hres'] at haddr
        cases res with
        | error e => exact ⟨hpart.trans haddr, fun _ _ _ h => by cases h⟩
        | ok address => exact ⟨hpart.trans haddr, fun _ _ _ h => by cases h; rfl⟩

/-- Looking at an error has the routing fetched again at most. -/
theorem still_handle {cs : Fin cl.brokers → Catalog} (hgood : Good cl nodes cs) (c : Connection)
    (topic : String) (err : RpcError) :
    Still nodes (Producer.handle host c nodes topic err).2.2 := by
  have hsame : Still nodes nodes := .refl hgood
  have hrouting : Still nodes (c.routing host nodes topic true).2.2 :=
    still_routing hgood c topic true
  unfold Producer.handle
  cases err with
  | unavailable => exact hsame
  | unknown e => exact hsame
  | status code details =>
    cases code with
    | failedPrecondition =>
      cases hres : c.routing host nodes topic true with
      | mk res rest =>
        obtain ⟨c', nodes'⟩ := rest
        rw [hres] at hrouting
        cases res <;> exact hrouting
    | _ => exact hsame

/-- **Records stay where they are.** -/
theorem Serves.grows {e : Act cl} {answer : Node.Answer} {after : State cl}
    (hstep : cl.machine.step nodes e = (answer, after)) (h : Serves cl nodes e answer after)
    (i : Fin cl.brokers) (name : String) (p : ℕ) :
    (nodes i).root.records name p <+: (after i).root.records name p := by
  by_cases hanswer : ∃ response, answer = .produced (.ok response)
  · obtain ⟨response, rfl⟩ := hanswer
    obtain ⟨request, clock, elapsed, hact⟩ := Node.produced_step (congrArg Prod.fst hstep)
    obtain ⟨q, r, -, -, -, -, -, -, -, -, -, hrecs⟩ := h.accepted hact rfl
    rw [hrecs]
    split_ifs
    · exact List.prefix_append _ _
    · exact List.prefix_refl _
  · rw [h.unchanged fun response heq => hanswer ⟨response, heq⟩]

end Cluster

/-! ## Sending one record after another

The producer, its requests, and the cluster, step by step. -/

namespace Retries

/-- What is sent: records with one key to one topic, without end. -/
structure Job where
  topic : String
  key : Option Bytes
  value : ℕ → Option Bytes
  timestamp : ℕ → Option ℤ

/-- A request on its way, the number of its record, and its answer once it has
been carried out. -/
structure Flight where
  index : ℕ
  partition : ℕ
  address : String
  request : ProduceRequest
  answer : Option (Except RpcError ProduceResponse)

/-- Where a `send` stands. -/
inductive Phase
  /-- Before an attempt. -/
  | ready
  /-- Awaiting the answer to a request. -/
  | awaiting (j : ℕ)
  /-- An exception was raised. -/
  | stopped (e : ClientError)

/-- A copy of a record in a log. -/
structure Copy (cl : Cluster) where
  index : ℕ
  broker : Fin cl.brokers
  partition : ℕ
  offset : ℕ

/-- The cluster, the client, the requests there have been, what has been
returned, and the copies that have been stored. -/
structure State (cl : Cluster) where
  nodes : Cluster.State cl
  client : Connection
  phase : Phase
  flights : List Flight
  acked : List (ℤ × ℤ)
  copies : List (Copy cl)

/-- **What can happen next.** `late` says whether the deadline has passed. -/
inductive Event (cl : Cluster)
  | attempt
  /-- The broker carries out a request. -/
  | execute (j : ℕ) (clock : ℤ) (elapsed : ℚ)
  /-- The answer gets to the client. -/
  | respond (late : Bool)
  /-- The attempt ends with `UNAVAILABLE`, whatever becomes of the request. -/
  | giveUp (late : Bool)
  /-- Anything else that happens to a broker. -/
  | other (e : Cluster.Act cl)

variable [Crc32] {cl : Cluster} (host : String → Option (Fin cl.brokers)) (job : Job)

/-- **An attempt has failed.** It is for `_handle` to say what now, and for
the deadline. -/
def State.failed (s : State cl) (f : Flight) (err : RpcError) (late : Bool) : State cl :=
  match Producer.handle host s.client s.nodes job.topic err with
  | (.error e, client, nodes) => { s with client, nodes, phase := .stopped e }
  | (.ok (), client, nodes) =>
    let phase := if late then .stopped (.deliveryFailed job.topic f.partition err
      [(job.topic, job.key, job.value f.index)]) else .ready
    { s with client, nodes, phase }

/-- The copy that an answer tells of. -/
def copyOf (f : Flight) (answer : Except RpcError ProduceResponse) : List (Copy cl) :=
  match answer, host f.address with
  | .ok response, some i => [⟨f.index, i, response.partition.toNat, response.offset.toNat⟩]
  | _, _ => []

/-- **One step**, where it is possible. Carrying out a request does not look
at whether the client still waits for it. -/
def exec (s : State cl) : Event cl → Option (State cl)
  | .attempt =>
    match s.phase with
    | .ready =>
      let index := s.acked.length
      match Producer.prepare host s.client s.nodes job.topic (job.value index) job.key
          (job.timestamp index) with
      | (.error e, client, nodes) => some { s with client, nodes, phase := .stopped e }
      | (.ok (partition, address, request), client, nodes) =>
        some { s with client, nodes,
                      flights := s.flights ++ [⟨index, partition, address, request, none⟩],
                      phase := .awaiting s.flights.length }
    | _ => none
  | .execute j clock elapsed => do
    let f ← s.flights[j]?
    match f.answer with
    | some _ => none
    | none =>
      let (res, nodes) := call host f.address s.nodes fun s v =>
        Handler.produce s v f.request clock elapsed
      some { s with nodes, flights := s.flights.set j { f with answer := some (unary res) },
                    copies := s.copies ++ copyOf host f (unary res) }
  | .respond late =>
    match s.phase with
    | .awaiting j => do
      let f ← s.flights[j]?
      match f.answer with
      | none => none
      | some (.ok response) =>
        some { s with acked := s.acked ++ [(response.partition, response.offset)], phase := .ready }
      | some (.error err) => some (s.failed host job f err late)
    | _ => none
  | .giveUp late =>
    match s.phase with
    | .awaiting j => do
      let f ← s.flights[j]?
      some (s.failed host job f .unavailable late)
    | _ => none
  | .other e => some { s with nodes := (cl.machine.step s.nodes e).2 }

/-- **A new producer** on a cluster, whatever has happened there before. -/
def system : System (State cl) (Event cl) where
  start s := ∃ (setup : List (Cluster.Act cl)) (bootstrap : List String),
    Connection.init bootstrap = .ok s.client
    ∧ s.nodes = (cl.machine.run Cluster.State.empty setup).2
    ∧ s.phase = .ready ∧ s.flights = [] ∧ s.acked = [] ∧ s.copies = []
  step s e s' := exec host job s e = some s'

/-! ## What holds of it

Three properties of a state, and the invariant that carries them. -/

/-- **Every copy is in the log** of the owner of its partition, as it was
sent. -/
def Stored (s : State cl) : Prop :=
  ∀ a ∈ s.copies, (cl.ring a.broker).owns job.topic a.partition = .ok true
    ∧ ∃ r, ((s.nodes a.broker).root.records job.topic a.partition)[a.offset]? = some r
      ∧ r.key = job.key ∧ r.value = job.value a.index
      ∧ ∀ timestamp, job.timestamp a.index = some timestamp → r.timestamp = timestamp

/-- **What is acknowledged is stored** where it is said to be. -/
def Acknowledged (s : State cl) : Prop :=
  ∀ i place, s.acked[i]? = some place →
    ∃ a ∈ s.copies, a.index = i ∧ place = ((a.partition : ℤ), (a.offset : ℤ))

/-- **The copies in a partition are in the order** in which the records were
sent. -/
def Ordered (s : State cl) : Prop :=
  ∀ a ∈ s.copies, ∀ b ∈ s.copies, a.partition = b.partition → a.index < b.index →
    a.offset < b.offset

/-- **No request is carried out too late**: not once a copy of a later record
is in its partition. -/
def Kept (s : State cl) : Event cl → Prop
  | .execute j _ _ => ∀ f, s.flights[j]? = some f →
      ∀ a ∈ s.copies, a.partition = f.partition → a.index ≤ f.index
  | _ => True

/-- What the requests on their way are for, and what their answers tell. -/
structure FlightOk (s : State cl) (f : Flight) : Prop where
  index : f.index ≤ s.acked.length
  request : f.request = ⟨job.topic, job.key, job.value f.index, job.timestamp f.index, none,
    some (f.partition : ℤ)⟩
  answer : ∀ response, f.answer = some (.ok response) → ∃ a ∈ s.copies, a.index = f.index
    ∧ response.partition = a.partition ∧ response.offset = a.offset

/-- **The invariant**: the brokers are in order, what is on its way is for a
record that was sent, and what was acknowledged is stored. -/
structure Inv (s : State cl) : Prop where
  good : ∃ cs, Cluster.Good cl s.nodes cs
  flights : ∀ f ∈ s.flights, FlightOk job s f
  awaiting : ∀ j, s.phase = .awaiting j → ∀ f, s.flights[j]? = some f → f.index = s.acked.length
  stored : Stored job s
  index : ∀ a ∈ s.copies, a.index ≤ s.acked.length
  acknowledged : Acknowledged s

variable {host job} {s s' : State cl}

omit [Crc32] in
/-- What has been sent and stored does not go away. -/
theorem FlightOk.mono {f : Flight} (h : FlightOk job s f)
    (hacked : s.acked.length ≤ s'.acked.length)
    (hcopies : s.copies ⊆ s'.copies) : FlightOk job s' f :=
  ⟨h.index.trans hacked, h.request, fun response hresponse =>
    (h.answer response hresponse).imp fun _ ha => ⟨hcopies ha.1, ha.2⟩⟩

/-- Records that are added leave every copy in its log. -/
theorem Stored.mono (h : Stored job s) (hcopies : s'.copies = s.copies)
    (hgrows : ∀ i p, (s.nodes i).root.records job.topic p
      <+: (s'.nodes i).root.records job.topic p) : Stored job s' := by
  intro a ha
  rw [hcopies] at ha
  obtain ⟨howns, r, hr, hrest⟩ := h a ha
  exact ⟨howns, r, getElem?_of_prefix (hgrows _ _) hr, hrest⟩

/-- **A step that stores nothing of ours** and starts nothing. -/
theorem Inv.still (h : Inv job s) (hgood : ∃ cs, Cluster.Good cl s'.nodes cs)
    (hgrows : ∀ i p, (s.nodes i).root.records job.topic p
      <+: (s'.nodes i).root.records job.topic p)
    (hflights : s'.flights = s.flights) (hacked : s'.acked = s.acked)
    (hcopies : s'.copies = s.copies)
    (hphase : ∀ j, s'.phase = .awaiting j → s.phase = .awaiting j) : Inv job s' where
  good := hgood
  flights f hf := by
    rw [hflights] at hf
    exact (h.flights f hf).mono (by rw [hacked]) (by rw [hcopies]; exact List.Subset.refl _)
  awaiting j hj f hf := by
    rw [hflights] at hf
    rw [hacked]
    exact h.awaiting j (hphase j hj) f hf
  stored := h.stored.mono hcopies hgrows
  index a ha := by
    rw [hcopies] at ha
    rw [hacked]
    exact h.index a ha
  acknowledged i place hplace := by
    rw [hacked] at hplace
    rw [hcopies]
    exact h.acknowledged i place hplace

omit [Crc32] in
/-- Who is not awaiting has nothing to await. -/
theorem not_awaiting {phase : Phase} (h : ∀ j, phase ≠ .awaiting j) (s : State cl) (j : ℕ)
    (hj : phase = .awaiting j) : s.phase = .awaiting j := absurd hj (h j)

/-- **A failed attempt** changes nothing but what the client knows. -/
theorem Inv.failed (h : Inv job s) (f : Flight) (err : RpcError) (late : Bool) :
    Inv job (s.failed host job f err late) ∧ (s.failed host job f err late).copies = s.copies := by
  obtain ⟨cs, hgood⟩ := h.good
  have hhandle : Cluster.Still s.nodes (Producer.handle host s.client s.nodes job.topic err).2.2 :=
    Cluster.still_handle hgood s.client job.topic err
  unfold State.failed
  cases hres : Producer.handle host s.client s.nodes job.topic err with
  | mk res rest =>
    obtain ⟨client, nodes⟩ := rest
    rw [hres] at hhandle
    obtain ⟨hgood', hrecs⟩ := hhandle
    have hgrows : ∀ i p, (s.nodes i).root.records job.topic p
        <+: (nodes i).root.records job.topic p := fun i p => by rw [hrecs]
    cases res with
    | error e =>
      exact ⟨h.still hgood' hgrows rfl rfl rfl (not_awaiting (fun _ h => by cases h) s), rfl⟩
    | ok _ =>
      refine ⟨h.still hgood' hgrows rfl rfl rfl (not_awaiting (fun j hj => ?_) s), rfl⟩
      cases late <;> cases hj

/-- **An attempt** puts a request for the next record on its way. -/
theorem Inv.attempt (h : Inv job s) (hs' : exec host job s .attempt = some s') :
    Inv job s' ∧ s'.copies = s.copies := by
  obtain ⟨cs, hgood⟩ := h.good
  obtain ⟨⟨hgood', hrecs⟩, hrequest⟩ : Cluster.Still s.nodes (Producer.prepare host s.client s.nodes
      job.topic (job.value s.acked.length) job.key (job.timestamp s.acked.length)).2.2 ∧ _ :=
    Cluster.still_prepare hgood _ _ _ _ _
  simp only [exec] at hs'
  cases hphase : s.phase with
  | awaiting j => rw [hphase] at hs'; cases hs'
  | stopped e => rw [hphase] at hs'; cases hs'
  | ready =>
    rw [hphase] at hs'
    simp only at hs'
    cases hres : Producer.prepare host s.client s.nodes job.topic (job.value s.acked.length) job.key
        (job.timestamp s.acked.length) with
    | mk res rest =>
      obtain ⟨client, nodes⟩ := rest
      rw [hres] at hs' hgood' hrecs hrequest
      have hgrows : ∀ i p, (s.nodes i).root.records job.topic p
          <+: (nodes i).root.records job.topic p := fun i p => by rw [hrecs]
      cases res with
      | error e =>
        cases hs'
        exact ⟨h.still hgood' hgrows rfl rfl rfl (not_awaiting (fun _ h => by cases h) s), rfl⟩
      | ok sent =>
        obtain ⟨p, address, request⟩ := sent
        cases hs'
        refine ⟨⟨hgood', fun f hf => ?_, fun j hj f hf => ?_, h.stored.mono rfl hgrows, h.index,
          h.acknowledged⟩, rfl⟩
        · rcases List.mem_append.mp hf with hf | hf
          · exact (h.flights f hf).mono le_rfl (List.Subset.refl _)
          · rw [List.mem_singleton.mp hf]
            exact ⟨le_rfl, hrequest p address request rfl, fun _ h => by cases h⟩
        · -- the request awaited is the one just sent
          cases hj
          rw [List.getElem?_append_right le_rfl, Nat.sub_self] at hf
          cases hf
          rfl

/-- **What carrying out a request comes to**: a record at the end of its
partition, told of by the answer, or none. -/
theorem execute_cases {f : Flight} (hgood : ∃ cs, Cluster.Good cl s.nodes cs)
    (hf : FlightOk job s f) {clock : ℤ} {elapsed : ℚ}
    {res : Option (Except Failure ProduceResponse)}
    {nodes : Cluster.State cl} (hcall : call host f.address s.nodes (fun s v =>
      Handler.produce s v f.request clock elapsed) = (res, nodes)) :
    (∃ cs, Cluster.Good cl nodes cs)
      ∧ ((copyOf host f (unary res) = ([] : List (Copy cl)) ∧ (∀ response, unary res ≠ .ok response)
          ∧ ∀ i p, (nodes i).root.records job.topic p = (s.nodes i).root.records job.topic p)
        ∨ ∃ i response, ∃ r : Record, unary res = .ok response
          ∧ copyOf host f (unary res) = [⟨f.index, i, f.partition,
            ((s.nodes i).root.records job.topic f.partition).length⟩]
          ∧ response.partition = f.partition
          ∧ response.offset = (((s.nodes i).root.records job.topic f.partition).length : ℤ)
          ∧ (cl.ring i).owns job.topic f.partition = .ok true
          ∧ r.key = job.key ∧ r.value = job.value f.index
          ∧ (∀ timestamp, job.timestamp f.index = some timestamp → r.timestamp = timestamp)
          ∧ ∀ j p, (nodes j).root.records job.topic p
            = if j = i ∧ p = f.partition then (s.nodes j).root.records job.topic p ++ [r]
              else (s.nodes j).root.records job.topic p) := by
  obtain ⟨cs, hgood⟩ := hgood
  rcases Cluster.call_cases host f.address s.nodes
      (f := fun s v => Handler.produce s v f.request clock elapsed)
        (.produce f.request clock elapsed)
      .produced (fun _ _ => rfl) with hnone | ⟨i, answer, nodes', hhost, hsome, hstep⟩
  · cases hcall.symm.trans hnone
    exact ⟨⟨cs, hgood⟩, Or.inl ⟨rfl, fun _ h => (by cases h), fun _ _ => rfl⟩⟩
  · cases hcall.symm.trans hsome
    obtain ⟨cs', hgood', hserves⟩ := hgood.step (.ask i (.produce f.request clock elapsed))
    rw [hstep] at hgood' hserves
    refine ⟨⟨cs', hgood'⟩, ?_⟩
    cases answer with
    | error failure =>
      exact Or.inl ⟨rfl, fun _ h => (by cases h),
        fun j p => hserves.unchanged (fun _ h => by cases h) j job.topic p⟩
    | ok response =>
      obtain ⟨p, r, hpart, hoff, hts, hkey, hvalue, howns, hp, -, hlen, hrecs⟩ :=
        hserves.accepted rfl rfl
      rw [hf.request] at hts hkey hvalue howns hp hlen hrecs
      obtain rfl : f.partition = p := Int.ofNat.inj (hp f.partition rfl)
      have hlen : r.offset = ((s.nodes i).root.records job.topic f.partition).length := hlen
      rw [hlen] at hoff
      refine Or.inr ⟨i, response, r, rfl, ?_, hpart, hoff, howns, hkey, hvalue,
        fun timestamp ht => ?_,
        fun j p => ?_⟩
      · simp only [unary, copyOf, hhost, hpart, hoff, Int.toNat_natCast]
      · simp only [ht, Option.getD_some] at hts
        exact hts
      · rw [hrecs]
        by_cases hjp : j = i ∧ p = f.partition
        · rw [if_pos hjp, if_pos ⟨hjp.1, rfl, hjp.2⟩]
        · rw [if_neg hjp, if_neg fun h => hjp ⟨h.1, h.2.2⟩]

omit [Crc32] in
/-- A request that has been carried out is the same request. -/
theorem mem_set_answer {flights : List Flight} {j : ℕ} {f f' : Flight}
    {answer : Option (Except RpcError ProduceResponse)} (hf : flights[j]? = some f)
    (hf' : f' ∈ flights.set j { f with answer }) :
    (f' = { f with answer } ∧ f ∈ flights) ∨ f' ∈ flights :=
  (List.mem_or_eq_of_mem_set hf').symm.imp (fun h => ⟨h, List.mem_of_getElem? hf⟩) id

/-- **A request is carried out.** In order it was not too late, and the copies
stay in order. -/
theorem Inv.execute (h : Inv job s) {j : ℕ} {clock : ℤ} {elapsed : ℚ}
    (hs' : exec host job s (.execute j clock elapsed) = some s') :
    Inv job s' ∧ (Kept s (.execute j clock elapsed) → Ordered s → Ordered s') := by
  simp only [exec] at hs'
  cases hget : s.flights[j]? with
  | none => rw [hget] at hs'; cases hs'
  | some f =>
  have hmem : f ∈ s.flights := List.mem_of_getElem? hget
  have hflight := h.flights f hmem
  rw [hget, Option.bind_eq_bind, Option.bind_some] at hs'
  cases hanswer : f.answer with
  | some answer => rw [hanswer] at hs'; cases hs'
  | none =>
  rw [hanswer] at hs'
  cases hcall : call host f.address s.nodes
      (fun s v => Handler.produce s v f.request clock elapsed) with
  | mk res nodes =>
  rw [hcall] at hs'
  cases hs'
  obtain ⟨hgood', hout⟩ := execute_cases h.good hflight hcall
  -- what is left of a flight once it has been carried out
  have hflights : ∀ copies : List (Copy cl), s.copies ⊆ copies →
      (∀ response, unary res = .ok response → ∃ a ∈ copies, a.index = f.index
        ∧ response.partition = a.partition ∧ response.offset = a.offset) →
      ∀ f' ∈ s.flights.set j { f with answer := some (unary res) },
        FlightOk job { s with nodes,
                              flights := s.flights.set j { f with answer := some (unary res) },
                              copies } f' := fun copies hsub htold f' hf' => by
    rcases mem_set_answer hget hf' with ⟨rfl, -⟩ | hf'
    · exact ⟨hflight.index, hflight.request, fun response hr => htold response (Option.some.inj hr)⟩
    · exact (h.flights f' hf').mono le_rfl hsub
  have hawaiting : ∀ k, s.phase = .awaiting k →
      ∀ f', (s.flights.set j { f with answer := some (unary res) })[k]? = some f' →
        f'.index = s.acked.length := fun k hk f' hf' => by
    by_cases hjk : j = k
    · subst hjk
      rw [List.getElem?_set_self (List.getElem?_eq_some_iff.mp hget).1] at hf'
      cases hf'
      exact h.awaiting j hk f hget
    · rw [List.getElem?_set_ne hjk] at hf'
      exact h.awaiting k hk f' hf'
  rcases hout with ⟨hnone, hrefused, hrecs⟩ | ⟨i, response, r, hok, hcopy, hpart, hoff, howns, hkey,
    hvalue, hts, hrecs⟩
  · -- nothing is stored
    rw [hnone, List.append_nil]
    have hgrows : ∀ i p, (s.nodes i).root.records job.topic p
        <+: (nodes i).root.records job.topic p := fun i p => by rw [hrecs]
    exact ⟨⟨hgood', hflights s.copies (List.Subset.refl _) fun response hr =>
      absurd hr (hrefused _),
      hawaiting, h.stored.mono rfl hgrows, h.index, h.acknowledged⟩, fun _ hordered => hordered⟩
  · -- a copy is stored at the end of its partition
    rw [hcopy]
    generalize hnew : (⟨f.index, i, f.partition,
      ((s.nodes i).root.records job.topic f.partition).length⟩ : Copy cl) = new
    have hgrows : ∀ k p, (s.nodes k).root.records job.topic p
        <+: (nodes k).root.records job.topic p := fun k p => by
      rw [hrecs]
      split_ifs
      · exact List.prefix_append _ _
      · exact List.prefix_refl _
    have hsub : s.copies ⊆ s.copies ++ [new] := List.subset_append_left _ _
    refine ⟨⟨hgood', hflights _ hsub fun response' hr => ?_, hawaiting, fun a ha => ?_,
      fun a ha => ?_,
      fun k place hplace => ?_⟩, fun hkept hordered a ha b hb hab hlt => ?_⟩
    · cases hok.symm.trans hr
      exact ⟨new, List.mem_append_right _ List.mem_cons_self, by rw [← hnew],
        by rw [← hnew]; exact hpart,
        by rw [← hnew]; exact hoff⟩
    · rcases List.mem_append.mp ha with ha | ha
      · obtain ⟨howns', r', hr', hrest⟩ := h.stored a ha
        exact ⟨howns', r', getElem?_of_prefix (hgrows _ _) hr', hrest⟩
      · rw [List.mem_singleton.mp ha, ← hnew]
        refine ⟨howns, r, ?_, hkey, hvalue, hts⟩
        show ((nodes i).root.records job.topic f.partition)[_]? = some r
        rw [hrecs, if_pos ⟨rfl, rfl⟩, List.getElem?_append_right le_rfl, Nat.sub_self]
        rfl
    · rcases List.mem_append.mp ha with ha | ha
      · exact h.index a ha
      · rw [List.mem_singleton.mp ha, ← hnew]
        exact hflight.index
    · exact (h.acknowledged k place hplace).imp fun _ ha => ⟨hsub ha.1, ha.2⟩
    · -- what is there comes before what is put at the end
      have hbefore : ∀ a ∈ s.copies, a.partition = new.partition → a.offset < new.offset := by
        intro a ha hap
        rw [← hnew] at hap ⊢
        obtain ⟨howns', r', hr', -⟩ := h.stored a ha
        have hbroker : a.broker = i := by
          obtain ⟨k, -, hk⟩ := cl.exists_owner job.topic (Int.natCast_nonneg f.partition)
          rw [hap] at howns'
          rw [hk a.broker howns', hk i howns]
        rw [hbroker, hap] at hr'
        exact (List.getElem?_eq_some_iff.mp hr').1
      rcases List.mem_append.mp ha with ha | ha <;> rcases List.mem_append.mp hb with hb | hb
      · exact hordered a ha b hb hab hlt
      · rw [List.mem_singleton.mp hb] at hab ⊢
        exact hbefore a ha hab
      · -- a later record that is there would mean that the request is too late
        exfalso
        have hle := hkept f hget b hb (by rw [← hab, List.mem_singleton.mp ha, ← hnew])
        rw [List.mem_singleton.mp ha, ← hnew] at hlt
        exact absurd hlt (not_lt.mpr hle)
      · rw [List.mem_singleton.mp ha, List.mem_singleton.mp hb] at hlt
        exact absurd hlt (lt_irrefl _)

/-- **An answer gets to the client.** -/
theorem Inv.respond (h : Inv job s) {late : Bool}
    (hs' : exec host job s (.respond late) = some s') :
    Inv job s' ∧ s'.copies = s.copies := by
  simp only [exec] at hs'
  cases hphase : s.phase with
  | ready => rw [hphase] at hs'; cases hs'
  | stopped e => rw [hphase] at hs'; cases hs'
  | awaiting j =>
    rw [hphase] at hs'
    simp only at hs'
    cases hget : s.flights[j]? with
    | none => rw [hget] at hs'; cases hs'
    | some f =>
      rw [hget, Option.bind_eq_bind, Option.bind_some] at hs'
      cases hanswer : f.answer with
      | none => rw [hanswer] at hs'; cases hs'
      | some answer =>
        rw [hanswer] at hs'
        cases answer with
        | error err =>
          cases hs'
          exact h.failed f err late
        | ok response =>
          cases hs'
          have hlen : s.acked.length
              ≤ (s.acked ++ [(response.partition, response.offset)]).length := by
            rw [List.length_append]
            exact Nat.le_add_right _ _
          refine ⟨⟨h.good, fun f hf => (h.flights f hf).mono hlen (List.Subset.refl _),
            fun j hj => (by cases hj), h.stored, fun a ha => (h.index a ha).trans hlen,
            fun i place hplace => ?_⟩, rfl⟩
          rcases Nat.lt_or_ge i s.acked.length with hlt | hge
          · rw [List.getElem?_append_left hlt] at hplace
            exact h.acknowledged i place hplace
          · -- the answer awaited is about the record next to be acknowledged
            rw [List.getElem?_append_right hge] at hplace
            obtain ⟨hzero, hplace⟩ := List.getElem?_eq_some_iff.mp hplace
            rw [List.length_singleton] at hzero
            obtain ⟨a, ha, hindex, hpart, hoff⟩ :=
              (h.flights f (List.mem_of_getElem? hget)).answer response hanswer
            refine ⟨a, ha, ?_, ?_⟩
            · rw [hindex, h.awaiting j hphase f hget]
              omega
            · rw [← hplace, List.getElem_singleton, hpart, hoff]

/-- **An attempt is given up.** Its request is still on its way. -/
theorem Inv.giveUp (h : Inv job s) {late : Bool} (hs' : exec host job s (.giveUp late) = some s') :
    Inv job s' ∧ s'.copies = s.copies := by
  simp only [exec] at hs'
  cases hphase : s.phase with
  | ready => rw [hphase] at hs'; cases hs'
  | stopped e => rw [hphase] at hs'; cases hs'
  | awaiting j =>
    rw [hphase] at hs'
    simp only at hs'
    cases hget : s.flights[j]? with
    | none => rw [hget] at hs'; cases hs'
    | some f =>
      rw [hget, Option.bind_eq_bind, Option.bind_some] at hs'
      cases hs'
      exact h.failed f .unavailable late

/-- **Any step.** -/
theorem Inv.step (h : Inv job s) {e : Event cl} (hs' : exec host job s e = some s') :
    Inv job s' ∧ (Kept s e → Ordered s → Ordered s') := by
  have hsame : Inv job s' ∧ s'.copies = s.copies →
      Inv job s' ∧ (Kept s e → Ordered s → Ordered s') := fun ⟨h', hcopies⟩ =>
    ⟨h', fun _ hordered => by unfold Ordered; rwa [hcopies]⟩
  cases e with
  | attempt => exact hsame (h.attempt hs')
  | execute j clock elapsed => exact h.execute hs'
  | respond late => exact hsame (h.respond hs')
  | giveUp late => exact hsame (h.giveUp hs')
  | other e =>
    cases hs'
    obtain ⟨cs, hgood⟩ := h.good
    obtain ⟨cs', hgood', hserves⟩ := hgood.step e
    exact hsame ⟨h.still ⟨cs', hgood'⟩ (fun i p => hserves.grows rfl i job.topic p) rfl rfl rfl
      fun _ hj => hj, rfl⟩

/-- At first nothing has been sent. -/
theorem inv_start (h : (system host job).start s) : Inv job s ∧ Ordered s := by
  obtain ⟨setup, bootstrap, -, hnodes, hphase, hflights, hacked, hcopies⟩ := h
  obtain ⟨cs, hgood⟩ := (Cluster.good_empty cl).run setup
  refine ⟨⟨⟨cs, hnodes ▸ hgood⟩, fun f hf => ?_, fun j hj => ?_, fun a ha => ?_, fun a ha => ?_,
    fun i place hplace => ?_⟩, fun a ha => ?_⟩
  · rw [hflights] at hf
    cases hf
  · rw [hphase] at hj
    cases hj
  · rw [hcopies] at ha
    cases ha
  · rw [hcopies] at ha
    cases ha
  · rw [hacked] at hplace
    cases hplace
  · rw [hcopies] at ha
    cases ha

/-- **What retries do to the order.** In every run what is acknowledged is
stored where it is said to be. In every run in which no request is carried
out too late, the copies of the records are in the order in which the records
were sent. -/
theorem kept_order (cl : Cluster) (host : String → Option (Fin cl.brokers)) (job : Job) :
    (∀ s, (system host job).Reachable s → Stored job s ∧ Acknowledged s)
      ∧ ∀ s, ((system host job).given Kept).Reachable s →
        Stored job s ∧ Acknowledged s ∧ Ordered s := by
  refine ⟨fun s hs => ?_, fun s hs => ?_⟩
  · have hinv : Inv job s := hs.invariant (fun _ h => (inv_start h).1)
      fun _ _ _ h hstep => (h.step hstep).1
    exact ⟨hinv.stored, hinv.acknowledged⟩
  · obtain ⟨hinv, hordered⟩ : Inv job s ∧ Ordered s :=
      System.Reachable.invariant (S := (system host job).given Kept)
        (P := fun s => Inv job s ∧ Ordered s) (fun s h =>
          inv_start (show (system host job).start s from h))
        (fun _ _ _ h hstep => ⟨(h.1.step hstep.1).1, (h.1.step hstep.1).2 hstep.2 h.2⟩) hs
    exact ⟨hinv.stored, hinv.acknowledged, hordered⟩

/-! ## A run

What steps come to on a cluster that serves the topic, and two runs made of
them. -/

/-- **A run without trouble so far**: the client can find the owners, the
topic is served, and the requests are on their way to the owner of the
partition. -/
structure Fair (host : String → Option (Fin cl.brokers)) (job : Job) (n p : ℕ) (s : State cl)
    (bins : ℕ → List Given) : Prop where
  reached : (system host job).Reachable s
  client : ∃ turn, s.client.Ready host job.topic n turn
  serving : Cluster.Serving job.topic n bins s.nodes
  flights : ∀ f ∈ s.flights, f.partition = p
    ∧ ∃ i, host f.address = some i ∧ (cl.ring i).ownsPartition job.topic p = true

variable {n p : ℕ} {bins : ℕ → List Given}

/-- What holds of every run holds of such a state. -/
theorem Fair.inv (h : Fair host job n p s bins) : Inv job s :=
  h.reached.invariant (fun _ h => (inv_start h).1) fun _ _ _ h hstep => (h.step hstep).1

/-- A producer that has not sent anything. -/
def State.new (nodes : Cluster.State cl) (client : Connection) : State cl :=
  ⟨nodes, client, .ready, [], [], []⟩

/-- It may be on a cluster after any setup. -/
theorem start_new (setup : List (Cluster.Act cl)) {bootstrap : List String} {c : Connection}
    (hinit : Connection.init bootstrap = .ok c) :
    (system host job).start (.new (cl.machine.run Cluster.State.empty setup).2 c) :=
  ⟨setup, bootstrap, hinit, rfl, rfl, rfl, rfl, rfl⟩

/-- A new producer where the topic has been created. -/
theorem fair_new (setup : List (Cluster.Act cl))
    (hcreated : Cluster.Created job.topic n (cl.machine.run Cluster.State.empty setup).2)
    {bootstrap : List String} {c : Connection} (hinit : Connection.init bootstrap = .ok c)
    (hsome : ∃ address ∈ bootstrap, (host address).isSome) (p : ℕ) :
    Fair host job n p (.new (cl.machine.run Cluster.State.empty setup).2 c) fun _ => [] where
  reached := .start (start_new setup hinit)
  client := ⟨0, Connection.ready_of_init hinit hsome⟩
  serving := hcreated.serving.2
  flights _ hf := by cases hf

/-- A request for the next record is sent. -/
theorem Fair.attempt (h : Fair host job n p s bins) (hreach : cl.Reachable host) (hn : 0 < n)
    {key : Bytes} (hkey : job.key = some key) (hp : keyPartition key n = p)
    (hphase : s.phase = .ready) :
    ∃ s' f, exec host job s .attempt = some s' ∧ Fair host job n p s' bins
      ∧ s'.phase = .awaiting s.flights.length ∧ s'.flights = s.flights ++ [f]
      ∧ f.index = s.acked.length ∧ f.answer = none ∧ s'.acked = s.acked ∧ s'.copies = s.copies := by
  obtain ⟨turn, hready⟩ := h.client
  obtain ⟨address, i, c', nodes', hprepare, hhost, howns, hknows, hserving⟩ :=
    Producer.prepare_spec hreach hn hready h.serving (job.value s.acked.length) job.key
      (job.timestamp s.acked.length)
  have hpart : (Catalog.partitionFor turn job.key n).1 = p := by
    rw [hkey]
    exact hp
  rw [hpart] at hprepare howns
  let f : Flight := ⟨s.acked.length, p, address, ⟨job.topic, job.key, job.value s.acked.length,
    job.timestamp s.acked.length, none, some (p : ℤ)⟩, none⟩
  have hexec : exec host job s .attempt
      = some { s with client := c', nodes := nodes', flights := s.flights ++ [f],
                      phase := .awaiting s.flights.length } := by
    simp only [exec, hphase, hprepare]
    rfl
  refine ⟨_, _, hexec, ⟨h.reached.step hexec, ⟨_, hknows⟩, hserving, fun f hf => ?_⟩, rfl, rfl, rfl,
    rfl, rfl, rfl⟩
  rcases List.mem_append.mp hf with hf | hf
  · exact h.flights f hf
  · rw [List.mem_singleton.mp hf]
    exact ⟨rfl, i, hhost, howns⟩

/-- A request is carried out: a copy is stored. -/
theorem Fair.execute (h : Fair host job n p s bins) (hp : p < n) {j : ℕ} {f : Flight}
    (hget : s.flights[j]? = some f) (hnone : f.answer = none) {clock : ℤ}
    (haccept : Given.Acceptable ⟨job.key, job.value f.index, job.timestamp f.index, clock, 0⟩)
    (hroom : (bins p).length < 2 ^ 63) :
    ∃ s' a, exec host job s (.execute j clock 0) = some s'
      ∧ Fair host job n p s'
        (Bins.put bins (p, ⟨job.key, job.value f.index, job.timestamp f.index, clock, 0⟩))
      ∧ s'.flights = s.flights.set j { f with
          answer := some (.ok ⟨(p : ℤ), ((bins p).length : ℤ), none⟩) }
      ∧ s'.copies = s.copies ++ [a] ∧ a.index = f.index ∧ a.partition = p
        ∧ a.offset = (bins p).length
      ∧ s'.phase = s.phase ∧ s'.acked = s.acked := by
  have hmem := List.mem_of_getElem? hget
  obtain ⟨hpart, i, hhost, howns⟩ := h.flights f hmem
  have hrequest := (h.inv.flights f hmem).request
  rw [hpart] at hrequest
  obtain ⟨nodes', hcall, hserving⟩ := h.serving.produce hhost hp howns haccept hroom
  have hcall : call host f.address s.nodes (fun s v => Handler.produce s v f.request clock 0)
      = (some (.ok ⟨(p : ℤ), ((bins p).length : ℤ), none⟩), nodes') := by
    rw [hrequest]
    exact hcall
  let answer : Except RpcError ProduceResponse := .ok ⟨(p : ℤ), ((bins p).length : ℤ), none⟩
  have hexec : exec host job s (.execute j clock 0)
      = some { s with nodes := nodes', flights := s.flights.set j { f with answer := some answer },
                      copies := s.copies ++ copyOf host f answer } := by
    simp only [exec, hget, Option.bind_eq_bind, Option.bind_some, hnone, hcall]
    rfl
  refine ⟨_, ⟨f.index, i, p, (bins p).length⟩, hexec,
    ⟨h.reached.step hexec, h.client, hserving, fun f' hf' => ?_⟩, rfl, ?_, rfl, rfl, rfl, rfl, rfl⟩
  · rcases mem_set_answer hget hf' with ⟨rfl, -⟩ | hf'
    · exact h.flights f hmem
    · exact h.flights f' hf'
  · simp only [copyOf, answer, hhost, Int.toNat_natCast]

/-- The client hears that its record is stored. -/
theorem Fair.respond (h : Fair host job n p s bins) {j : ℕ} (hphase : s.phase = .awaiting j)
    {f : Flight} (hget : s.flights[j]? = some f) {response : ProduceResponse}
    (hanswer : f.answer = some (.ok response)) :
    ∃ s', exec host job s (.respond false) = some s' ∧ Fair host job n p s' bins ∧ s'.phase = .ready
      ∧ s'.flights = s.flights ∧ s'.acked.length = s.acked.length + 1 ∧ s'.copies = s.copies := by
  have hexec : exec host job s (.respond false)
      = some { s with acked := s.acked ++ [(response.partition, response.offset)],
                      phase := .ready } := by
    simp only [exec, hphase, hget, Option.bind_eq_bind, Option.bind_some, hanswer]
  exact ⟨_, hexec, ⟨h.reached.step hexec, h.client, h.serving, h.flights⟩, rfl, rfl,
    List.length_append, rfl⟩

/-- An attempt ends with `UNAVAILABLE`. -/
theorem Fair.giveUp (h : Fair host job n p s bins) {j : ℕ} (hphase : s.phase = .awaiting j)
    {f : Flight} (hget : s.flights[j]? = some f) :
    ∃ s', exec host job s (.giveUp false) = some s' ∧ Fair host job n p s' bins ∧ s'.phase = .ready
      ∧ s'.flights = s.flights ∧ s'.acked = s.acked ∧ s'.copies = s.copies := by
  have hexec : exec host job s (.giveUp false) = some { s with phase := .ready } := by
    simp only [exec, hphase, hget, Option.bind_eq_bind, Option.bind_some]
    rfl
  exact ⟨_, hexec, ⟨h.reached.step hexec, h.client, h.serving, h.flights⟩, rfl, rfl, rfl, rfl⟩

/-- Records without values, all of one key and time. -/
def pairJob : Job := ⟨"orders", some [7], fun _ => none, fun _ => some 5⟩

/-- A new producer on two brokers that have the topic. -/
def pairStart : State Cluster.pair :=
  .new (Cluster.pair.machine.run Cluster.State.empty Cluster.pairSetup).2 ⟨["pyka-1:9090"], ∅, ⟨0⟩⟩

/-- It can find the owners, and nothing is on its way. -/
theorem fair_pair :
    Fair Cluster.pairHost pairJob 2 (keyPartition [7] 2) pairStart fun _ => [] :=
  @fair_new _ Cluster.pair Cluster.pairHost pairJob 2 Cluster.pairSetup Cluster.created_pair
    ["pyka-1:9090"] ⟨["pyka-1:9090"], ∅, ⟨0⟩⟩ rfl ⟨_, List.mem_singleton_self _, rfl⟩ _

/-- It is a start of the system. -/
theorem start_pair : (system Cluster.pairHost pairJob).start pairStart :=
  start_new Cluster.pairSetup
    (show Connection.init ["pyka-1:9090"] = .ok ⟨["pyka-1:9090"], ∅, ⟨0⟩⟩ from rfl)

/-- The partition of its key is one of the two. -/
theorem keyPartition_pair : keyPartition [7] 2 < 2 := partitionFor_lt Nat.zero_lt_two 0 (some [7])

omit [Crc32] in
/-- Brokers accept its records. -/
theorem acceptable_pair (index : ℕ) :
    Given.Acceptable ⟨pairJob.key, pairJob.value index, pairJob.timestamp index, 0, 0⟩ :=
  show Given.Acceptable ⟨some [7], none, some 5, 0, 0⟩ by decide

omit [Crc32] in
/-- **A record is stored once more behind a later one.** The first attempt is
given up, the second one succeeds, the next record is stored, and then the
broker carries out the first request. -/
theorem reordered : let _ := Crc32.zlib
    ∃ s, (system Cluster.pairHost pairJob).Reachable s ∧ ¬Ordered s := by
  intro _
  have hn := Nat.zero_lt_two
  have hp := keyPartition_pair
  have hlen : ∀ (bins : ℕ → List Given) (g : Given),
      (Bins.put bins (keyPartition [7] 2, g) (keyPartition [7] 2)).length
        = (bins (keyPartition [7] 2)).length + 1 := fun bins g => by
    rw [show Bins.put bins (keyPartition [7] 2, g) (keyPartition [7] 2) = _ from
      Bins.put_self bins (keyPartition [7] 2, g), List.length_append]
    rfl
  -- the first record: given up once, then stored and acknowledged
  obtain ⟨s₁, f₀, -, h₁, hphase₁, hflights₁, hindex₀, hnone₀, hacked₁, hcopies₁⟩ :=
    fair_pair.attempt Cluster.reachable_pair hn rfl rfl rfl
  have hget₁ : s₁.flights[0]? = some f₀ := by rw [hflights₁]; rfl
  obtain ⟨s₂, -, h₂, hphase₂, hflights₂, hacked₂, hcopies₂⟩ := h₁.giveUp hphase₁ hget₁
  obtain ⟨s₃, f₁, -, h₃, hphase₃, hflights₃, hindex₁, hnone₁, hacked₃, hcopies₃⟩ :=
    h₂.attempt Cluster.reachable_pair hn rfl rfl hphase₂
  have hlist₃ : s₃.flights = [f₀, f₁] := by rw [hflights₃, hflights₂, hflights₁]; rfl
  have hawait₃ : s₃.phase = .awaiting 1 := by rw [hphase₃, hflights₂, hflights₁]; rfl
  have hget₃ : s₃.flights[1]? = some f₁ := by rw [hlist₃]; rfl
  obtain ⟨s₄, a₁, -, h₄, hflights₄, hcopies₄, -, -, -, hphase₄, hacked₄⟩ :=
    h₃.execute hp hget₃ hnone₁ (acceptable_pair _) (Nat.two_pow_pos 63)
  rw [hlist₃] at hflights₄
  obtain ⟨s₅, -, h₅, hphase₅, hflights₅, hacked₅, hcopies₅⟩ :=
    h₄.respond (hphase₄.trans hawait₃) (by rw [hflights₄]; rfl) rfl
  -- the second record is stored
  obtain ⟨s₆, f₂, -, h₆, -, hflights₆, hindex₂, hnone₂, -, hcopies₆⟩ :=
    h₅.attempt Cluster.reachable_pair hn rfl rfl hphase₅
  rw [hflights₅, hflights₄] at hflights₆
  have hget₆ : s₆.flights[2]? = some f₂ := by rw [hflights₆]; rfl
  obtain ⟨s₇, a₂, -, h₇, hflights₇, hcopies₇, ha₂, hpart₂, hoff₂, -, -⟩ :=
    h₆.execute hp hget₆ hnone₂ (acceptable_pair _)
      (by rw [hlen]; decide)
  rw [hflights₆] at hflights₇
  -- the first request is carried out
  have hget₇ : s₇.flights[0]? = some f₀ := by rw [hflights₇]; rfl
  obtain ⟨s₈, a₀, -, h₈, -, hcopies₈, ha₀, hpart₀, hoff₀, -, -⟩ :=
    h₇.execute hp hget₇ hnone₀ (acceptable_pair _)
      (by rw [hlen, hlen]; decide)
  refine ⟨s₈, h₈.reached, fun hordered => ?_⟩
  have hlate : a₀ ∈ s₈.copies := by
    rw [hcopies₈]
    exact List.mem_append_right _ List.mem_cons_self
  have hlater : a₂ ∈ s₈.copies := by
    rw [hcopies₈, hcopies₇]
    exact List.mem_append_left _ (List.mem_append_right _ List.mem_cons_self)
  have hindex : a₀.index < a₂.index := by
    rw [ha₀, ha₂, hindex₀, hindex₂, hacked₅]
    exact Nat.zero_lt_succ _
  have hlt := hordered a₀ hlate a₂ hlater (hpart₀.trans hpart₂.symm) hindex
  rw [hoff₀, hoff₂, hlen _ (Given.mk _ _ _ _ _)] at hlt
  omega

/-- A step of the two brokers' clients, taken only if no request is carried out
after a later one for its partition. -/
def execKept (s : State Cluster.pair) : Event Cluster.pair → Option (State Cluster.pair)
  | .execute j clock elapsed =>
    if (s.flights[j]?).all fun f => s.copies.all fun a =>
        a.partition != f.partition || a.index ≤ f.index then
      exec Cluster.pairHost pairJob s (.execute j clock elapsed) else none
  | e => exec Cluster.pairHost pairJob s e

/-- Each such step is one of the system, under the condition. -/
theorem execKept_some {s s' : State Cluster.pair} {e : Event Cluster.pair}
    (h : execKept s e = some s') :
    ((system Cluster.pairHost pairJob).given Kept).step s e s' := by
  cases e with
  | execute j clock elapsed =>
    obtain ⟨hall, hexec⟩ := Option.ite_none_right_eq_some.mp h
    refine ⟨hexec, fun f hf a ha hsame => ?_⟩
    rw [hf, Option.all_some, List.all_eq_true] at hall
    simpa [hsame] using hall a ha
  | _ => exact ⟨h, trivial⟩

omit [Crc32] in
/-- The first record is given up and sent again, and both requests are carried
out before the next record is: the partition has it twice, and then its
successor. -/
theorem kept_order_retried : let _ := Crc32.zlib
    ∃ s, ((system Cluster.pairHost pairJob).given Kept).Reachable s
      ∧ s.acked = [(0, 0), (0, 2)]
      ∧ s.copies.map (fun a => (a.index, a.partition, a.offset)) = [(0, 0, 0), (0, 0, 1), (1, 0, 2)]
      ∧ Stored pairJob s ∧ Acknowledged s ∧ Ordered s := by
  intro _
  let events : List (Event Cluster.pair) := [.attempt, .giveUp false, .attempt, .execute 1 7 0,
    .respond false, .execute 0 7 0, .attempt, .execute 2 7 0, .respond false]
  have hrun : (events.foldlM execKept pairStart).map (fun s => (s.acked,
      s.copies.map fun a => (a.index, a.partition, a.offset)))
      = some ([(0, 0), (0, 2)], [(0, 0, 0), (0, 0, 1), (1, 0, 2)]) := by
    decide +kernel
  obtain ⟨s, hs, heq⟩ := Option.map_eq_some_iff.mp hrun
  obtain ⟨hacked, hcopies⟩ := Prod.mk.inj heq
  have hreach : ((system Cluster.pairHost pairJob).given Kept).Reachable s :=
    (System.Reachable.start (S := (system Cluster.pairHost pairJob).given Kept) start_pair).foldlM
      (fun _ _ _ h => execKept_some h) hs
  exact ⟨s, hreach, hacked, hcopies, (kept_order Cluster.pair Cluster.pairHost pairJob).2 s hreach⟩

end Retries

end Pyka
