import Pyka.Client.Serving
import Pyka.Cluster.Creation

/-!
# What a client sends is what a consumer gets

A producer on a cluster whose brokers all have the topic with the same number
of partitions, and nobody else who writes to it. Its records go into bins by
their partitions (`routes`), each broker holding the bins of its own
(`Cluster.Serving`). A batch is regrouped by address, which keeps the order of
what goes to one partition. So each call answers with the places of its
records, and a consumer of a partition gets what is in the bin
(`Producer.delivered`).

## What is asked of the cluster

That every broker is up, has the topic and has no records of it
(`Cluster.Created`), and that each can be reached at the address its ring says
(`Cluster.Reachable`). Both are about the state before the producer begins;
the first is what creating a topic on all brokers leaves, unless a record came
first (`Fresh.created`). Anything may have happened to the brokers before.

## The argument

The client finds out who the owners are from any broker, since all compute the
same table (`Routing.leads_of`). From there on it knows them
(`Connection.Knows`), and where it sends a record is the owner of the
partition that it has computed. The order of records comes in twice. Routing
goes record by record, in the order given. Sending a batch does not: it goes
address by address, and only within one address in the order given; but two
records of one partition have one address, so the bins are filled in the same
order as if the records had been sent one by one. That is `Base.Grouping`.

The calls are put together by induction, with the bins as they will be in the
end as a parameter, so that the place a call has returned is still the place
of its record when all others are done.
-/

namespace Pyka

open Struct (Bytes)

namespace Producer

/-- A call of a producer: `send` with its attempts, or `send_batch`. -/
inductive Call
  | send (value key : Option Bytes) (timestamp : Option ℤ) (attempt : Attempt)
      (attempts : List Attempt)
  | sendBatch (records : List (Option Bytes × Option Bytes × ℤ × ℚ))

/-- The records given in a call, in the order in which they are given. -/
def Call.given : Call → List Given
  | send value key timestamp attempt _ => [⟨key, value, timestamp, attempt.clock, attempt.elapsed⟩]
  | sendBatch records => records.map fun r => ⟨r.1, r.2.1, none, r.2.2.1, r.2.2.2⟩

/-- **One call after another** to a topic, each with what it returns or
raises. -/
def machine [Crc32] {cl : Cluster} (host : String → Option (Fin cl.brokers)) (topic : String) :
    Machine (Connection × Cluster.State cl) Call (Option (Except ClientError (List (ℤ × ℤ)))) where
  step s
    | .send value key timestamp attempt attempts =>
      let (res, c, nodes) := send host s.1 s.2 topic value key timestamp (attempt :: attempts)
      (res.map fun res => res.map fun place => [place], c, nodes)
    | .sendBatch records =>
      let (res, c, nodes) := sendBatch host s.1 s.2 topic records
      (some res, c, nodes)

end Producer

/-! ## Where records go

What the client computes, without looking at any broker. -/

section Routes

variable [Crc32] {n : ℕ}

/-- The turn after some records: those with a key take none. -/
def turnAfter (n turn : ℕ) (gs : List Given) : ℕ :=
  gs.foldl (fun turn g => (Catalog.partitionFor turn g.key n).2) turn

/-- **Each record with its partition**, by its key or in turn. -/
def routes (n : ℕ) : ℕ → List Given → List (ℕ × Given)
  | _, [] => []
  | turn, g :: gs =>
    ((Catalog.partitionFor turn g.key n).1, g) :: routes n (Catalog.partitionFor turn g.key n).2 gs

/-- Records are routed one after the other, so a list can be routed in two
parts. -/
theorem routes_append (turn : ℕ) (gs gs' : List Given) :
    routes n turn (gs ++ gs') = routes n turn gs ++ routes n (turnAfter n turn gs) gs' := by
  induction gs generalizing turn with
  | nil => rfl
  | cons g gs ih => exact congrArg _ (ih _)

/-- Routing leaves out no record and changes none. -/
theorem map_snd_routes (turn : ℕ) (gs : List Given) : (routes n turn gs).map Prod.snd = gs := by
  induction gs generalizing turn with
  | nil => rfl
  | cons g gs ih => exact congrArg _ (ih _)

/-- Every record goes to a partition that there is. -/
theorem partitionFor_lt (hn : 0 < n) (turn : ℕ) (key : Option Bytes) :
    (Catalog.partitionFor turn key n).1 < n := by
  cases key with
  | none => exact Nat.mod_lt turn hn
  | some key => exact Nat.mod_lt _ hn

/-- A record that was routed is one of those given, and a keyed one goes where
its key says. -/
theorem mem_routes {turn : ℕ} {gs : List Given} (hn : 0 < n) {e : ℕ × Given}
    (he : e ∈ routes n turn gs) :
    e.1 < n ∧ e.2 ∈ gs ∧ ∀ key, e.2.key = some key → e.1 = keyPartition key n := by
  induction gs generalizing turn with
  | nil => cases he
  | cons g gs ih =>
    rcases List.mem_cons.mp he with rfl | he
    · refine ⟨partitionFor_lt hn turn g.key, List.mem_cons_self, fun key hkey => ?_⟩
      show (Catalog.partitionFor turn g.key n).1 = _
      rw [show g.key = some key from hkey]
      rfl
    · obtain ⟨hlt, hmem, hkey⟩ := ih he
      exact ⟨hlt, List.mem_cons_of_mem _ hmem, hkey⟩

/-- The records that go to a partition, in the order in which they are given. -/
def routed (n : ℕ) (gs : List Given) (p : ℕ) : List Given :=
  ((routes n 0 gs).filter fun e => e.1 = p).map Prod.snd

end Routes

/-! ## The cluster

Brokers that serve one topic between them. A request to one of them changes
what that one holds, and the bins of no other. -/

namespace Cluster

variable [Crc32] {cl : Cluster}

/-- **Brokers that serve a topic**, each what its ring gives to it. -/
def Serving (topic : String) (n : ℕ) (bins : ℕ → List Given) (nodes : State cl) : Prop :=
  ∀ i, ∃ s c, (nodes i).store = some s ∧ s.Serves (.of (nodes i).root) (cl.ring i) topic n bins c

/-- **Every broker is up and has the topic**, with so many partitions and no
records yet. -/
def Created (topic : String) (n : ℕ) (nodes : State cl) : Prop :=
  ∀ i, (nodes i).store ≠ none ∧ (nodes i).root.metaFile topic = some (TopicJson.dumps n)
    ∧ ∀ p, (nodes i).root.records topic p = []

/-- **Every broker can be reached** at the address that the ring says. -/
def Reachable (cl : Cluster) (host : String → Option (Fin cl.brokers)) : Prop :=
  ∀ i : Fin cl.brokers, ∃ address, cl.address i = .ok address ∧ host address = some i

variable {topic : String} {n : ℕ} {bins bins' : ℕ → List Given} {nodes : State cl}
  {host : String → Option (Fin cl.brokers)} {address : String} {i : Fin cl.brokers}

/-- Where a topic has been created it is served. -/
theorem Created.serving {setup : List (Act cl)}
    (h : Created topic n (cl.machine.run State.empty setup).2) :
    0 < n ∧ Serving topic n (fun _ => []) (cl.machine.run State.empty setup).2 := by
  obtain ⟨cs, hgood⟩ := (good_empty cl).run setup
  have hcount : ∀ i, (cs i).counts topic = some n := fun i =>
    (hgood.owned i).good.stores.count_of (h i).2.1
  refine ⟨((hgood.owned ⟨0, cl.brokers_pos⟩).good.stores.names (hcount _)).2, fun i => ?_⟩
  obtain ⟨s, hs⟩ := Option.ne_none_iff_exists'.mp (h i).1
  refine ⟨s, cs i, hs, (hgood.owned i).good.rep hs, (hgood.owned i).sameRing s hs, hcount i,
    fun p _ => ?_⟩
  rw [← (hgood.owned i).good.stores.records_eq]
  exact (h i).2.2 p

/-- A broker goes on, and what the others hold is as it was. -/
theorem Serving.update (h : Serving topic n bins nodes) {s : Store} {v : Volume} {c : Catalog}
    (hs : s.Serves v (cl.ring i) topic n bins' c)
    (hother : ∀ j, j ≠ i → ∀ p, (cl.ring j).ownsPartition topic p = true → bins' p = bins p) :
    Serving topic n bins' (Function.update nodes i ⟨some s, v.root⟩) := by
  intro j
  by_cases hj : j = i
  · subst hj
    rw [Function.update_self]
    exact ⟨s, c, rfl, hs.of⟩
  · rw [Function.update_of_ne hj]
    obtain ⟨s', c', hs', h'⟩ := h j
    exact ⟨s', c', hs', h'.congr (hother j hj)⟩

omit [Crc32] in
/-- **A call that the broker answers.** -/
theorem call_eq {α : Type} {f : Store → Volume → α × Store × Volume} {s s' : Store} {v : Volume}
    {answer : α} (hhost : host address = some i) (hs : (nodes i).store = some s)
    (hf : f s (.of (nodes i).root) = (answer, s', v)) :
    call host address nodes f = (some answer, Function.update nodes i ⟨some s', v.root⟩) := by
  unfold call
  simp only [hhost, hs, hf]

omit [Crc32] in
/-- A partition that one broker owns no other one does. -/
theorem ownsPartition_unique {p : ℕ} {i j : Fin cl.brokers}
    (hi : (cl.ring i).ownsPartition topic p = true)
    (hj : (cl.ring j).ownsPartition topic p = true) :
    i = j := by
  obtain ⟨k, -, hk⟩ := cl.exists_owner topic (Int.natCast_nonneg p)
  have howner : ∀ {i : Fin cl.brokers}, (cl.ring i).ownsPartition topic p = true → i = k :=
    fun {i} hi => hk i (((cl.ring i).ownsPartition_eq topic p).trans (congrArg _ hi))
  rw [howner hi, howner hj]

omit [Crc32] in
/-- What goes to partitions of one broker is nothing to the others. -/
theorem putAll_others {es : List (ℕ × Given)}
    (hes : ∀ e ∈ es, (cl.ring i).ownsPartition topic e.1 = true) (j : Fin cl.brokers) (hj : j ≠ i)
    (p : ℕ) (ho : (cl.ring j).ownsPartition topic p = true) : Bins.putAll bins es p = bins p := by
  have hnone : (es.filter fun e => e.1 = p) = [] := List.filter_eq_nil_iff.mpr fun e he heq => by
    have heq : e.1 = p := of_decide_eq_true heq
    exact hj (ownsPartition_unique ho (heq ▸ hes e he))
  rw [Bins.putAll_apply, hnone, List.map_nil, List.append_nil]

/-- **A stream of records** for partitions of one broker: it puts them into
their bins, and answers with their places. -/
theorem Serving.stream (h : Serving topic n bins nodes) (hhost : host address = some i)
    {es : List (ℕ × Given)}
    (hes : ∀ e ∈ es, e.1 < n ∧ (cl.ring i).ownsPartition topic e.1 = true ∧ e.2.Acceptable)
    (hlen : ∀ p, (Bins.putAll bins es p).length ≤ 2 ^ 63) :
    ∃ nodes', call host address nodes (fun s v =>
        let (responses, failure, s, v) := Handler.produceStream s v
          (es.map fun e => (e.2.request topic e.1, e.2.clock, e.2.elapsed))
        ((responses, failure), s, v))
      = (some ((Bins.places bins es).map (fun place => ⟨place.1, place.2, none⟩), none), nodes')
      ∧ Serving topic n (Bins.putAll bins es) nodes' := by
  obtain ⟨s, c, hs, hserves⟩ := h i
  obtain ⟨s', v', c', hstream, h'⟩ := hserves.produceStream hes hlen
  exact ⟨_, call_eq hhost hs (by simp only [hstream]),
    h.update h' (putAll_others fun e he => (hes e he).2.1)⟩

/-- **One record** for a partition of a broker. -/
theorem Serving.produce (h : Serving topic n bins nodes) (hhost : host address = some i) {p : ℕ}
    (hp : p < n) (ho : (cl.ring i).ownsPartition topic p = true) {g : Given} (hg : g.Acceptable)
    (hlen : (bins p).length < 2 ^ 63) :
    ∃ nodes', call host address nodes (fun s v =>
        Handler.produce s v (g.request topic p) g.clock g.elapsed)
      = (some (.ok ⟨p, (bins p).length, none⟩), nodes')
      ∧ Serving topic n (Bins.putAll bins [(p, g)]) nodes' := by
  obtain ⟨s, c, hs, hserves⟩ := h i
  obtain ⟨s', v', c', hprod, h'⟩ := hserves.produce hp ho hg hlen
  refine ⟨_, call_eq hhost hs hprod, h.update h' (putAll_others fun e he => ?_)⟩
  rw [List.mem_singleton.mp he]
  exact ho

/-- Where nobody produces there are no records, whatever else is asked. -/
theorem records_unproduced {acts : List (Act cl)}
    (hacts : ∀ e ∈ acts, ∀ request clock elapsed, e.act ≠ .ask (.produce request clock elapsed))
    (i : Fin cl.brokers) (name : String) (p : ℕ) :
    ((cl.machine.run State.empty acts).2 i).root.records name p = [] := by
  suffices hkept : ∀ nodes cs, Good cl nodes cs → (nodes i).root.records name p = [] →
      ((cl.machine.run nodes acts).2 i).root.records name p = [] from
    hkept _ _ (good_empty cl) rfl
  induction acts with
  | nil => exact fun _ _ _ h => h
  | cons e acts ih =>
    intro nodes cs hgood hnone
    obtain ⟨cs', hgood', hserves⟩ := hgood.step e
    refine ih (fun e' he' => hacts e' (List.mem_cons_of_mem _ he')) _ cs' hgood' ?_
    rw [hserves.unchanged fun response hanswer => ?_]
    · exact hnone
    · obtain ⟨request, clock, elapsed, hact⟩ := Node.produced_step hanswer
      exact hacts e List.mem_cons_self request clock elapsed hact

/-- **Told to create a topic, all brokers have it**, where none of them knows
it and nobody has produced. -/
theorem Fresh.created {setup : List (Act cl)} {defaults : Fin cl.brokers → ℕ}
    (hfresh : Fresh topic defaults (cl.machine.run State.empty setup).2)
    (hname : validateName topic = .ok ()) (hn : 0 < n) {is : List (Fin cl.brokers)}
    (hall : ∀ i, i ∈ is)
    (hsetup : ∀ e ∈ setup, ∀ request clock elapsed, e.act ≠ .ask (.produce request clock elapsed)) :
    Created topic n (cl.machine.run State.empty
      (setup ++ is.map fun i => .ask i (.create topic (some n)))).2 := by
  intro i
  have hfirst : firstAt (is.map fun i => (i, Contact.create)) i = some .create := by
    unfold firstAt
    cases hfind : (is.map fun i => (i, Contact.create)).find? fun e => e.1 = i with
    | none =>
      have hne := List.find?_eq_none.mp hfind _ (List.mem_map_of_mem (hall i))
      exact absurd (decide_eq_true rfl) hne
    | some e =>
      obtain ⟨j, -, rfl⟩ := List.mem_map.mp (List.mem_of_find?_eq_some hfind)
      rfl
  have hrun : (cl.machine.run State.empty
        (setup ++ is.map fun i => .ask i (.create topic (some n)))).2
      = contacted cl topic n (is.map fun i => (i, Contact.create))
          (cl.machine.run State.empty setup).2 := by
    unfold contacted
    rw [Machine.run_append, List.map_map]
    rfl
  obtain ⟨s, c, hs, hgood, -, hcount⟩ :=
    knows_contacted hfresh.knows hname hn (is.map fun i => (i, Contact.create)) i
  rw [hfirst] at hcount
  have hmeta := hgood.stores.metaFile topic
  rw [hcount] at hmeta
  rw [← hrun] at hs hmeta
  refine ⟨fun hnone => ?_, hmeta, records_unproduced (fun e he => ?_) i topic⟩
  · cases hnone.symm.trans hs
  · rcases List.mem_append.mp he with he | he
    · exact hsetup e he
    · obtain ⟨j, -, rfl⟩ := List.mem_map.mp he
      exact fun _ _ _ h => by cases h

/-- Two brokers that were told of a topic have it. -/
theorem created_pair : Created "orders" 2 (pair.machine.run State.empty pairSetup).2 := by
  refine (fresh_pair "orders").created (by decide +kernel) (by decide)
    (fun i => match i with
      | 0 => List.mem_cons_self
      | 1 => List.mem_cons_of_mem _ List.mem_cons_self) fun e he request clock elapsed h => ?_
  simp only [List.mem_cons, List.not_mem_nil, or_false] at he
  rcases he with rfl | rfl <;> cases h

omit [Crc32] in
/-- And both can be reached. -/
theorem reachable_pair : pair.Reachable pairHost := fun i => match i with
  | 0 => ⟨"pyka-0:9090", rfl, rfl⟩
  | 1 => ⟨"pyka-1:9090", rfl, rfl⟩

end Cluster

/-! ## Routing

From a table of `Metadata` to a client that knows the owners. -/

/-- **A table that leads to the owner** of every partition. -/
structure Routing.Leads (table : Routing) (cl : Cluster) (host : String → Option (Fin cl.brokers))
    (topic : String) (n : ℕ) : Prop where
  len : table.len = n
  lookup : ∀ p < n, ∃ address i, table.lookup (p : ℤ) = some address ∧ host address = some i
    ∧ (cl.ring i).ownsPartition topic p = true

/-- The address of a partition's owner, by the table. -/
def Routing.address (table : Routing) (p : ℕ) : String := (table.lookup (p : ℤ)).getD ""

/-- **A table in which the partitions of some records are**, beginning with a
turn. -/
def Routing.Covers [Crc32] (table : Routing) (turn : ℕ) (gs : List Given) : Prop :=
  ∀ e ∈ routes table.len turn gs, 0 < table.len ∧ (table.lookup (e.1 : ℤ)).isSome

/-- A table of different partitions has an entry for each. -/
theorem Routing.foldl_insert {table : List (ℕ × ℕ × String)} (hnodup : (table.map Prod.fst).Nodup)
    {routing : Routing} (hnew : ∀ e ∈ table, (e.1 : ℤ) ∉ routing) :
    (table.foldl (fun routing p => routing.insert (p.1 : ℤ) p.2.2) routing).len
        = routing.len + table.length
      ∧ (∀ e ∈ table, (table.foldl (fun routing p => routing.insert (p.1 : ℤ) p.2.2) routing).lookup
          (e.1 : ℤ) = some e.2.2)
      ∧ ∀ k : ℤ, (∀ e ∈ table, (e.1 : ℤ) ≠ k) →
        (table.foldl (fun routing p => routing.insert (p.1 : ℤ) p.2.2) routing).lookup k
          = routing.lookup k := by
  induction table generalizing routing with
  | nil => exact ⟨rfl, fun e he => (by cases he), fun _ _ => rfl⟩
  | cons e table ih =>
    obtain ⟨hfirst, hrest⟩ := List.nodup_cons.mp hnodup
    have hne : ∀ e' ∈ table, (e'.1 : ℤ) ≠ e.1 := fun e' he' heq =>
      hfirst (Int.ofNat.inj heq ▸ List.mem_map_of_mem he')
    let extended : Routing := routing.insert (e.1 : ℤ) e.2.2
    have hnew' : ∀ e' ∈ table, (e'.1 : ℤ) ∉ extended := fun e' he' h =>
      ((AList.mem_insert _).mp h).elim (hne e' he') (hnew e' (List.mem_cons_of_mem _ he'))
    obtain ⟨hlen, hmem, hother⟩ := ih hrest hnew'
    refine ⟨?_, fun e' he' => ?_, fun k hk => ?_⟩
    · have hkeys : extended.len = routing.len + 1 := by
        unfold Routing.len
        rw [AList.keys_insert, List.erase_of_not_mem (hnew e List.mem_cons_self), List.length_cons]
      rw [List.foldl_cons, hlen, hkeys, List.length_cons, Nat.add_assoc, Nat.add_comm 1]
    · rcases List.mem_cons.mp he' with rfl | he'
      · rw [List.foldl_cons, hother _ hne, AList.lookup_insert]
      · exact hmem e' he'
    · rw [List.foldl_cons, hother k fun e' he' => hk e' (List.mem_cons_of_mem _ he'),
        AList.lookup_insert_ne (Ne.symm (hk e List.mem_cons_self))]

/-- **What `Metadata` answers leads to the owners**, if every broker can be
reached. -/
theorem Routing.leads_of {cl : Cluster} {host : String → Option (Fin cl.brokers)}
    (hreach : cl.Reachable host) {i : Fin cl.brokers} {topic : String} {n : ℕ}
    {table : List (ℕ × ℕ × String)} (hfst : table.map Prod.fst = List.range n)
    (h : ∀ e ∈ table, ∃ b, (cl.ring i).brokerFor topic e.1 = .ok b
      ∧ (cl.ring i).address b = .ok e.2.2) :
    (Routing.of table).Leads cl host topic n := by
  have hnew : ∀ e ∈ table, (e.1 : ℤ) ∉ (∅ : Routing) := fun _ _ => AList.notMem_empty _
  obtain ⟨hlen, hmem, -⟩ := foldl_insert (hfst ▸ List.nodup_range) hnew
  refine ⟨hlen.trans ?_, fun p hp => ?_⟩
  · rw [← List.length_map (f := Prod.fst), hfst, List.length_range]
    exact Nat.zero_add n
  · obtain ⟨e, he, rfl⟩ := List.mem_map.mp (hfst ▸ List.mem_range.mpr hp)
    obtain ⟨b, hfor, haddr⟩ := h e he
    obtain ⟨b', hb, hfor', howns⟩ := (cl.ring i).owns_eq_ok topic (Int.natCast_nonneg e.1)
    cases hfor.symm.trans hfor'
    obtain ⟨address, haddr', hhost⟩ := hreach ⟨b, hb⟩
    cases haddr.symm.trans haddr'
    refine ⟨e.2.2, ⟨b, hb⟩, hmem e he, hhost, ?_⟩
    obtain ⟨b', -, hfor', howns⟩ := (cl.ring ⟨b, hb⟩).owns_eq_ok topic (Int.natCast_nonneg e.1)
    cases hfor'.symm.trans ((Ring.brokerFor_congr rfl rfl topic e.1).trans hfor)
    rw [Ring.ownsPartition_eq] at howns
    exact (Except.ok.inj howns).trans (decide_eq_true rfl)

namespace Connection

variable [Crc32] {cl : Cluster} {host : String → Option (Fin cl.brokers)} {topic : String}
  {n turn : ℕ} {bins : ℕ → List Given} {nodes : Cluster.State cl} {c : Connection} {table : Routing}

/-- **A client that knows the owners**: it keeps a table that leads to them. -/
structure Knows (c : Connection) (host : String → Option (Fin cl.brokers)) (topic : String)
    (n turn : ℕ) (table : Routing) : Prop where
  cached : c.cache.lookup topic = some table
  leads : table.Leads cl host topic n
  turn : c.partitioner = ⟨turn⟩

/-- **A client that can find the owners**: it knows them, or some bootstrap
address leads to a broker. -/
def Ready (c : Connection) (host : String → Option (Fin cl.brokers)) (topic : String)
    (n turn : ℕ) : Prop :=
  (∃ table, c.Knows host topic n turn table)
    ∨ c.cache.lookup topic = none ∧ (∃ address ∈ c.bootstrap, (host address).isSome)
      ∧ c.partitioner = ⟨turn⟩

/-- **The first bootstrap address that answers** says who the owners are. -/
theorem fetchRouting_spec (hreach : cl.Reachable host) (h : Cluster.Serving topic n bins nodes)
    {addresses : List String} (hsome : ∃ address ∈ addresses, (host address).isSome)
    (last : Option RpcError) :
    ∃ table nodes', fetchRouting host topic nodes addresses last = (.ok table, nodes')
      ∧ table.Leads cl host topic n ∧ Cluster.Serving topic n bins nodes' := by
  induction addresses generalizing last with
  | nil =>
    obtain ⟨address, hmem, -⟩ := hsome
    cases hmem
  | cons address addresses ih =>
    cases hhost : host address with
    | none =>
      -- nobody there, so the next one is asked
      have hcall : call host address nodes (fun s v => Handler.metadata s v topic)
          = (none, nodes) := by
        unfold call
        simp only [hhost]
      obtain ⟨address', hmem, hsome'⟩ := hsome
      have hrest : ∃ address ∈ addresses, (host address).isSome := by
        rcases List.mem_cons.mp hmem with rfl | hmem
        · rw [hhost] at hsome'
          cases hsome'
        · exact ⟨address', hmem, hsome'⟩
      obtain ⟨table, nodes', hfetch, hleads, h'⟩ := ih hrest (some .unavailable)
      refine ⟨table, nodes', ?_, hleads, h'⟩
      rw [fetchRouting, hcall]
      exact hfetch
    | some i =>
      obtain ⟨s, c, hs, hserves⟩ := h i
      obtain ⟨table, s', v', c', hmeta, h', hfst, howners⟩ :=
        hserves.metadata fun b hb => (hreach ⟨b, hb⟩).imp fun _ ha => ha.1
      refine ⟨.of table, _, ?_, Routing.leads_of hreach hfst howners,
        h.update h' fun _ _ _ _ => rfl⟩
      rw [fetchRouting, Cluster.call_eq hhost hs hmeta]
      rfl

/-- **Asking for the routing** makes a client know the owners. -/
theorem Ready.routing (hc : c.Ready host topic n turn) (hreach : cl.Reachable host)
    (h : Cluster.Serving topic n bins nodes) :
    ∃ table c' nodes', c.routing host nodes topic false = (.ok table, c', nodes')
      ∧ c'.Knows host topic n turn table ∧ Cluster.Serving topic n bins nodes' := by
  rcases hc with ⟨table, hknows⟩ | ⟨hnone, hsome, hturn⟩
  · refine ⟨table, c, nodes, ?_, hknows, h⟩
    unfold Connection.routing
    simp only [Bool.false_eq_true, if_false, hknows.cached]
  · obtain ⟨table, nodes', hfetch, hleads, h'⟩ := fetchRouting_spec hreach h hsome none
    refine ⟨table, { c with cache := c.cache.insert topic table }, nodes', ?_,
      ⟨AList.lookup_insert _, hleads, hturn⟩, h'⟩
    unfold Connection.routing
    simp only [Bool.false_eq_true, if_false, hnone, hfetch]

/-- A client that keeps a table asks nobody. -/
theorem routing_of_cached (hc : c.cache.lookup topic = some table) :
    c.routing host nodes topic false = (.ok table, c, nodes) := by
  unfold Connection.routing
  simp only [Bool.false_eq_true, if_false, hc]

/-- The partition of a record, computed by the client. -/
theorem partitionFor_of_cached (hc : c.cache.lookup topic = some table)
    (nodes : Cluster.State cl) (hn : 0 < table.len) (key : Option Bytes) :
    c.partitionFor host nodes topic key
      = (.ok (Catalog.partitionFor c.partitioner.next key table.len).1,
          { c with partitioner := ⟨(Catalog.partitionFor c.partitioner.next key table.len).2⟩ },
          nodes) := by
  unfold Connection.partitionFor
  rw [routing_of_cached hc]
  simp only [Partitioner.partitionFor, if_neg (show ¬table.len < 1 by omega)]
  cases key <;> rfl

/-- A client that knows the owners asks nobody for them. -/
theorem Knows.routing (hc : c.Knows host topic n turn table) :
    c.routing host nodes topic false = (.ok table, c, nodes) := routing_of_cached hc.cached

/-- It routes by the number of partitions that there is. -/
theorem Knows.partitionFor (hc : c.Knows host topic n turn table) (nodes : Cluster.State cl)
    (hn : 0 < n)
    (key : Option Bytes) :
    ∃ c', c.partitionFor host nodes topic key
        = (.ok (Catalog.partitionFor turn key n).1, c', nodes)
      ∧ c'.Knows host topic n (Catalog.partitionFor turn key n).2 table := by
  have hpart :=
    @partitionFor_of_cached _ cl host topic c table hc.cached nodes (hc.leads.len.symm ▸ hn) key
  rw [hc.leads.len, hc.turn] at hpart
  exact ⟨_, hpart, hc.cached, hc.leads, rfl⟩

end Connection

/-! ## Calls of a producer

Each call by what it puts into the bins, and what it returns. -/

namespace Producer

variable [Crc32] {cl : Cluster} {host : String → Option (Fin cl.brokers)} {topic : String}
  {n turn : ℕ} {bins : ℕ → List Given} {nodes : Cluster.State cl} {c : Connection} {table : Routing}

/-- **What a `send` sends**, and to whom: the owner of the partition. -/
theorem prepare_spec (hreach : cl.Reachable host) (hn : 0 < n) (hc : c.Ready host topic n turn)
    (h : Cluster.Serving topic n bins nodes) (value key : Option Bytes) (timestamp : Option ℤ) :
    ∃ address i c' nodes', prepare host c nodes topic value key timestamp
        = (.ok ((Catalog.partitionFor turn key n).1, address,
            ⟨topic, key, value, timestamp, none, some ((Catalog.partitionFor turn key n).1 : ℤ)⟩),
          c', nodes')
      ∧ host address = some i
      ∧ (cl.ring i).ownsPartition topic (Catalog.partitionFor turn key n).1 = true
      ∧ c'.Ready host topic n (Catalog.partitionFor turn key n).2
      ∧ Cluster.Serving topic n bins nodes' := by
  obtain ⟨table, c₁, nodes₁, hrouting, hknows₁, h₁⟩ := hc.routing hreach h
  have hpart : c.partitionFor host nodes topic key
      = c₁.partitionFor host nodes₁ topic key := by
    unfold Connection.partitionFor
    rw [hrouting, hknows₁.routing]
  obtain ⟨c₂, hpart₂, hknows₂⟩ := hknows₁.partitionFor nodes₁ hn key
  obtain ⟨address, i, hlookup, hhost, howns⟩ :=
    hknows₂.leads.lookup _ (partitionFor_lt hn turn key)
  refine ⟨address, i, c₂, nodes₁, ?_, hhost, howns, Or.inl ⟨table, hknows₂⟩, h₁⟩
  unfold prepare Connection.addressFor
  rw [hpart, hpart₂]
  simp only [hknows₂.routing, hlookup]

/-- **A `send`** puts its record into its bin at the first attempt, and
returns its place. -/
theorem send_spec (hreach : cl.Reachable host) (hn : 0 < n)
    (hc : c.Ready host topic n turn) (h : Cluster.Serving topic n bins nodes)
    {value key : Option Bytes}
    {timestamp : Option ℤ} {attempt : Attempt} {g : Given}
    (hg : g = ⟨key, value, timestamp, attempt.clock, attempt.elapsed⟩) (haccept : g.Acceptable)
    (hlen : ∀ p, (Bins.putAll bins (routes n turn [g]) p).length ≤ 2 ^ 63)
    (attempts : List Attempt) :
    ∃ p k c' nodes', send host c nodes topic value key timestamp (attempt :: attempts)
        = (some (.ok ((p : ℕ), (k : ℕ))), c', nodes')
      ∧ Bins.places bins (routes n turn [g]) = [(p, k)]
      ∧ c'.Ready host topic n (turnAfter n turn [g])
      ∧ Cluster.Serving topic n (Bins.putAll bins (routes n turn [g])) nodes' := by
  subst hg
  obtain ⟨address, i, c₂, nodes₁, hprepare, hhost, howns, hready, h₁⟩ :=
    prepare_spec hreach hn hc h value key timestamp
  have hroom : (bins (Catalog.partitionFor turn key n).1).length < 2 ^ 63 := by
    have hfull := hlen (Catalog.partitionFor turn key n).1
    rw [show Bins.putAll bins (routes n turn [_]) = Bins.put bins (_, _) from rfl, Bins.put_self,
      List.length_append] at hfull
    exact hfull
  obtain ⟨nodes', hcall, h'⟩ :=
    h₁.produce hhost (partitionFor_lt hn turn key) howns haccept hroom
  refine ⟨_, _, c₂, nodes', ?_, rfl, hready, h'⟩
  unfold send
  simp only [hprepare]
  have hcall : call host address nodes₁ (fun s v => Handler.produce s v
    ⟨topic, key, value, timestamp, none, some ((Catalog.partitionFor turn key n).1 : ℤ)⟩
      attempt.clock attempt.elapsed) = _ := hcall
  rw [hcall]
  rfl

/-- A partition and an offset, as they are returned. -/
def returned (place : ℕ × ℕ) : ℤ × ℤ := (place.1, place.2)

/-- A record with its partition, as it goes over a stream, with what the
clocks say at it. -/
def entry (topic : String) (e : ℕ × Given) : ProduceRequest × ℤ × ℚ :=
  (e.2.request topic e.1, e.2.clock, e.2.elapsed)

/-- **A batch is grouped by address**, each record with its partition. -/
theorem groupBatch_of_cached (hc : c.cache.lookup topic = some table) (nodes : Cluster.State cl)
    (records : List (Option Bytes × Option Bytes × ℤ × ℚ))
    (hcover : table.Covers c.partitioner.next (Call.sendBatch records).given)
    (grouped : List (String × List (ProduceRequest × ℤ × ℚ))) :
    groupBatch host table topic grouped c nodes records
      = (.ok ((routes table.len c.partitioner.next (Call.sendBatch records).given).foldl
          (fun grouped e => Grouping.add (table.address e.1) (entry topic e) grouped) grouped),
        { c with partitioner :=
          ⟨turnAfter table.len c.partitioner.next (Call.sendBatch records).given⟩ }, nodes) := by
  induction records generalizing c grouped with
  | nil => rfl
  | cons r records ih =>
    obtain ⟨key, value, clock, elapsed⟩ := r
    obtain ⟨hn, hsome⟩ := hcover _ List.mem_cons_self
    obtain ⟨address, hlookup⟩ := Option.isSome_iff_exists.mp hsome
    have hlookup : table.lookup
      ((Catalog.partitionFor c.partitioner.next key table.len).1 : ℤ) = some address := hlookup
    have haddress : table.address (Catalog.partitionFor c.partitioner.next key table.len).1
        = address := by
      unfold Routing.address
      rw [hlookup]
      rfl
    rw [groupBatch, Connection.partitionFor_of_cached hc nodes hn key]
    simp only [hlookup]
    -- the client after this record keeps the table
    have hc' : (Connection.cache { c with partitioner :=
      ⟨(Catalog.partitionFor c.partitioner.next key table.len).2⟩ }).lookup topic = some table := hc
    refine (ih hc' (fun e he => hcover e (List.mem_cons_of_mem _ he)) _).trans ?_
    rw [← haddress]
    rfl

/-- With a table that leads to the owners every record of a batch has an
address. -/
theorem groupBatch_spec (nodes : Cluster.State cl) (hn : 0 < n)
    (hc : c.Knows host topic n turn table)
    (records : List (Option Bytes × Option Bytes × ℤ × ℚ))
    (grouped : List (String × List (ProduceRequest × ℤ × ℚ))) :
    ∃ c', groupBatch host table topic grouped c nodes records
        = (.ok ((routes n turn (Call.sendBatch records).given).foldl
            (fun grouped e => Grouping.add (table.address e.1) (entry topic e) grouped) grouped),
              c', nodes)
      ∧ c'.Knows host topic n (turnAfter n turn (Call.sendBatch records).given) table := by
  have hturn : c.partitioner.next = turn := by rw [hc.turn]
  have hcover : table.Covers c.partitioner.next (Call.sendBatch records).given := fun e he => by
    rw [hc.leads.len] at he ⊢
    obtain ⟨address, i, hlookup, -⟩ := hc.leads.lookup _ (mem_routes hn he).1
    exact ⟨hn, Option.isSome_of_eq_some hlookup⟩
  have hgroup :=
    @groupBatch_of_cached _ cl host topic c table hc.cached nodes records hcover grouped
  rw [hc.leads.len, hturn] at hgroup
  exact ⟨_, hgroup, hc.cached, hc.leads, rfl⟩

/-- **Each group over a stream of its own**, one after another: its records go
into their bins. -/
theorem streams_spec (hleads : table.Leads cl host topic n)
    {groups : List (String × List (ℕ × Given))}
    (hkeyed : Grouping.Keyed (fun e : ℕ × Given => table.address e.1) groups)
    (hgroups : ∀ e ∈ Grouping.items groups, e.1 < n ∧ e.2.Acceptable)
    (h : Cluster.Serving topic n bins nodes)
    (hlen : ∀ p, (Bins.putAll bins (Grouping.items groups) p).length ≤ 2 ^ 63) :
    ∃ nodes', streams host (groups.map (Prod.map id (List.map (entry topic)))) nodes
        = (.ok ((Bins.places bins (Grouping.items groups)).map returned), nodes')
      ∧ Cluster.Serving topic n (Bins.putAll bins (Grouping.items groups)) nodes' := by
  induction groups generalizing bins nodes with
  | nil => exact ⟨nodes, rfl, h⟩
  | cons g groups ih =>
    obtain ⟨address, es⟩ := g
    have hitems : Grouping.items ((address, es) :: groups) = es ++ Grouping.items groups := rfl
    rw [hitems] at hgroups hlen ⊢
    -- the broker at the address owns the partitions of the whole group
    obtain ⟨i, hhost, howns⟩ : ∃ i, host address = some i
        ∧ ∀ e ∈ es, (cl.ring i).ownsPartition topic e.1 = true := by
      have hat : ∀ e ∈ es, ∃ i, host address = some i
          ∧ (cl.ring i).ownsPartition topic e.1 = true := fun e he => by
        obtain ⟨address', i, hlookup, hhost, howns⟩ :=
          hleads.lookup e.1 (hgroups e (List.mem_append_left _ he)).1
        have hkey : table.address e.1 = address := hkeyed.key _ List.mem_cons_self e he
        unfold Routing.address at hkey
        rw [hlookup] at hkey
        exact ⟨i, hkey ▸ hhost, howns⟩
      obtain ⟨e, he⟩ := List.exists_mem_of_ne_nil _ (hkeyed.nonempty _ List.mem_cons_self)
      obtain ⟨i, hhost, -⟩ := hat e he
      refine ⟨i, hhost, fun e' he' => ?_⟩
      obtain ⟨j, hhost', howns⟩ := hat e' he'
      rw [hhost] at hhost'
      exact Option.some.inj hhost' ▸ howns
    obtain ⟨nodes₁, hcall, h₁⟩ := h.stream hhost (fun e he =>
        ⟨(hgroups e (List.mem_append_left _ he)).1, howns e he,
          (hgroups e (List.mem_append_left _ he)).2⟩)
      fun p => (Bins.length_putAll_le bins es (Grouping.items groups) p).trans (hlen p)
    obtain ⟨nodes', hrest, h'⟩ := ih hkeyed.tail
      (fun e he => hgroups e (List.mem_append_right _ he)) h₁
      (fun p => by rw [← Bins.putAll_append]; exact hlen p)
    refine ⟨nodes', ?_, by rw [Bins.putAll_append]; exact h'⟩
    have hcall : call host address nodes (fun s v =>
        let (responses, failure, s, v) := Handler.produceStream s v (es.map (entry topic))
        ((responses, failure), s, v)) = _ := hcall
    rw [List.map_cons, streams]
    simp only [Prod.map, id]
    rw [hcall]
    have hrest : streams host (groups.map (Prod.map id (List.map (entry topic)))) nodes₁
      = _ := hrest
    simp only [hrest, Bins.places_append, List.map_append, List.map_map]
    rfl

/-- **A `send_batch`** puts its records into their bins, regrouped by address:
what goes to one partition keeps its order. It returns their places. -/
theorem sendBatch_spec (hreach : cl.Reachable host) (hn : 0 < n)
    (hc : c.Ready host topic n turn) (h : Cluster.Serving topic n bins nodes)
    {records : List (Option Bytes × Option Bytes × ℤ × ℚ)}
    (haccept : ∀ g ∈ (Call.sendBatch records).given, g.Acceptable)
    (hlen : ∀ p, (Bins.putAll bins (routes n turn (Call.sendBatch records).given) p).length
      ≤ 2 ^ 63) :
    ∃ es c' nodes', sendBatch host c nodes topic records
        = (.ok ((Bins.places bins es).map returned), c', nodes')
      ∧ es.Perm (routes n turn (Call.sendBatch records).given)
      ∧ (∀ p, (es.filter fun e => e.1 = p)
        = (routes n turn (Call.sendBatch records).given).filter fun e => e.1 = p)
      ∧ c'.Ready host topic n (turnAfter n turn (Call.sendBatch records).given)
      ∧ Cluster.Serving topic n (Bins.putAll bins es) nodes' := by
  obtain ⟨table, c₁, nodes₁, hrouting, hknows₁, h₁⟩ := hc.routing hreach h
  obtain ⟨c', hgroup, hknows'⟩ := groupBatch_spec nodes₁ hn hknows₁ records []
  generalize hes : routes n turn (Call.sendBatch records).given = es at hlen hgroup ⊢
  have hmem : ∀ e ∈ es, e.1 < n ∧ e.2.Acceptable := fun e he => by
    obtain ⟨hlt, hg, -⟩ := mem_routes hn (hes ▸ he)
    exact ⟨hlt, haccept e.2 hg⟩
  obtain ⟨hkeyed, hperm, hfilter⟩ :=
    Grouping.foldl_add_spec (fun e : ℕ × Given => table.address e.1) es
  have hmap := Grouping.foldl_add_map (fun e : ℕ × Given => table.address e.1) (entry topic) es []
  generalize es.foldl (fun grouped e => Grouping.add (table.address e.1) e grouped) [] = groups
    at hkeyed hperm hfilter hmap
  have hsame : ∀ p, ((Grouping.items groups).filter fun e => e.1 = p)
      = es.filter fun e => e.1 = p := fun p => hfilter _ fun a b ha hb => by
    rw [of_decide_eq_true hb, of_decide_eq_true ha]
  have hbins : Bins.putAll bins (Grouping.items groups) = Bins.putAll bins es :=
    Bins.putAll_congr hsame
  obtain ⟨nodes', hstreams, h'⟩ := streams_spec hknows'.leads hkeyed
    (fun e he => hmem e (hperm.mem_iff.mp he)) h₁ (fun p => by rw [hbins]; exact hlen p)
  refine ⟨Grouping.items groups, c', nodes', ?_, hperm, hsame, Or.inl ⟨table, hknows'⟩, h'⟩
  unfold sendBatch
  simp only [hrouting, hgroup]
  have hmap : es.foldl (fun grouped e =>
    Grouping.add (table.address e.1) (entry topic e) grouped) []
    = _ := hmap
  rw [hmap, hstreams]

/-- **One call** puts its records into their bins, and returns their places. -/
theorem step_spec (hreach : cl.Reachable host) (hn : 0 < n) (hc : c.Ready host topic n turn)
    (h : Cluster.Serving topic n bins nodes) {call : Call}
    (haccept : ∀ g ∈ call.given, g.Acceptable)
    (hlen : ∀ p, (Bins.putAll bins (routes n turn call.given) p).length ≤ 2 ^ 63) :
    ∃ es c' nodes', (machine host topic).step (c, nodes) call
        = (some (.ok ((Bins.places bins es).map returned)),
          c', nodes')
      ∧ es.Perm (routes n turn call.given)
      ∧ (∀ p, (es.filter fun e => e.1 = p) = (routes n turn call.given).filter fun e => e.1 = p)
      ∧ c'.Ready host topic n (turnAfter n turn call.given)
      ∧ Cluster.Serving topic n (Bins.putAll bins es) nodes' := by
  cases call with
  | send value key timestamp attempt attempts =>
    obtain ⟨p, k, c', nodes', hsend, hplaces, hready, h'⟩ :=
      send_spec hreach hn hc h rfl (haccept _ List.mem_cons_self) hlen attempts
    refine ⟨_, c', nodes', ?_, .refl _, fun _ => rfl, hready, h'⟩
    have hplaces : Bins.places bins (routes n turn
      (Call.send value key timestamp attempt attempts).given) = [(p, k)] := hplaces
    simp only [machine, hsend, hplaces]
    rfl
  | sendBatch records =>
    obtain ⟨es, c', nodes', hbatch, hperm, hfilter, hready, h'⟩ :=
      sendBatch_spec hreach hn hc h haccept hlen
    refine ⟨es, c', nodes', ?_, hperm, hfilter, hready, h'⟩
    simp only [machine, hbatch]

/-- **All calls**: each returns the places of its records, where these are
found in the end, and all together are put into their bins. -/
theorem run_spec (hreach : cl.Reachable host) (hn : 0 < n) {full : ℕ → List Given}
    {calls : List Call} (hc : c.Ready host topic n turn) (h : Cluster.Serving topic n bins nodes)
    (haccept : ∀ g ∈ calls.flatMap Call.given, g.Acceptable)
    (hfull : Bins.putAll bins (routes n turn (calls.flatMap Call.given)) = full)
    (hlen : ∀ p, (full p).length ≤ 2 ^ 63) :
    ∃ placed es c' nodes', (machine host topic).run (c, nodes) calls
        = (placed.map fun places =>
            some (.ok (places.map returned)), c', nodes')
      ∧ List.Forall₂ (fun call places => ∃ gs : List Given, gs.Perm call.given
        ∧ List.Forall₂ (fun g place => (full place.1)[place.2]? = some g) gs places) calls placed
      ∧ placed.flatten = Bins.places bins es
      ∧ Cluster.Serving topic n full nodes' := by
  induction calls generalizing c nodes turn bins with
  | nil =>
    subst hfull
    exact ⟨[], [], c, nodes, rfl, .nil, rfl, h⟩
  | cons call calls ih =>
    rw [List.flatMap_cons, routes_append, Bins.putAll_append] at hfull
    have hpre : ∀ p, Bins.putAll bins (routes n turn call.given) p <+: full p := fun p => by
      rw [← hfull, Bins.putAll_apply (Bins.putAll bins _)]
      exact List.prefix_append _ _
    obtain ⟨es, c₁, nodes₁, hstep, hperm, hfilter, hready₁, h₁⟩ := step_spec hreach hn hc h
      (fun g hg => haccept g (List.mem_flatMap_of_mem List.mem_cons_self hg))
      (fun p => (hpre p).length_le.trans (hlen p))
    have hbins : Bins.putAll bins es = Bins.putAll bins (routes n turn call.given) :=
      Bins.putAll_congr hfilter
    rw [hbins] at h₁
    obtain ⟨placed, es', c', nodes', hrun, hfound, hflat, h'⟩ := ih hready₁ h₁
      (fun g hg => haccept g (by rw [List.flatMap_cons]; exact List.mem_append_right _ hg)) hfull
    refine ⟨Bins.places bins es :: placed, es ++ es', c', nodes', ?_, .cons ?_ hfound, ?_, h'⟩
    · simp only [Machine.run, hstep, hrun, List.map_cons]
    · have hgiven := hperm.map Prod.snd
      rw [map_snd_routes] at hgiven
      refine ⟨es.map Prod.snd, hgiven, ?_⟩
      rw [List.forall₂_map_left_iff]
      exact (Bins.found fun p => by rw [hbins]; exact hpre p).imp fun _ _ h => h.2
    · rw [List.flatten_cons, hflat, Bins.places_append, hbins]

end Producer

/-! ## A consumer

The other end: a client that reads one partition from the start. -/

section Consume

variable [Crc32] {cl : Cluster} {host : String → Option (Fin cl.brokers)} {topic : String}
  {n turn : ℕ} {bins : ℕ → List Given} {nodes : Cluster.State cl}

omit [Crc32] in
/-- A new client can find the owners. -/
theorem Connection.ready_of_init {bootstrap : List String} {c : Connection}
    (hinit : Connection.init bootstrap = .ok c)
    (hsome : ∃ address ∈ bootstrap, (host address).isSome) : c.Ready host topic n 0 := by
  obtain ⟨address, hmem, -⟩ := id hsome
  unfold Connection.init at hinit
  rw [if_neg (List.ne_nil_of_mem hmem)] at hinit
  cases hinit
  exact Or.inr ⟨rfl, hsome, rfl⟩

/-- **A consumer gets what is in the bin**, after some number of steps, and
its stream has ended. -/
theorem Consumer.consume_spec (hreach : cl.Reachable host) {c : Connection}
    (hc : c.Ready host topic n turn) (h : Cluster.Serving topic n bins nodes) {p : ℕ} (hp : p < n) :
    ∃ least, ∀ steps, least ≤ steps →
      (Consumer.consume host c nodes topic p 0 false 0 none steps).1
        = ((bins p).mapIdx fun offset g =>
            ⟨topic, p, offset, g.timestamp.getD g.clock, g.key, g.value⟩, some (.ok ())) := by
  obtain ⟨table, c₁, nodes₁, hrouting, hknows₁, h₁⟩ := hc.routing hreach h
  obtain ⟨address, i, hlookup, hhost, howns⟩ := hknows₁.leads.lookup p hp
  have haddress : c.addressFor host nodes topic p = (.ok address, c₁, nodes₁) := by
    unfold Connection.addressFor
    rw [hrouting]
    simp only [hlookup]
  obtain ⟨s, cat, hs, hserves⟩ := h₁ i
  obtain ⟨least, s', root', -, -, hstream⟩ := hserves.consume hp howns
  refine ⟨least, fun steps hle => ?_⟩
  have hcall := Cluster.call_eq
    (f := fun s v => Handler.consume s v ⟨topic, p, 0, false, 0⟩ steps) hhost hs (hstream steps hle)
  have hrecords : ((Given.records (bins p)).map toProto).map (Consumer.record topic p)
      = (bins p).mapIdx fun offset g =>
        ⟨topic, p, offset, g.timestamp.getD g.clock, g.key, g.value⟩ := by
    refine List.ext_getElem? fun k => ?_
    simp only [Given.records, List.getElem?_map, List.getElem?_mapIdx, Option.map_map]
    refine congrArg (Option.map · _) (funext fun g => ?_)
    exact Consumer.record_toProto topic p (g.record k)
  unfold Consumer.consume
  simp only [haddress, hcall, hrecords]

end Consume

/-! ## End to end

Producer and consumer together, from a new client to the last record. -/

namespace Producer

variable [Crc32]

/-- **What a client sends is what a consumer gets.** The brokers of a cluster
can be reached, and all have the topic with `n` partitions. A new producer
makes any calls with records that a broker accepts. Then each call returns
one partition and offset for each of its records, at which it is found, and
no two are the same; a keyed record goes to the partition of its key. A new
consumer of a partition gets exactly the records routed to it, in the order
in which they are given. -/
theorem delivered (cl : Cluster) {host : String → Option (Fin cl.brokers)}
    (hreach : cl.Reachable host) (setup : List (Cluster.Act cl)) {topic : String} {n : ℕ}
    (hcreated : Cluster.Created topic n (cl.machine.run Cluster.State.empty setup).2)
    {bootstrap : List String} {c : Connection} (hinit : Connection.init bootstrap = .ok c)
    (hsome : ∃ address ∈ bootstrap, (host address).isSome) (calls : List Call)
    (haccept : ∀ g ∈ calls.flatMap Call.given, g.Acceptable)
    (hroom : (calls.flatMap Call.given).length ≤ 2 ^ 63) :
    ∃ (placed : List (List (ℕ × ℕ))) (after : Connection × Cluster.State cl),
      (machine host topic).run (c, (cl.machine.run Cluster.State.empty setup).2) calls
          = (placed.map fun places => some (.ok (places.map returned)), after)
        ∧ List.Forall₂ (fun call places => ∃ gs : List Given, gs.Perm call.given
          ∧ List.Forall₂ (fun g place =>
            (routed n (calls.flatMap Call.given) place.1)[place.2]?
              = some g) gs places) calls placed
        ∧ placed.flatten.Nodup
        ∧ (routes n 0 (calls.flatMap Call.given)).map Prod.snd = calls.flatMap Call.given
        ∧ (∀ e ∈ routes n 0 (calls.flatMap Call.given),
          e.1 < n ∧ ∀ key, e.2.key = some key → e.1 = keyPartition key n)
        ∧ ∀ p < n, ∀ bootstrap' c', Connection.init bootstrap' = .ok c' →
          (∃ address ∈ bootstrap', (host address).isSome) →
          ∃ least, ∀ steps, least ≤ steps →
            (Consumer.consume host c' after.2 topic p 0 false 0 none steps).1
              = ((routed n (calls.flatMap Call.given) p).mapIdx fun offset g =>
                  ⟨topic, p, offset, g.timestamp.getD g.clock, g.key, g.value⟩, some (.ok ())) := by
  obtain ⟨hn, hserving⟩ := hcreated.serving
  have hfull : Bins.putAll (fun _ => []) (routes n 0 (calls.flatMap Call.given))
      = routed n (calls.flatMap Call.given) := by
    funext p
    exact Bins.putAll_apply _ _ p
  have hlen : ∀ p, (routed n (calls.flatMap Call.given) p).length ≤ 2 ^ 63 := fun p => by
    refine le_trans ?_ hroom
    rw [routed, List.length_map]
    refine (List.length_filter_le _ _).trans_eq ?_
    rw [← List.length_map (f := Prod.snd), map_snd_routes]
  obtain ⟨placed, es, c', nodes', hrun, hfound, hflat, h'⟩ :=
    run_spec hreach hn (Connection.ready_of_init hinit hsome) hserving haccept hfull hlen
  refine ⟨placed, (c', nodes'), hrun, hfound, ?_, map_snd_routes 0 _, fun e he => ?_,
    fun p hp bootstrap' c'' hinit' hsome' => ?_⟩
  · rw [hflat]
    exact Bins.nodup_places _ _
  · obtain ⟨hlt, -, hkey⟩ := mem_routes hn he
    exact ⟨hlt, hkey⟩
  · exact Consumer.consume_spec hreach (Connection.ready_of_init hinit' hsome') h' hp

omit [Crc32] in
theorem delivered_pair : let _ := Crc32.zlib
    let host : String → Option (Fin Cluster.pair.brokers) := fun address =>
      if address = "pyka-0:9090" then some 0 else if address = "pyka-1:9090" then some 1 else none
    let nodes := (Cluster.pair.machine.run Cluster.State.empty Cluster.pairSetup).2
    let c : Connection := ⟨["pyka-1:9090"], ∅, ⟨0⟩⟩
    let calls : List Call := [.send none (some [7]) (some 5) ⟨100, 0, false⟩ [],
      .sendBatch [(none, some [], 1, 0), (some [], none, 2, 0), (some [7], some [1], 3, 0)]]
    ∃ (placed : List (List (ℕ × ℕ))) (after : Connection × Cluster.State Cluster.pair),
      (machine host "orders").run (c, nodes) calls
          = (placed.map fun places => some (.ok (places.map returned)), after)
        ∧ placed.flatten.Nodup := by
  intro _ host nodes c calls
  obtain ⟨placed, after, hrun, -, hnodup, -⟩ :=
    delivered Cluster.pair (show Cluster.pair.Reachable host from Cluster.reachable_pair)
      Cluster.pairSetup Cluster.created_pair
      (show Connection.init ["pyka-1:9090"] = .ok c from rfl) ⟨_, List.mem_singleton_self _, rfl⟩
      calls (by decide) (by decide)
  exact ⟨placed, after, hrun, hnodup⟩

end Producer

end Pyka
