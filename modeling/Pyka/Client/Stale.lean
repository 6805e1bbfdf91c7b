import Pyka.Broker.Redirect
import Pyka.Client.Delivery

/-!
# A client with an old table

A cluster is resized and the table that a client keeps leads to brokers that
no longer own the partitions, or to nobody. A broker that does not own a
partition refuses the record, and `_handle` has the table fetched once more.
So a `send` that leads to any broker at all is delivered at its second attempt
at the latest, and from the first refusal on the client knows the owners
(`Producer.redirected`).

Nothing else replaces a table. Where the address of a key leads to nobody the
attempts end with `UNAVAILABLE`, for which `_handle` does nothing, so the
owner is never asked (`Producer.send_keyed_iff`). And `send_batch` does not
come to `_handle`: a batch gets through just where the table is right for each
of its records, and goes on failing otherwise (`Producer.batches_iff`).

## Three kinds of addresses

The address that a table has for a partition is right, misleads, or leads to
nobody (`Routing.right_or`). Nothing is assumed of how the table came to be;
it has an entry for each partition, that is all, and the entries may be of
different kinds. A record without a key has the next partition in turn at its
next attempt, and so the next kind of address.

## Time for a second attempt

Whether a `send` ends before a second attempt is a matter of its deadline.
With none left, a record that was misled is not delivered, although the table
has been fetched again; so what is said of one `send` after another is said of
those that have the time (`Sending`). A record that leads to nobody may have
any number of attempts.

## Batches before

What batches do to a table is nothing. That is why the condition for a batch
is the same after any number of others, delivered or not, and why it is stated
over a list of batches.
-/

namespace Pyka

open Struct (Bytes)

/-! ## Refusals

What the wrong broker does: it refuses, and no record comes or goes. -/

/-- **A record for a partition of another broker is refused**, and no record
comes or goes. -/
theorem Store.Serves.refuse [Crc32] {s : Store} {v : Volume} {ring : Ring} {topic : String}
    {n p : ℕ}
    {bins : ℕ → List Given} {c : Catalog} (h : s.Serves v ring topic n bins c) (hp : p < n)
    (ho : ring.ownsPartition topic p = false)
    (haddress : ∀ b < ring.brokers, ∃ a, ring.address b = .ok a) (g : Given) :
    ∃ details s' v' c', Handler.produce s v (g.request topic p) g.clock g.elapsed
        = (.error (.abort .failedPrecondition details), s', v')
      ∧ s'.Serves v' ring topic n bins c' := by
  obtain ⟨answer, c', hf, -, hout⟩ :=
    Handler.append_spec h.rep (g.request topic p) g.clock g.elapsed
  have hanswer : (Handler.append s v (g.request topic p) g.clock g.elapsed).1
      = .error (Handler.belongsTo s.ring topic p) :=
    (Handler.append_notStored h.rep h.count rfl hp (h.sameRing ▸ ho) g.clock g.elapsed).2
  -- the owner has an address
  obtain ⟨owner, hfor, hbelongs⟩ := Handler.belongsTo_eq s.ring topic p
  obtain ⟨b, hb, hfor', -⟩ := s.ring.owns_eq_ok topic (Int.natCast_nonneg p)
  cases hfor.symm.trans hfor'
  rw [h.sameRing] at hb
  obtain ⟨a, ha⟩ := haddress owner hb
  have haddr : s.ring.addressOf owner = .ok a := by
    unfold Ring.addressOf raiseIf
    rw [h.sameRing, if_neg (not_not.mpr ⟨Int.natCast_nonneg owner, Int.ofNat_lt.mpr hb⟩)]
    exact ha
  rcases hbelongs with ⟨e, he, -⟩ | ⟨address, -, htext⟩
  · cases haddr.symm.trans he
  · have hset : c.Settles s.topic.holder c' := by
      rcases hout with ⟨failure, -, hset⟩ | ⟨q, r, rfl, -⟩
      · exact hset
      · cases hf.answer.symm.trans hanswer
    refine ⟨belongsText topic p owner address, _, _, c', ?_, h.settle hf hset⟩
    unfold Handler.produce
    simp only [hanswer, htext]
    rfl

/-- **A stream with a record for another broker's partition ends with an
error.** What comes before that record is stored. -/
theorem Store.Serves.produceStream_refused [Crc32] {s : Store} {v : Volume} {ring : Ring}
    {topic : String} {n : ℕ} {bins : ℕ → List Given} {c : Catalog} {es : List (ℕ × Given)}
    (h : s.Serves v ring topic n bins c) (hes : ∀ e ∈ es, e.1 < n ∧ e.2.Acceptable)
    (hlen : ∀ p, (Bins.putAll bins es p).length ≤ 2 ^ 63)
    (haddress : ∀ b < ring.brokers, ∃ a, ring.address b = .ok a)
    (ho : ∃ e ∈ es, ring.ownsPartition topic e.1 = false) :
    ∃ stored rest responses details s' v' c', es = stored ++ rest
      ∧ Handler.produceStream s v (es.map fun e => (e.2.request topic e.1, e.2.clock, e.2.elapsed))
        = (responses, some (.abort .failedPrecondition details), s', v')
      ∧ (∀ e ∈ stored, ring.ownsPartition topic e.1 = true)
      ∧ s'.Serves v' ring topic n (Bins.putAll bins stored) c' := by
  induction es generalizing s v bins c with
  | nil =>
    obtain ⟨e, he, -⟩ := ho
    cases he
  | cons e es ih =>
    obtain ⟨hp, hg⟩ := hes e List.mem_cons_self
    cases howns : ring.ownsPartition topic e.1 with
    | false =>
      obtain ⟨details, s', v', c', hrefuse, h'⟩ := h.refuse hp howns haddress e.2
      refine ⟨[], e :: es, [], details, s', v', c', rfl, ?_, fun e he => (by cases he), h'⟩
      simp only [List.map_cons, Handler.produceStream, hrefuse]
    | true =>
      have hroom : (bins e.1).length < 2 ^ 63 := by
        have hone := (Bins.length_putAll_le bins [e] es e.1).trans (hlen e.1)
        rw [show Bins.putAll bins [e] e.1 = _ from Bins.put_self bins e, List.length_append] at hone
        exact hone
      obtain ⟨s₁, v₁, c₁, hprod, h₁⟩ := h.produce hp howns hg hroom
      have hrest : ∃ e ∈ es, ring.ownsPartition topic e.1 = false := by
        obtain ⟨e', he', ho'⟩ := ho
        rcases List.mem_cons.mp he' with rfl | he'
        · cases howns.symm.trans ho'
        · exact ⟨e', he', ho'⟩
      obtain ⟨stored, rest, responses, details, s', v', c', rfl, hstream, hstored, h'⟩ :=
        ih h₁ (fun e he => hes e (List.mem_cons_of_mem _ he)) hlen hrest
      refine ⟨e :: stored, rest, ⟨e.1, (bins e.1).length, none⟩ :: responses, details, s', v',
        c', rfl,
        ?_, ?_, h'⟩
      · simp only [List.map_cons, Handler.produceStream, hprod, hstream]
      · exact List.forall_mem_cons.mpr ⟨howns, hstored⟩

namespace Cluster

variable [Crc32] {cl : Cluster} {topic : String} {n p : ℕ} {bins : ℕ → List Given}
  {nodes : State cl} {host : String → Option (Fin cl.brokers)} {address : String}
  {i : Fin cl.brokers}

omit [Crc32] in
/-- Where all brokers can be reached they all have an address. -/
theorem Reachable.addresses (hreach : cl.Reachable host) (i : Fin cl.brokers) :
    ∀ b < (cl.ring i).brokers, ∃ a, (cl.ring i).address b = .ok a :=
  fun b hb => (hreach ⟨b, hb⟩).imp fun _ ha => ha.1

/-- A broker refuses a record, and all go on with what they hold. -/
theorem Serving.refuse (h : Serving topic n bins nodes) (hreach : cl.Reachable host)
    (hhost : host address = some i) (hp : p < n) (ho : (cl.ring i).ownsPartition topic p = false)
    (g : Given) :
    ∃ details nodes', call host address nodes (fun s v =>
        Handler.produce s v (g.request topic p) g.clock g.elapsed)
      = (some (.error (.abort .failedPrecondition details)), nodes')
      ∧ Serving topic n bins nodes' := by
  obtain ⟨s, c, hs, hserves⟩ := h i
  obtain ⟨details, s', v', c', hrefuse, h'⟩ := hserves.refuse hp ho (hreach.addresses i) g
  exact ⟨details, _, call_eq hhost hs hrefuse, h.update h' fun _ _ _ _ => rfl⟩

/-- A stream is refused at some record. What comes before it is stored. -/
theorem Serving.stream_refused (h : Serving topic n bins nodes) (hreach : cl.Reachable host)
    (hhost : host address = some i) {es : List (ℕ × Given)}
    (hes : ∀ e ∈ es, e.1 < n ∧ e.2.Acceptable)
    (hlen : ∀ p, (Bins.putAll bins es p).length ≤ 2 ^ 63)
    (ho : ∃ e ∈ es, (cl.ring i).ownsPartition topic e.1 = false) :
    ∃ stored rest responses details nodes', es = stored ++ rest
      ∧ call host address nodes (fun s v =>
        let (responses, failure, s, v) := Handler.produceStream s v
          (es.map fun e => (e.2.request topic e.1, e.2.clock, e.2.elapsed))
        ((responses, failure), s, v))
      = (some (responses, some (.abort .failedPrecondition details)), nodes')
      ∧ Serving topic n (Bins.putAll bins stored) nodes' := by
  obtain ⟨s, c, hs, hserves⟩ := h i
  obtain ⟨stored, rest, responses, details, s', v', c', hsplit, hstream, hstored, h'⟩ :=
    hserves.produceStream_refused hes hlen (hreach.addresses i) ho
  exact ⟨stored, rest, responses, details, _, hsplit, call_eq hhost hs (by simp only [hstream]),
    h.update h' (putAll_others hstored)⟩

end Cluster

/-! ## An old table

Tables that have all partitions, with whatever addresses. -/

/-- **A table in which every partition is**, at whatever address. -/
structure Routing.Lists (table : Routing) (n : ℕ) : Prop where
  len : table.len = n
  lookup : ∀ p < n, ∃ address, table.lookup (p : ℤ) = some address

/-- The address found for a partition is the one in the table. -/
theorem Routing.Lists.lookup_address {table : Routing} {n p : ℕ} (h : table.Lists n) (hp : p < n) :
    table.lookup (p : ℤ) = some (table.address p) := by
  obtain ⟨address, hlookup⟩ := h.lookup p hp
  unfold Routing.address
  rw [hlookup]
  rfl

/-- **The address of a partition is its owner's.** -/
def Routing.Right {cl : Cluster} (table : Routing) (host : String → Option (Fin cl.brokers))
    (topic : String) (p : ℕ) : Prop :=
  ∃ i, host (table.address p) = some i ∧ (cl.ring i).ownsPartition topic p = true

/-- **The address of a partition is another broker's.** -/
def Routing.Misleads {cl : Cluster} (table : Routing) (host : String → Option (Fin cl.brokers))
    (topic : String) (p : ℕ) : Prop :=
  ∃ i, host (table.address p) = some i ∧ (cl.ring i).ownsPartition topic p = false

/-- A table that leads to the owners has all partitions. -/
theorem Routing.Leads.lists {cl : Cluster} {table : Routing}
    {host : String → Option (Fin cl.brokers)}
    {topic : String} {n : ℕ} (h : table.Leads cl host topic n) : table.Lists n :=
  ⟨h.len, fun p hp => (h.lookup p hp).imp fun _ ⟨_, hlookup, _⟩ => hlookup⟩

/-- And each address in it is right. -/
theorem Routing.Leads.right {cl : Cluster} {table : Routing}
    {host : String → Option (Fin cl.brokers)}
    {topic : String} {n p : ℕ} (h : table.Leads cl host topic n) (hp : p < n) :
    table.Right host topic p := by
  obtain ⟨address, i, hlookup, hhost, ho⟩ := h.lookup p hp
  refine ⟨i, ?_, ho⟩
  rw [← hhost]
  exact congrArg host (Option.some.inj ((h.lists.lookup_address hp).symm.trans hlookup))

/-- An address that is right does not mislead. -/
theorem Routing.Right.not_misleads {cl : Cluster} {table : Routing}
    {host : String → Option (Fin cl.brokers)} {topic : String} {p : ℕ}
    (h : table.Right host topic p) : ¬table.Misleads host topic p := fun ⟨j, hhost', ho'⟩ => by
  obtain ⟨i, hhost, ho⟩ := h
  rw [hhost] at hhost'
  cases hhost'
  cases ho.symm.trans ho'

/-- An address is the owner's, another broker's, or nobody's. -/
theorem Routing.right_or {cl : Cluster} (table : Routing) (host : String → Option (Fin cl.brokers))
    (topic : String) (p : ℕ) :
    table.Right host topic p ∨ table.Misleads host topic p ∨ host (table.address p) = none := by
  cases hhost : host (table.address p) with
  | none => exact Or.inr (Or.inr rfl)
  | some i =>
    cases ho : (cl.ring i).ownsPartition topic p with
    | true => exact Or.inl ⟨i, hhost, ho⟩
    | false => exact Or.inr (Or.inl ⟨i, hhost, ho⟩)

namespace Connection

variable {cl : Cluster} {host : String → Option (Fin cl.brokers)} {topic : String}
  {n turn : ℕ} {bins : ℕ → List Given} {nodes : Cluster.State cl} {c : Connection} {table : Routing}

/-- **A client that keeps a table**, and can ask for another one. -/
structure Keeps (c : Connection) (host : String → Option (Fin cl.brokers)) (topic : String)
    (turn : ℕ) (table : Routing) : Prop where
  cached : c.cache.lookup topic = some table
  turn : c.partitioner = ⟨turn⟩
  bootstrap : ∃ address ∈ c.bootstrap, (host address).isSome

variable [Crc32]

/-- **Once the table is asked for again, it leads to the owners.** -/
theorem Keeps.refresh (hc : c.Keeps host topic turn table) (hreach : cl.Reachable host)
    (h : Cluster.Serving topic n bins nodes) :
    ∃ table' c' nodes', c.routing host nodes topic true = (.ok table', c', nodes')
      ∧ c'.Keeps host topic turn table' ∧ table'.Leads cl host topic n
      ∧ Cluster.Serving topic n bins nodes' := by
  obtain ⟨table', nodes', hfetch, hleads, h'⟩ := fetchRouting_spec hreach h hc.bootstrap none
  refine ⟨table', { c with cache := c.cache.insert topic table' }, nodes', ?_,
    ⟨AList.lookup_insert _, hc.turn, hc.bootstrap⟩, hleads, h'⟩
  unfold Connection.routing
  simp only [if_true, hfetch]

end Connection

/-! ## One `send`

The first attempts of a `send`, for each of the three kinds of addresses. -/

namespace Producer

/-- The record of an attempt. -/
def Attempt.given (attempt : Attempt) (value key : Option Bytes) (timestamp : Option ℤ) : Given :=
  ⟨key, value, timestamp, attempt.clock, attempt.elapsed⟩

variable [Crc32] {cl : Cluster} {host : String → Option (Fin cl.brokers)} {topic : String}
  {n turn : ℕ} {bins : ℕ → List Given} {nodes : Cluster.State cl} {c : Connection} {table : Routing}
  {value key : Option Bytes} {timestamp : Option ℤ}

/-- What a `send` sends, by the table that is kept. -/
theorem prepare_of_cached (hc : c.Keeps host topic turn table) (htable : table.Lists n) (hn : 0 < n)
    (nodes : Cluster.State cl) (value key : Option Bytes) (timestamp : Option ℤ) :
    ∃ c', prepare host c nodes topic value key timestamp
        = (.ok ((Catalog.partitionFor turn key n).1,
            table.address (Catalog.partitionFor turn key n).1,
            ⟨topic, key, value, timestamp, none, some ((Catalog.partitionFor turn key n).1 : ℤ)⟩),
          c', nodes)
      ∧ c' = { c with partitioner := ⟨(Catalog.partitionFor turn key n).2⟩ }
      ∧ c'.Keeps host topic (Catalog.partitionFor turn key n).2 table := by
  have hpart := @Connection.partitionFor_of_cached _ cl host topic c table hc.cached nodes
    (htable.len.symm ▸ hn) key
  rw [htable.len, hc.turn] at hpart
  refine ⟨_, ?_, rfl, ⟨hc.cached, rfl, hc.bootstrap⟩⟩
  have hcached : (Connection.cache { c with partitioner :=
    ⟨(Catalog.partitionFor turn key n).2⟩ }).lookup topic = some table := hc.cached
  unfold prepare Connection.addressFor
  rw [hpart]
  simp only [Connection.routing_of_cached hcached,
    htable.lookup_address (partitionFor_lt hn turn key)]

/-- **An attempt at the owner** is answered. -/
theorem send_right (hc : c.Keeps host topic turn table) (htable : table.Lists n) (hn : 0 < n)
    (h : Cluster.Serving topic n bins nodes)
    (hright : table.Right host topic (Catalog.partitionFor turn key n).1)
    {attempt : Attempt} (haccept : (attempt.given value key timestamp).Acceptable)
    (hroom : (bins (Catalog.partitionFor turn key n).1).length < 2 ^ 63) (attempts : List Attempt) :
    ∃ c' nodes', send host c nodes topic value key timestamp (attempt :: attempts)
        = (some (.ok (returned ((Catalog.partitionFor turn key n).1,
            (bins (Catalog.partitionFor turn key n).1).length))), c', nodes')
      ∧ c'.Keeps host topic (Catalog.partitionFor turn key n).2 table
      ∧ Cluster.Serving topic n (Bins.putAll bins
          [((Catalog.partitionFor turn key n).1, attempt.given value key timestamp)]) nodes' := by
  obtain ⟨c', hprepare, -, hc'⟩ := prepare_of_cached hc htable hn nodes value key timestamp
  obtain ⟨i, hhost, ho⟩ := hright
  obtain ⟨nodes', hcall, h'⟩ := h.produce hhost (partitionFor_lt hn turn key) ho haccept hroom
  refine ⟨c', nodes', ?_, hc', h'⟩
  have hcall : call host (table.address (Catalog.partitionFor turn key n).1) nodes (fun s v =>
    Handler.produce s v
      ⟨topic, key, value, timestamp, none, some ((Catalog.partitionFor turn key n).1 : ℤ)⟩
      attempt.clock attempt.elapsed) = _ := hcall
  unfold send
  simp only [hprepare]
  rw [hcall]
  rfl

/-- **An attempt at another broker** is refused. The client asks for the owners,
and the next attempt begins. -/
theorem send_misled (hc : c.Keeps host topic turn table) (htable : table.Lists n) (hn : 0 < n)
    (hreach : cl.Reachable host) (h : Cluster.Serving topic n bins nodes)
    (hmisled : table.Misleads host topic (Catalog.partitionFor turn key n).1)
    {attempt : Attempt} (hlate : attempt.late = false) (value : Option Bytes) (timestamp : Option ℤ)
    (attempts : List Attempt) :
    ∃ table' c' nodes', send host c nodes topic value key timestamp (attempt :: attempts)
        = send host c' nodes' topic value key timestamp attempts
      ∧ c'.Keeps host topic (Catalog.partitionFor turn key n).2 table'
      ∧ table'.Leads cl host topic n ∧ Cluster.Serving topic n bins nodes' := by
  obtain ⟨c₁, hprepare, -, hc₁⟩ := prepare_of_cached hc htable hn nodes value key timestamp
  obtain ⟨i, hhost, ho⟩ := hmisled
  obtain ⟨details, nodes₁, hcall, h₁⟩ := h.refuse hreach hhost (partitionFor_lt hn turn key) ho
    (attempt.given value key timestamp)
  obtain ⟨table', c', nodes', hrefresh, hc', hleads, h'⟩ := hc₁.refresh hreach h₁
  refine ⟨table', c', nodes', ?_, hc', hleads, h'⟩
  have hcall : call host (table.address (Catalog.partitionFor turn key n).1) nodes (fun s v =>
    Handler.produce s v
      ⟨topic, key, value, timestamp, none, some ((Catalog.partitionFor turn key n).1 : ℤ)⟩
      attempt.clock attempt.elapsed) = _ := hcall
  have hhandle : handle host c₁ nodes₁ topic (.status .failedPrecondition details)
      = (.ok (), c', nodes') := by
    unfold handle
    simp only [hrefresh]
  rw [send]
  simp only [hprepare, hcall, unary, Failure.toRpc, hhandle, hlate, Bool.false_eq_true, if_false]

/-- **Attempts at nobody** change nothing, and the last one is the one that is
late. By induction on the attempts. -/
theorem send_nobody {k : Bytes} (hc : c.Keeps host topic turn table) (htable : table.Lists n)
    (hn : 0 < n) (hnobody : host (table.address (keyPartition k n)) = none)
    (nodes : Cluster.State cl) (value : Option Bytes) (timestamp : Option ℤ)
    (attempts : List Attempt) :
    send host c nodes topic value (some k) timestamp attempts
      = ((attempts.find? Attempt.late).map fun _ => .error (.deliveryFailed topic (keyPartition k n)
          .unavailable [(topic, some k, value)]), c, nodes) := by
  induction attempts with
  | nil => rfl
  | cons attempt attempts ih =>
    obtain ⟨c', hprepare, hsame, -⟩ :=
      prepare_of_cached hc htable hn nodes value (some k) timestamp
    -- a key takes no turn
    have hkept : c' = c := by
      rw [hsame, show (Catalog.partitionFor turn (some k) n).2 = turn from rfl, ← hc.turn]
    subst hkept
    have hcall : call host (table.address (keyPartition k n)) nodes (fun s v => Handler.produce s v
        ⟨topic, some k, value, timestamp, none, some (keyPartition k n : ℤ)⟩
        attempt.clock attempt.elapsed) = (none, nodes) := by
      unfold call
      simp only [hnobody]
    have hprepare : prepare host c' nodes topic value (some k) timestamp
      = (.ok (keyPartition k n, table.address (keyPartition k n),
          ⟨topic, some k, value, timestamp, none, some (keyPartition k n : ℤ)⟩), c', nodes) :=
            hprepare
    rw [send]
    simp only [hprepare, hcall, unary, handle]
    cases hlate : attempt.late with
    | true => rw [List.find?_cons_of_pos hlate, if_pos rfl]; rfl
    | false =>
      rw [List.find?_cons_of_neg (by rw [hlate]; exact Bool.false_ne_true),
        if_neg Bool.false_ne_true, ih]

/-! ## Many of them

Each `send` finds the table that those before have left. -/

/-- **A `send` with time for a second attempt.** -/
structure Sending where
  value : Option Bytes
  key : Option Bytes
  timestamp : Option ℤ
  first : Attempt
  second : Attempt
  rest : List Attempt
  intime : first.late = false

namespace Sending

/-- The call of the producer that it is. -/
def call (s : Sending) : Call := .send s.value s.key s.timestamp s.first (s.second :: s.rest)

/-- The record of one of its attempts, in a partition: in that of its key, if
it has one. -/
def Gives (s : Sending) (n : ℕ) (e : ℕ × Given) : Prop :=
  (∃ attempt ∈ [s.first, s.second], e.2 = attempt.given s.value s.key s.timestamp)
    ∧ e.1 < n ∧ ∀ key, s.key = some key → e.1 = keyPartition key n

/-- A broker accepts its record, at either attempt. -/
def Acceptable (s : Sending) : Prop :=
  ∀ attempt ∈ [s.first, s.second], (attempt.given s.value s.key s.timestamp).Acceptable

/-- The record goes to the partition that the client computes. -/
theorem gives_of (s : Sending) (hn : 0 < n) (turn : ℕ) {attempt : Attempt}
    (hattempt : attempt ∈ [s.first, s.second]) :
    s.Gives n ((Catalog.partitionFor turn s.key n).1, attempt.given s.value s.key s.timestamp) :=
  ⟨⟨attempt, hattempt, rfl⟩, partitionFor_lt hn turn s.key, fun key hkey => by
    rw [hkey]
    rfl⟩

end Sending

/-- **A `send` that leads to a broker** is delivered. If that is the wrong one
the table leads to the owners after it, and else it is still the same. -/
theorem step_delivers (hreach : cl.Reachable host) (hn : 0 < n)
    (hc : c.Keeps host topic turn table) (htable : table.Lists n)
    (h : Cluster.Serving topic n bins nodes) {s : Sending} (haccept : s.Acceptable)
    (hsome : (host (table.address (Catalog.partitionFor turn s.key n).1)).isSome)
    (hlen : ∀ p, (bins p).length < 2 ^ 63) :
    ∃ e turn' table' c' nodes', (machine host topic).step (c, nodes) s.call
        = (some (.ok [returned (e.1, (bins e.1).length)]), c', nodes')
      ∧ s.Gives n e ∧ c'.Keeps host topic turn' table'
      ∧ (table.Misleads host topic (Catalog.partitionFor turn s.key n).1
          ∧ table'.Leads cl host topic n
        ∨ ¬table.Misleads host topic (Catalog.partitionFor turn s.key n).1 ∧ table' = table)
      ∧ Cluster.Serving topic n (Bins.putAll bins [e]) nodes' := by
  rcases table.right_or host topic (Catalog.partitionFor turn s.key n).1 with
    hright | hmisled | hnobody
  · obtain ⟨c', nodes', hsend, hc', h'⟩ := send_right hc htable hn h hright
      (haccept s.first List.mem_cons_self) (hlen _) (s.second :: s.rest)
    refine ⟨_, _, table, c', nodes', ?_, s.gives_of hn turn List.mem_cons_self, hc',
      Or.inr ⟨hright.not_misleads, rfl⟩, h'⟩
    simp only [machine, Sending.call, hsend]
    rfl
  · obtain ⟨table', c₁, nodes₁, hfirst, hc₁, hleads, h₁⟩ :=
      send_misled hc htable hn hreach h hmisled s.intime s.value s.timestamp (s.second :: s.rest)
    obtain ⟨c', nodes', hsend, hc', h'⟩ := send_right hc₁ hleads.lists hn h₁
      (hleads.right (partitionFor_lt hn _ s.key))
      (haccept s.second (List.mem_cons_of_mem _ List.mem_cons_self)) (hlen _) s.rest
    refine ⟨_, _, table', c', nodes', ?_,
      s.gives_of hn _ (List.mem_cons_of_mem _ List.mem_cons_self), hc',
        Or.inl ⟨hmisled, hleads⟩, h'⟩
    simp only [machine, Sending.call, hfirst, hsend]
    rfl
  · rw [hnobody] at hsome
    cases hsome

omit [Crc32] in
/-- A table that leads a client to brokers goes on to do so. -/
theorem isSome_of_leads {table table' : Routing}
    (hsome : ∀ p < n, (host (table.address p)).isSome)
    (h : table' = table ∨ table'.Leads cl host topic n) :
    ∀ p < n, (host (table'.address p)).isSome := by
  rcases h with rfl | hleads
  · exact hsome
  · exact fun p hp => (hleads.right hp).elim fun i hi => Option.isSome_of_eq_some hi.1

/-- **One `send` after another**, by a table that leads to brokers: each is
acknowledged, with the place of its record. -/
theorem sendings_spec (hreach : cl.Reachable host) (hn : 0 < n) (hc : c.Keeps host topic turn table)
    (htable : table.Lists n) (hsome : ∀ p < n, (host (table.address p)).isSome)
    (h : Cluster.Serving topic n bins nodes) {sendings : List Sending}
    (haccept : ∀ s ∈ sendings, s.Acceptable)
    (hroom : ∀ p, (bins p).length + sendings.length ≤ 2 ^ 63) :
    ∃ es turn' table' c' nodes', (machine host topic).run (c, nodes) (sendings.map Sending.call)
        = ((Bins.places bins es).map (fun place => some (.ok [returned place])), c', nodes')
      ∧ List.Forall₂ (fun s e => s.Gives n e) sendings es
      ∧ c'.Keeps host topic turn' table' ∧ (table' = table ∨ table'.Leads cl host topic n)
      ∧ Cluster.Serving topic n (Bins.putAll bins es) nodes' := by
  induction sendings generalizing c nodes turn table bins with
  | nil => exact ⟨[], turn, table, c, nodes, rfl, .nil, hc, Or.inl rfl, h⟩
  | cons s sendings ih =>
    have hlen : ∀ p, (bins p).length < 2 ^ 63 := fun p => by
      have hp := hroom p
      rw [List.length_cons] at hp
      omega
    obtain ⟨e, turn₁, table₁, c₁, nodes₁, hstep, hgives, hc₁, hafter, h₁⟩ :=
      step_delivers hreach hn hc htable h (haccept s List.mem_cons_self)
        (hsome _ (partitionFor_lt hn turn s.key)) hlen
    have hsame₁ : table₁ = table ∨ table₁.Leads cl host topic n :=
      hafter.elim (fun h => Or.inr h.2) fun h => Or.inl h.2
    have htable₁ : table₁.Lists n := hsame₁.elim (fun heq => heq ▸ htable) Routing.Leads.lists
    have hroom₁ : ∀ p, (Bins.putAll bins [e] p).length + sendings.length ≤ 2 ^ 63 := fun p => by
      have hp := hroom p
      have hone : ([e].filter fun e => e.1 = p).length ≤ 1 := List.length_filter_le _ _
      rw [List.length_cons] at hp
      rw [Bins.putAll_apply, List.length_append, List.length_map]
      omega
    obtain ⟨es, turn', table', c', nodes', hrun, hall, hc', hsame, h'⟩ :=
      ih hc₁ htable₁ (isSome_of_leads hsome hsame₁) h₁
        (fun s' hs' => haccept s' (List.mem_cons_of_mem _ hs')) hroom₁
    refine ⟨e :: es, turn', table', c', nodes', ?_, .cons hgives hall, hc', ?_, h'⟩
    · rw [List.map_cons, Machine.run, hstep, hrun]
      rfl
    · rcases hsame with rfl | hleads
      · exact hsame₁
      · exact Or.inr hleads

/-- **A client with an old table delivers all it sends**, as long as the
addresses in it lead to brokers, whichever they are. The brokers all have the
topic with `n` partitions. Each `send` with time for a second attempt is
acknowledged with the place of its record: a keyed one in the partition of its
key. In the end the table is the old one or leads to the owners, and a new
consumer of a partition gets exactly the records placed there, in the order in
which they were sent. -/
theorem redirected (cl : Cluster) {host : String → Option (Fin cl.brokers)}
    (hreach : cl.Reachable host) (setup : List (Cluster.Act cl)) {topic : String} {n : ℕ}
    (hcreated : Cluster.Created topic n (cl.machine.run Cluster.State.empty setup).2)
    {c : Connection} {table : Routing} (hcached : c.cache.lookup topic = some table)
    (htable : table.Lists n) (hsome : ∀ p < n, (host (table.address p)).isSome)
    (hboot : ∃ address ∈ c.bootstrap, (host address).isSome) (sendings : List Sending)
    (haccept : ∀ s ∈ sendings, s.Acceptable) (hroom : sendings.length ≤ 2 ^ 63) :
    ∃ (es : List (ℕ × Given)) (after : Connection × Cluster.State cl),
      (machine host topic).run (c, (cl.machine.run Cluster.State.empty setup).2)
          (sendings.map Sending.call)
        = ((Bins.places (fun _ => []) es).map (fun place => some (.ok [returned place])), after)
      ∧ List.Forall₂ (fun s e => s.Gives n e) sendings es
      ∧ (∃ table', after.1.cache.lookup topic = some table'
        ∧ (table' = table ∨ table'.Leads cl host topic n))
      ∧ ∀ p < n, ∀ bootstrap c', Connection.init bootstrap = .ok c' →
        (∃ address ∈ bootstrap, (host address).isSome) →
        ∃ least, ∀ steps, least ≤ steps →
          (Consumer.consume host c' after.2 topic p 0 false 0 none steps).1
            = (((es.filter fun e => e.1 = p).map Prod.snd).mapIdx fun offset g =>
                ⟨topic, p, offset, g.timestamp.getD g.clock, g.key, g.value⟩, some (.ok ())) := by
  obtain ⟨hn, hserving⟩ := hcreated.serving
  obtain ⟨es, turn', table', c', nodes', hrun, hall, hc', hsame, h'⟩ :=
    sendings_spec hreach hn (⟨hcached, rfl, hboot⟩ : c.Keeps host topic c.partitioner.next table)
      htable hsome hserving haccept fun p => by rw [List.length_nil, Nat.zero_add]; exact hroom
  refine ⟨es, (c', nodes'), hrun, hall, ⟨table', hc'.cached, hsame⟩,
    fun p hp bootstrap c'' hinit hsome' => ?_⟩
  obtain ⟨least, hleast⟩ :=
    Consumer.consume_spec hreach (Connection.ready_of_init hinit hsome') h' hp
  refine ⟨least, fun steps hle => (hleast steps hle).trans ?_⟩
  rw [Bins.putAll_apply, List.nil_append]

/-- A client of the two that keeps a table with these addresses, whether they
are right or not. -/
def oldClient (first second : String) : Connection :=
  ⟨["pyka-1:9090"], AList.insert "orders" (.of [(0, 0, first), (1, 1, second)]) ∅, ⟨0⟩⟩

omit [Crc32] in
/-- It can ask for another table. -/
theorem bootstrap_oldClient (first second : String) :
    ∃ address ∈ (oldClient first second).bootstrap, (Cluster.pairHost address).isSome :=
  ⟨"pyka-1:9090", List.mem_singleton_self _, rfl⟩

omit [Crc32] in
/-- The table has both partitions. -/
theorem lists_oldTable (first second : String) :
    (Routing.of [(0, 0, first), (1, 1, second)]).Lists 2 :=
  ⟨rfl, fun p hp => match p, hp with
    | 0, _ => ⟨first, rfl⟩
    | 1, _ => ⟨second, rfl⟩⟩

/-- A record with its key. -/
def keyedSending (key : Option Bytes) : Sending :=
  ⟨some [1], key, some 5, ⟨0, 0, false⟩, ⟨1, 0, false⟩, [], rfl⟩

omit [Crc32] in
/-- All partitions are thought to be the second broker's. -/
theorem redirected_pair : let _ := Crc32.zlib
    ∃ (es : List (ℕ × Given)) (after : Connection × Cluster.State Cluster.pair),
      (machine Cluster.pairHost "orders").run (oldClient "pyka-1:9090" "pyka-1:9090",
          (Cluster.pair.machine.run Cluster.State.empty Cluster.pairSetup).2)
          ([keyedSending (some [7]), keyedSending none, keyedSending (some [1])].map Sending.call)
        = ((Bins.places (fun _ => []) es).map (fun place => some (.ok [returned place])), after)
      ∧ es.length = 3 := by
  intro _
  obtain ⟨es, after, hrun, hall, -⟩ :=
    redirected Cluster.pair Cluster.reachable_pair Cluster.pairSetup
    Cluster.created_pair (AList.lookup_insert _) (lists_oldTable "pyka-1:9090" "pyka-1:9090")
    (fun p hp => match p, hp with
      | 0, _ => rfl
      | 1, _ => rfl) (bootstrap_oldClient "pyka-1:9090" "pyka-1:9090")
    [keyedSending (some [7]), keyedSending none, keyedSending (some [1])]
    (fun s hs attempt hattempt => by
      simp only [List.mem_cons, List.not_mem_nil, or_false] at hs hattempt
      rcases hs with rfl | rfl | rfl <;> rcases hattempt with rfl | rfl <;> decide) (by decide)
  exact ⟨es, after, hrun, hall.length_eq.symm⟩

/-! ## An address at which nobody is

The same for keyed records, with addresses that lead to nobody among the
others. -/

namespace Sending

/-- The partition of its key. -/
def partition (s : Sending) (n : ℕ) : ℕ := keyPartition (s.key.getD []) n

/-- For a keyed record the turn does not matter. -/
theorem partitionFor_eq {s : Sending} (hkey : s.key.isSome) (turn n : ℕ) :
    (Catalog.partitionFor turn s.key n).1 = s.partition n := by
  obtain ⟨key, hkey⟩ := Option.isSome_iff_exists.mp hkey
  unfold partition
  rw [hkey]
  rfl

end Sending

/-- **A keyed `send` is delivered just where its address leads to a broker.**
If nobody is there nothing changes. -/
theorem step_keyed (hreach : cl.Reachable host) (hn : 0 < n) (hc : c.Keeps host topic turn table)
    (htable : table.Lists n) (h : Cluster.Serving topic n bins nodes) {s : Sending}
    (hkey : s.key.isSome) (haccept : s.Acceptable) (hlen : ∀ p, (bins p).length < 2 ^ 63) :
    ∃ res bins' turn' table' c' nodes', (machine host topic).step (c, nodes) s.call
      = (res, c', nodes')
      ∧ ((∃ places, res = some (.ok places)) ↔ (host (table.address (s.partition n))).isSome)
      ∧ c'.Keeps host topic turn' table'
      ∧ (table.Misleads host topic (s.partition n) ∧ table'.Leads cl host topic n
        ∨ ¬table.Misleads host topic (s.partition n) ∧ table' = table)
      ∧ Cluster.Serving topic n bins' nodes' ∧ ∀ p, (bins' p).length ≤ (bins p).length + 1 := by
  cases hhost : host (table.address (s.partition n)) with
  | none =>
    obtain ⟨k, hk⟩ := Option.isSome_iff_exists.mp hkey
    have hpart : s.partition n = keyPartition k n := by
      unfold Sending.partition
      rw [hk]
      rfl
    have hsend := send_nobody hc htable hn (hpart ▸ hhost) nodes s.value s.timestamp
      (s.first :: s.second :: s.rest)
    rw [← hk] at hsend
    have hstep : (machine host topic).step (c, nodes) s.call
        = (((s.first :: s.second :: s.rest).find? Attempt.late).map fun _ =>
            .error (.deliveryFailed topic (keyPartition k n) .unavailable
              [(topic, s.key, s.value)]),
          c, nodes) := by
      simp only [machine, Sending.call, hsend, Option.map_map]
      rfl
    refine ⟨_, bins, turn, table, c, nodes, hstep, iff_of_false ?_ Bool.false_ne_true, hc,
      Or.inr ⟨?_, rfl⟩, h, fun p => Nat.le_succ _⟩
    · rintro ⟨places, hres⟩
      obtain ⟨attempt, -, hattempt⟩ := Option.map_eq_some_iff.mp hres
      cases hattempt
    · rintro ⟨i, hi, -⟩
      cases hhost.symm.trans hi
  | some i =>
    have hpart := Sending.partitionFor_eq hkey turn n
    obtain ⟨e, turn', table', c', nodes', hstep, -, hc', hafter, h'⟩ :=
      step_delivers hreach hn hc htable h haccept
        (Option.isSome_of_eq_some
          ((congrArg (fun p => host (table.address p)) hpart).trans hhost)) hlen
    rw [hpart] at hafter
    refine ⟨_, _, turn', table', c', nodes', hstep, iff_of_true ⟨_, rfl⟩ rfl, hc', hafter, h',
      fun p => ?_⟩
    have hone : ([e].filter fun e => e.1 = p).length ≤ 1 := List.length_filter_le _ _
    rw [Bins.putAll_apply, List.length_append, List.length_map]
    omega

/-- **Keyed sends, one after another**: once one has been misled the table leads
to the owners, and until then it is still the same. -/
theorem run_keyed (hreach : cl.Reachable host) (hn : 0 < n) (hc : c.Keeps host topic turn table)
    (htable : table.Lists n) (h : Cluster.Serving topic n bins nodes) {sendings : List Sending}
    (hkey : ∀ s ∈ sendings, s.key.isSome) (haccept : ∀ s ∈ sendings, s.Acceptable)
    (hroom : ∀ p, (bins p).length + sendings.length ≤ 2 ^ 63) :
    ∃ bins' turn' table' c' nodes',
      ((machine host topic).run (c, nodes) (sendings.map Sending.call)).2 = (c', nodes')
      ∧ c'.Keeps host topic turn' table'
      ∧ ((∃ s ∈ sendings, table.Misleads host topic (s.partition n)) ∧ table'.Leads cl host topic n
        ∨ (¬∃ s ∈ sendings, table.Misleads host topic (s.partition n)) ∧ table' = table)
      ∧ Cluster.Serving topic n bins' nodes'
      ∧ ∀ p, (bins' p).length ≤ (bins p).length + sendings.length := by
  induction sendings generalizing c nodes turn table bins with
  | nil =>
    exact ⟨bins, turn, table, c, nodes, rfl, hc, Or.inr ⟨fun ⟨s, hs, _⟩ => (by cases hs), rfl⟩, h,
      fun p => le_rfl⟩
  | cons s sendings ih =>
    obtain ⟨hkey₀, hkeys⟩ := List.forall_mem_cons.mp hkey
    obtain ⟨haccept₀, haccepts⟩ := List.forall_mem_cons.mp haccept
    simp only [List.length_cons] at hroom ⊢
    obtain ⟨res, bins₁, turn₁, table₁, c₁, nodes₁, hstep, -, hc₁, hafter₁, h₁, hlen₁⟩ :=
      step_keyed hreach hn hc htable h hkey₀ haccept₀ fun p => by have := hroom p; omega
    have htable₁ : table₁.Lists n :=
      hafter₁.elim (fun h => h.2.lists) fun h => h.2.symm ▸ htable
    obtain ⟨bins', turn', table', c', nodes', hrun, hc', hafter, h', hlen'⟩ :=
      ih hc₁ htable₁ h₁ hkeys haccepts fun p => by have := hroom p; have := hlen₁ p; omega
    refine ⟨bins', turn', table', c', nodes', ?_, hc', ?_, h', fun p => ?_⟩
    · rw [List.map_cons, Machine.run, hstep]
      exact hrun
    · rw [List.exists_mem_cons_iff]
      rcases hafter₁ with ⟨hmisled, hleads⟩ | ⟨hnot, rfl⟩
      · -- the new table misleads nobody
        refine Or.inl ⟨Or.inl hmisled, ?_⟩
        rcases hafter with ⟨-, hleads'⟩ | ⟨-, rfl⟩
        · exact hleads'
        · exact hleads
      · rcases hafter with ⟨hmisled, hleads'⟩ | ⟨hnot', rfl⟩
        · exact Or.inl ⟨Or.inr hmisled, hleads'⟩
        · exact Or.inr ⟨fun hor => hor.elim hnot hnot', rfl⟩
    · have := hlen₁ p
      have := hlen' p
      omega

/-- **When a keyed record is delivered.** A client keeps an old table, whatever
the addresses in it, and sends keyed records one after another. A `send` is
acknowledged just where the address of its key leads to some broker, or that
of an earlier one led to a broker which did not own its partition: only a
refusal has the table fetched again. Where the address leads to nobody, the
owner is up all the while and never asked. -/
theorem send_keyed_iff (cl : Cluster) {host : String → Option (Fin cl.brokers)}
    (hreach : cl.Reachable host) (setup : List (Cluster.Act cl)) {topic : String} {n : ℕ}
    (hcreated : Cluster.Created topic n (cl.machine.run Cluster.State.empty setup).2)
    {c : Connection} {table : Routing} (hcached : c.cache.lookup topic = some table)
    (htable : table.Lists n) (hboot : ∃ address ∈ c.bootstrap, (host address).isSome)
    (before : List Sending) (s : Sending) (hkey : ∀ s' ∈ before ++ [s], s'.key.isSome)
    (haccept : ∀ s' ∈ before ++ [s], s'.Acceptable) (hroom : before.length < 2 ^ 63) :
    (∃ places, ((machine host topic).step ((machine host topic).run
          (c, (cl.machine.run Cluster.State.empty setup).2) (before.map Sending.call)).2 s.call).1
        = some (.ok places))
      ↔ (host (table.address (s.partition n))).isSome
        ∨ ∃ s' ∈ before, table.Misleads host topic (s'.partition n) := by
  obtain ⟨hn, hserving⟩ := hcreated.serving
  have hzero : ∀ p : ℕ, ((fun _ => [] : ℕ → List Given) p).length + before.length = before.length :=
    fun p => by rw [List.length_nil, Nat.zero_add]
  obtain ⟨bins, turn, table', c', nodes, hrun, hc', hafter, h', hlen⟩ :=
    run_keyed hreach hn (⟨hcached, rfl, hboot⟩ : c.Keeps host topic c.partitioner.next table) htable
      hserving (fun s' hs' => hkey s' (List.mem_append_left _ hs'))
      (fun s' hs' => haccept s' (List.mem_append_left _ hs')) fun p => (hzero p).trans_le hroom.le
  have htable' : table'.Lists n := hafter.elim (fun h => h.2.lists) fun h => h.2.symm ▸ htable
  obtain ⟨res, -, -, -, c'', nodes', hstep, hres, -⟩ := step_keyed hreach hn hc' htable' h'
    (hkey s (List.mem_append_right _ (List.mem_singleton_self s)))
    (haccept s (List.mem_append_right _ (List.mem_singleton_self s)))
    fun p => (hlen p).trans_lt ((hzero p).trans_lt hroom)
  rw [hrun, hstep]
  refine hres.trans ?_
  rcases hafter with ⟨hmisled, hleads⟩ | ⟨hnot, rfl⟩
  · obtain ⟨i, hi, -⟩ := hleads.right (p := s.partition n) (Nat.mod_lt _ hn)
    exact ⟨fun _ => Or.inr hmisled, fun _ => Option.isSome_of_eq_some hi⟩
  · exact ⟨Or.inl, fun h => h.elim id fun hmisled => absurd hmisled hnot⟩

omit [Crc32] in
/-- Nobody is at the address of the second partition. A record of the first
one is refused, and after it the second one's owner is found. -/
theorem send_keyed_pair : let _ := Crc32.zlib
    ∃ places, ((machine Cluster.pairHost "orders").step ((machine Cluster.pairHost "orders").run
        (oldClient "pyka-1:9090" "pyka-2:9090",
          (Cluster.pair.machine.run Cluster.State.empty Cluster.pairSetup).2)
        ([keyedSending (some [7])].map Sending.call)).2 (keyedSending (some [1])).call).1
      = some (.ok places) := by
  intro _
  have haccept : ∀ s ∈ [keyedSending (some [7]), keyedSending (some [1])], s.Acceptable :=
    fun s hs attempt hattempt => by
      simp only [List.mem_cons, List.not_mem_nil, or_false] at hs hattempt
      rcases hs with rfl | rfl <;> rcases hattempt with rfl | rfl <;> decide
  refine (send_keyed_iff Cluster.pair Cluster.reachable_pair Cluster.pairSetup
    Cluster.created_pair (AList.lookup_insert _) (lists_oldTable "pyka-1:9090" "pyka-2:9090")
    (bootstrap_oldClient "pyka-1:9090" "pyka-2:9090") [keyedSending (some [7])]
      (keyedSending (some [1]))
    (by decide) haccept (by decide)).mpr (Or.inr ⟨_, List.mem_singleton_self _, 1, ?_, ?_⟩) <;>
  decide +kernel

/-! ## Batches

A batch is sent by the table as it is; there is no second attempt. -/

/-- **Streams by an old table**: they all get through just where the table is
right for each of the records. -/
theorem streams_iff (hreach : cl.Reachable host) {groups : List (String × List (ℕ × Given))}
    (hkeyed : Grouping.Keyed (fun e : ℕ × Given => table.address e.1) groups)
    (hgroups : ∀ e ∈ Grouping.items groups, e.1 < n ∧ e.2.Acceptable)
    (h : Cluster.Serving topic n bins nodes)
    (hlen : ∀ p, (Bins.putAll bins (Grouping.items groups) p).length ≤ 2 ^ 63) :
    ∃ res bins' nodes', streams host (groups.map (Prod.map id (List.map (entry topic)))) nodes
        = (res, nodes')
      ∧ ((∃ places, res = .ok places)
        ↔ ∀ e ∈ Grouping.items groups, table.Right host topic e.1)
      ∧ Cluster.Serving topic n bins' nodes'
      ∧ ∀ p, (bins' p).length ≤ (Bins.putAll bins (Grouping.items groups) p).length := by
  induction groups generalizing bins nodes with
  | nil =>
    exact ⟨_, bins, nodes, rfl, iff_of_true ⟨[], rfl⟩ fun e he => (by cases he), h, fun p => le_rfl⟩
  | cons g groups ih =>
    obtain ⟨address, es⟩ := g
    -- a stream that ends with an error is the end of the batch
    have hfailed : ∀ e : ClientError, ¬∃ places : List (ℤ × ℤ),
        Except.error e = Except.ok places := by
      rintro e ⟨places, h⟩
      cases h
    have hitems : Grouping.items ((address, es) :: groups) = es ++ Grouping.items groups := rfl
    rw [hitems] at hgroups hlen ⊢
    have haddress : ∀ e ∈ es, table.address e.1 = address := hkeyed.key _ List.mem_cons_self
    have hes : ∀ e ∈ es, e.1 < n ∧ e.2.Acceptable := fun e he =>
      hgroups e (List.mem_append_left _ he)
    have hle : ∀ p, (Bins.putAll bins es p).length
        ≤ (Bins.putAll bins (es ++ Grouping.items groups) p).length :=
      Bins.length_putAll_le bins es (Grouping.items groups)
    simp only [List.map_cons, Prod.map, id, streams]
    by_cases hright : ∀ e ∈ es, table.Right host topic e.1
    · -- the broker at the address owns the partitions of the whole group
      obtain ⟨e, he⟩ := List.exists_mem_of_ne_nil _ (hkeyed.nonempty _ List.mem_cons_self)
      obtain ⟨i, hhost, -⟩ := hright e he
      rw [haddress e he] at hhost
      have howns : ∀ e ∈ es, (cl.ring i).ownsPartition topic e.1 = true := fun e he => by
        obtain ⟨j, hhost', ho⟩ := hright e he
        rw [haddress e he, hhost] at hhost'
        exact Option.some.inj hhost' ▸ ho
      obtain ⟨nodes₁, hcall, h₁⟩ := h.stream hhost (fun e he =>
        ⟨(hes e he).1, howns e he, (hes e he).2⟩)
        fun p => (hle p).trans (hlen p)
      obtain ⟨res, bins', nodes', hrest, hres, h', hlen'⟩ := ih hkeyed.tail
        (fun e he => hgroups e (List.mem_append_right _ he)) h₁
        (fun p => by rw [← Bins.putAll_append]; exact hlen p)
      have hcall : call host address nodes (fun s v =>
          let (responses, failure, s, v) := Handler.produceStream s v (es.map (entry topic))
          ((responses, failure), s, v)) = _ := hcall
      simp only [List.forall_mem_append, hcall, hrest, Bins.putAll_append]
      cases res with
      | error e =>
        exact ⟨_, bins', nodes', rfl,
          iff_of_false (hfailed e) fun hall => hfailed e (hres.mpr hall.2), h', hlen'⟩
      | ok results =>
        exact ⟨_, bins', nodes', rfl, iff_of_true ⟨_, rfl⟩ ⟨hright, hres.mp ⟨_, rfl⟩⟩, h', hlen'⟩
    · -- the stream ends with an error, and no other one is opened
      have hnot : ¬∀ e ∈ es ++ Grouping.items groups, table.Right host topic e.1 := fun hall =>
        hright fun e he => hall e (List.mem_append_left _ he)
      push Not at hright
      obtain ⟨e, he, hwrong⟩ := hright
      rcases table.right_or host topic e.1 with hr | ⟨i, hhost, ho⟩ | hnobody
      · exact absurd hr hwrong
      · rw [haddress e he] at hhost
        obtain ⟨stored, rest, responses, details, nodes', rfl, hcall, h'⟩ :=
          h.stream_refused hreach hhost hes (fun p => (hle p).trans (hlen p)) ⟨e, he, ho⟩
        have hcall : call host address nodes (fun s v =>
            let (responses, failure, s, v) :=
              Handler.produceStream s v ((stored ++ rest).map (entry topic))
            ((responses, failure), s, v)) = _ := hcall
        simp only [hcall]
        refine ⟨_, Bins.putAll bins stored, nodes', rfl, iff_of_false (hfailed _) hnot, h',
          fun p => ?_⟩
        exact (Bins.length_putAll_le bins stored rest p).trans (hle p)
      · rw [haddress e he] at hnobody
        have hcall : call host address nodes (fun s v =>
            let (responses, failure, s, v) := Handler.produceStream s v (es.map (entry topic))
            ((responses, failure), s, v)) = (none, nodes) := by
          unfold call
          simp only [hnobody]
        simp only [hcall]
        refine ⟨_, bins, nodes, rfl, iff_of_false (hfailed _) hnot, h, fun p => ?_⟩
        rw [Bins.putAll_apply, List.length_append]
        exact Nat.le_add_right _ _

/-- **A batch by an old table** gets through just where that is right for each of
its records. The client keeps it in any case. -/
theorem batch_iff (hreach : cl.Reachable host) (hn : 0 < n) (hc : c.Keeps host topic turn table)
    (htable : table.Lists n) (h : Cluster.Serving topic n bins nodes)
    {records : List (Option Bytes × Option Bytes × ℤ × ℚ)}
    (haccept : ∀ g ∈ (Call.sendBatch records).given, g.Acceptable)
    (hroom : ∀ p, (bins p).length + records.length ≤ 2 ^ 63) :
    ∃ res bins' c' nodes', (machine host topic).step (c, nodes) (.sendBatch records)
        = (some res, c', nodes')
      ∧ ((∃ places, res = .ok places)
        ↔ ∀ e ∈ routes n turn (Call.sendBatch records).given, table.Right host topic e.1)
      ∧ c'.Keeps host topic (turnAfter n turn (Call.sendBatch records).given) table
      ∧ Cluster.Serving topic n bins' nodes'
      ∧ ∀ p, (bins' p).length ≤ (bins p).length + records.length := by
  have hcover : table.Covers c.partitioner.next (Call.sendBatch records).given := fun e he => by
    rw [htable.len] at he ⊢
    exact ⟨hn, Option.isSome_of_eq_some (htable.lookup_address (mem_routes hn he).1)⟩
  have hgroup := @groupBatch_of_cached _ cl host topic c table hc.cached nodes records hcover []
  rw [htable.len, show c.partitioner.next = turn by rw [hc.turn]] at hgroup
  have hgiven : (routes n turn (Call.sendBatch records).given).length = records.length := by
    rw [← List.length_map (f := Prod.snd), map_snd_routes]
    exact List.length_map ..
  generalize hes : routes n turn (Call.sendBatch records).given = es at hgroup hgiven ⊢
  have hmem : ∀ e ∈ es, e.1 < n ∧ e.2.Acceptable := fun e he => by
    obtain ⟨hlt, hg, -⟩ := mem_routes hn (hes ▸ he)
    exact ⟨hlt, haccept e.2 hg⟩
  obtain ⟨hkeyed, hperm, -⟩ := Grouping.foldl_add_spec (fun e : ℕ × Given => table.address e.1) es
  have hmap := Grouping.foldl_add_map (fun e : ℕ × Given => table.address e.1) (entry topic) es []
  generalize es.foldl (fun grouped e => Grouping.add (table.address e.1) e grouped) [] = groups
    at hkeyed hperm hmap
  have hput : ∀ p, (Bins.putAll bins (Grouping.items groups) p).length
      ≤ (bins p).length + records.length := fun p => by
    rw [Bins.putAll_apply, List.length_append, List.length_map, ← hgiven, ← hperm.length_eq]
    exact Nat.add_le_add_left (List.length_filter_le _ _) _
  obtain ⟨res, bins', nodes', hstreams, hres, h', hlen'⟩ := streams_iff hreach hkeyed
    (fun e he => hmem e (hperm.mem_iff.mp he)) h fun p => (hput p).trans (hroom p)
  refine ⟨res, bins',
    { c with partitioner := ⟨turnAfter n turn (Call.sendBatch records).given⟩ }, nodes', ?_,
    hres.trans ?_, ⟨hc.cached, rfl, hc.bootstrap⟩, h', fun p => (hlen' p).trans (hput p)⟩
  · have hmap : es.foldl (fun grouped e =>
      Grouping.add (table.address e.1) (entry topic e) grouped) []
      = _ := hmap
    simp only [machine, sendBatch, Connection.routing_of_cached hc.cached, hgroup, hmap, hstreams]
  · exact forall_congr' fun e => by rw [hperm.mem_iff]

/-- **Batches, one after another**: the table stays as it is, so each finds
what the first found. -/
theorem run_batches (hreach : cl.Reachable host) (hn : 0 < n) (hc : c.Keeps host topic turn table)
    (htable : table.Lists n) (h : Cluster.Serving topic n bins nodes)
    {batches : List (List (Option Bytes × Option Bytes × ℤ × ℚ))}
    (haccept : ∀ records ∈ batches, ∀ g ∈ (Call.sendBatch records).given, g.Acceptable)
    (hroom : ∀ p, (bins p).length + batches.flatten.length ≤ 2 ^ 63) :
    ∃ bins' c' nodes', ((machine host topic).run (c, nodes) (batches.map .sendBatch)).2
      = (c', nodes')
      ∧ c'.Keeps host topic
        (turnAfter n turn (batches.flatMap fun records => (Call.sendBatch records).given)) table
      ∧ Cluster.Serving topic n bins' nodes'
      ∧ ∀ p, (bins' p).length ≤ (bins p).length + batches.flatten.length := by
  induction batches generalizing c nodes turn bins with
  | nil => exact ⟨bins, c, nodes, rfl, hc, h, fun p => le_rfl⟩
  | cons records batches ih =>
    obtain ⟨haccept₀, haccepts⟩ := List.forall_mem_cons.mp haccept
    simp only [List.flatten_cons, List.length_append] at hroom ⊢
    obtain ⟨res, bins₁, c₁, nodes₁, hstep, -, hc₁, h₁, hlen₁⟩ :=
      batch_iff hreach hn hc htable h haccept₀ fun p => by have := hroom p; omega
    obtain ⟨bins', c', nodes', hrun, hc', h', hlen'⟩ :=
      ih hc₁ h₁ haccepts fun p => by have := hroom p; have := hlen₁ p; omega
    refine ⟨bins', c', nodes', ?_, ?_, h', fun p => ?_⟩
    · rw [List.map_cons, Machine.run, hstep]
      exact hrun
    · rw [List.flatMap_cons]
      unfold turnAfter at hc' ⊢
      rw [List.foldl_append]
      exact hc'
    · have := hlen₁ p
      have := hlen' p
      omega

/-- **When a batch gets through.** A client keeps an old table, whatever the
addresses in it, and makes one `send_batch` after another. A batch returns the
places of its records just where the table is right for each of them, however
many batches have been refused before: none of them has it fetched again. -/
theorem batches_iff (cl : Cluster) {host : String → Option (Fin cl.brokers)}
    (hreach : cl.Reachable host) (setup : List (Cluster.Act cl)) {topic : String} {n : ℕ}
    (hcreated : Cluster.Created topic n (cl.machine.run Cluster.State.empty setup).2)
    {c : Connection} {table : Routing} (hcached : c.cache.lookup topic = some table)
    (htable : table.Lists n) (hboot : ∃ address ∈ c.bootstrap, (host address).isSome)
    (before : List (List (Option Bytes × Option Bytes × ℤ × ℚ)))
    (records : List (Option Bytes × Option Bytes × ℤ × ℚ))
    (haccept : ∀ batch ∈ before ++ [records], ∀ g ∈ (Call.sendBatch batch).given, g.Acceptable)
    (hroom : (before ++ [records]).flatten.length ≤ 2 ^ 63) :
    (∃ places, ((machine host topic).step ((machine host topic).run
          (c, (cl.machine.run Cluster.State.empty setup).2) (before.map .sendBatch)).2
            (.sendBatch records)).1 = some (.ok places))
      ↔ ∀ e ∈ routes n (turnAfter n c.partitioner.next
            (before.flatMap fun batch => (Call.sendBatch batch).given))
              (Call.sendBatch records).given,
          table.Right host topic e.1 := by
  obtain ⟨hn, hserving⟩ := hcreated.serving
  rw [List.flatten_append, List.length_append, List.flatten_singleton] at hroom
  obtain ⟨bins, c', nodes, hrun, hc', h', hlen⟩ :=
    run_batches hreach hn (⟨hcached, rfl, hboot⟩ : c.Keeps host topic c.partitioner.next table)
      htable
      hserving (fun batch hbatch => haccept batch (List.mem_append_left _ hbatch))
      fun p => by rw [List.length_nil]; omega
  obtain ⟨res, -, c'', nodes', hstep, hres, -⟩ := batch_iff hreach hn hc' htable h'
    (haccept records (List.mem_append_right _ (List.mem_singleton_self records)))
    fun p => by have := hlen p; rw [List.length_nil] at this; omega
  rw [hrun, hstep]
  exact (exists_congr fun places => ⟨Option.some.inj, congrArg some⟩).trans hres

omit [Crc32] in
/-- A batch goes to the wrong broker once more, although one before it was
refused. -/
theorem batches_pair : let _ := Crc32.zlib
    ¬∃ places, ((machine Cluster.pairHost "orders").step ((machine Cluster.pairHost "orders").run
        (oldClient "pyka-1:9090" "pyka-1:9090",
          (Cluster.pair.machine.run Cluster.State.empty Cluster.pairSetup).2)
        ([[(some [7], none, 0, 0)]].map .sendBatch)).2
        (.sendBatch [(some [1], none, 0, 0), (some [7], some [1], 0, 0)])).1
          = some (.ok places) := by
  intro _
  have hiff := batches_iff Cluster.pair Cluster.reachable_pair Cluster.pairSetup
    Cluster.created_pair (AList.lookup_insert _) (lists_oldTable "pyka-1:9090" "pyka-1:9090")
    (bootstrap_oldClient "pyka-1:9090" "pyka-1:9090") [[(some [7], none, 0, 0)]]
    [(some [1], none, 0, 0), (some [7], some [1], 0, 0)] (by decide) (by decide)
  rw [hiff]
  intro hall
  obtain ⟨i, hi, ho⟩ := hall (keyPartition [7] 2, ⟨some [7], some [1], none, 0, 0⟩)
    (List.mem_cons_of_mem _ List.mem_cons_self)
  have hpart : keyPartition [7] 2 = 0 := by decide +kernel
  rw [hpart] at hi ho
  have hsecond : some 1 = some i := hi
  cases hsecond
  exact absurd ho (by decide +kernel)

end Producer

end Pyka
