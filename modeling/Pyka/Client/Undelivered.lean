import Pyka.Broker.Acknowledged
import Pyka.Client.Delivery

/-!
# What a batch says of the records it could not deliver

`send_batch` opens a stream to each broker that some record goes to, one after
another, and collects the responses. It is to return a place for each record,
or else to hand back in a `DeliveryFailed` those without a response. But
nothing in it catches what a stream ends with: a `grpc.RpcError` goes to the
caller as it is, with no word of the records acknowledged before it, of those
left in the stream, and of those whose stream was never opened.

## Whatever the streams do

How the streams go is up to the brokers and to the network in between. So it
is a parameter (`Producer.Peers`): to the requests sent over a stream come
responses to the first of them, and to all of them unless the stream ends with
an error. That is what gRPC says of a stream, and all that is used. The
brokers of a cluster are one way for it to go (`Producer.sendBatch_eq_over`),
since each is asked once in a batch and what it answers can be said
beforehand. Whatever they do, a batch accounts for its records just where
every stream it needs gives all its responses
(`Producer.sendBatchOver_accounts_iff`).

## What it would be to account

Either as many places as there are records, or the records without a response,
in whatever order (`Accounts`). Nothing else will do: an exception that does
not say which records are missing leaves the caller with the choice between
losing some and sending some twice. The class of the exception matters as
well, since the source promises one base class for all that the library
raises.

The condition is on the table and on the streams that some record goes to. A
batch with no records opens none, and accounts for them.
-/

namespace Pyka

open Struct (Bytes)

namespace Producer

/-- A record as it is sent, with what the clocks of the broker say at it. -/
abbrev Sent : Type := ProduceRequest × ℤ × ℚ

/-- **How streams go**: to the requests that are sent over a stream to an
address come responses to the first of them, to all unless the stream ends
with an error. -/
structure Peers where
  responses : String → List Sent → List ProduceResponse
  error : String → List Sent → Option RpcError
  length_le : ∀ address requests, (responses address requests).length ≤ requests.length
  length_eq : ∀ address requests, error address requests = none →
    (responses address requests).length = requests.length

/-- One stream for each address, one after another. -/
def deliver (peers : Peers) : List (String × List Sent) → Except ClientError (List (ℤ × ℤ))
  | [] => .ok []
  | (address, requests) :: grouped =>
    match peers.error address requests with
    | some err => .error (.rpcError err)
    | none =>
      (deliver peers grouped).map fun results =>
        (peers.responses address requests).map (fun r => (r.partition, r.offset)) ++ results

/-- The records without a response: those left in the stream that failed, and
all behind it. -/
def unanswered (peers : Peers) : List (String × List Sent) → List (Option Bytes × Option Bytes)
  | [] => []
  | (address, requests) :: grouped =>
    (requests.drop (peers.responses address requests).length).map (fun r => (r.1.key, r.1.value))
      ++ match peers.error address requests with
        | some _ => (Grouping.items grouped).map fun r => (r.1.key, r.1.value)
        | none => unanswered peers grouped

/-- **Is every record accounted for?** Either there is a place for each, or
those without a response are handed back. -/
def Accounts (topic : String) (records : ℕ) (unanswered : List (Option Bytes × Option Bytes)) :
    Except ClientError (List (ℤ × ℤ)) → Prop
  | .ok places => places.length = records
  | .error (.deliveryFailed _ _ _ undelivered) =>
    undelivered.Perm (unanswered.map fun r => (topic, r.1, r.2))
  | .error _ => False

section Codec

variable [Crc32] {cl : Cluster} (host : String → Option (Fin cl.brokers))

/-- **`send_batch`**, whatever its streams do. -/
def sendBatchOver (peers : Peers) (c : Connection) (nodes : Cluster.State cl) (topic : String)
    (records : List (Option Bytes × Option Bytes × ℤ × ℚ)) : Except ClientError (List (ℤ × ℤ)) :=
  match c.routing host nodes topic false with
  | (.error e, _, _) => .error e
  | (.ok table, c, nodes) =>
    match groupBatch host table topic [] c nodes records with
    | (.error e, _, _) => .error e
    | (.ok grouped, _, _) => deliver peers grouped

/-- The records of a batch without a response: all of them where it does not
come to a stream. -/
def unansweredOf (peers : Peers) (c : Connection) (nodes : Cluster.State cl) (topic : String)
    (records : List (Option Bytes × Option Bytes × ℤ × ℚ)) : List (Option Bytes × Option Bytes) :=
  match c.routing host nodes topic false with
  | (.error _, _, _) => records.map fun r => (r.1, r.2.1)
  | (.ok table, c, nodes) =>
    match groupBatch host table topic [] c nodes records with
    | (.error _, _, _) => records.map fun r => (r.1, r.2.1)
    | (.ok grouped, _, _) => unanswered peers grouped

/-- The requests for records that go to an address. -/
def requestsTo (table : Routing) (topic : String) (turn : ℕ) (gs : List Given) (address : String) :
    List Sent :=
  ((routes table.len turn gs).filter fun e => table.address e.1 = address).map (entry topic)

end Codec

/-! ## Streams

The streams one after another, without a client: when they get through, and
what comes of it. -/

variable {peers peers' : Peers} {groups : List (String × List Sent)}

/-- A stream that ends with an error ends the batch. -/
theorem deliver_of_error {g : String × List Sent} {err : RpcError}
    (h : peers.error g.1 g.2 = some err) :
    deliver peers (g :: groups) = .error (.rpcError err) := by
  rw [deliver, h]

/-- One that does not has its responses before those of the rest. -/
theorem deliver_of_none {g : String × List Sent} (h : peers.error g.1 g.2 = none) :
    deliver peers (g :: groups) = (deliver peers groups).map fun results =>
      (peers.responses g.1 g.2).map (fun r => (r.partition, r.offset)) ++ results := by
  rw [deliver, h]

/-- **A batch gets through where every stream does.** -/
theorem deliver_eq_ok_iff : (∃ places, deliver peers groups = .ok places)
    ↔ ∀ g ∈ groups, peers.error g.1 g.2 = none := by
  induction groups with
  | nil => exact ⟨fun _ g hg => (by cases hg), fun _ => ⟨[], rfl⟩⟩
  | cons g groups ih =>
    rw [List.forall_mem_cons, ← ih]
    cases hstream : peers.error g.1 g.2 with
    | some err =>
      rw [deliver_of_error hstream]
      exact ⟨fun ⟨_, h⟩ => (by cases h), fun ⟨h, _⟩ => by cases h⟩
    | none =>
      rw [deliver_of_none hstream]
      cases deliver peers groups with
      | error e => exact ⟨fun ⟨_, h⟩ => (by cases h), fun ⟨_, _, h⟩ => by cases h⟩
      | ok places => exact ⟨fun _ => ⟨rfl, places, rfl⟩, fun _ => ⟨_, rfl⟩⟩

/-- Then there is a place for each record. -/
theorem length_deliver {places : List (ℤ × ℤ)} (h : deliver peers groups = .ok places) :
    places.length = (Grouping.items groups).length := by
  induction groups generalizing places with
  | nil =>
    cases h
    rfl
  | cons g groups ih =>
    have hstream := deliver_eq_ok_iff.mp ⟨places, h⟩ g List.mem_cons_self
    rw [deliver_of_none hstream] at h
    cases hrest : deliver peers groups with
    | error e =>
      rw [hrest] at h
      cases h
    | ok results =>
      rw [hrest] at h
      cases h
      show (_ ++ results).length = (g.2 ++ Grouping.items groups).length
      rw [List.length_append, List.length_append, List.length_map, peers.length_eq _ _ hstream,
        ih hrest]

/-- What a stream ends with goes to the caller. -/
theorem deliver_eq_error {e : ClientError} (h : deliver peers groups = .error e) :
    ∃ err, e = .rpcError err := by
  induction groups with
  | nil => cases h
  | cons g groups ih =>
    cases hstream : peers.error g.1 g.2 with
    | some err =>
      rw [deliver_of_error hstream] at h
      cases h
      exact ⟨err, rfl⟩
    | none =>
      rw [deliver_of_none hstream] at h
      cases hrest : deliver peers groups with
      | error e' =>
        rw [hrest] at h
        cases h
        exact ih hrest
      | ok results =>
        rw [hrest] at h
        cases h

/-- Only the streams that are opened count. -/
theorem deliver_congr (h : ∀ g ∈ groups, peers.error g.1 g.2 = peers'.error g.1 g.2
    ∧ peers.responses g.1 g.2 = peers'.responses g.1 g.2) :
    deliver peers groups = deliver peers' groups := by
  induction groups with
  | nil => rfl
  | cons g groups ih =>
    obtain ⟨herr, hresponses⟩ := h g List.mem_cons_self
    have hrest := ih fun g' hg' => h g' (List.mem_cons_of_mem _ hg')
    cases hstream : peers'.error g.1 g.2 with
    | some err => rw [deliver_of_error hstream, deliver_of_error (herr.trans hstream)]
    | none => rw [deliver_of_none hstream, deliver_of_none (herr.trans hstream), hresponses, hrest]

/-! ## Batches

From records to streams, and back to the records. -/

section Codec

variable [Crc32] {cl : Cluster} {host : String → Option (Fin cl.brokers)} {topic : String}
  {nodes : Cluster.State cl} {c : Connection} {table : Routing}

/-- Where the table does not have the partition of a record, no stream is
opened. -/
theorem groupBatch_uncovered (hc : c.cache.lookup topic = some table)
    {records : List (Option Bytes × Option Bytes × ℤ × ℚ)}
    (hcover : ¬table.Covers c.partitioner.next (Call.sendBatch records).given)
    (grouped : List (String × List Sent)) :
    ∃ e out, groupBatch host table topic grouped c nodes records = (.error e, out)
      ∧ ((∃ p, e = .keyError p) ∨ ∃ raised, e = .pyError raised) := by
  induction records generalizing c grouped with
  | nil => exact absurd (fun e he => by cases he) hcover
  | cons r records ih =>
    obtain ⟨key, value, clock, elapsed⟩ := r
    unfold groupBatch
    by_cases hn : 0 < table.len
    · rw [Connection.partitionFor_of_cached hc nodes hn key]
      cases hlookup : table.lookup
          ((Catalog.partitionFor c.partitioner.next key table.len).1 : ℤ) with
      | none =>
        simp only [hlookup]
        exact ⟨_, _, rfl, Or.inl ⟨_, rfl⟩⟩
      | some address =>
        simp only [hlookup]
        have hc' : (Connection.cache { c with partitioner :=
          ⟨(Catalog.partitionFor c.partitioner.next key table.len).2⟩ }).lookup topic
            = some table := hc
        refine ih hc' (fun hrest => hcover fun e he => ?_) _
        rcases List.mem_cons.mp he with rfl | he
        · exact ⟨hn, Option.isSome_of_eq_some hlookup⟩
        · exact hrest e he
    · -- a table with nothing in it
      have hpart : c.partitionFor host nodes topic key = (.error (.pyError (.valueError
          s!"partitions must be >= 1, got {table.len}")), c, nodes) := by
        unfold Connection.partitionFor
        rw [Connection.routing_of_cached hc]
        simp only [Partitioner.partitionFor, if_pos (show table.len < 1 by omega)]
        rfl
      rw [hpart]
      exact ⟨_, _, rfl, Or.inr ⟨_, rfl⟩⟩

/-! ### The brokers of a cluster

Streams to brokers as a case of streams that go in some way. No address is
asked twice. -/

omit [Crc32] in
/-- No broker is up: every stream ends with `UNAVAILABLE`, without a response. -/
def Peers.down : Peers where
  responses _ _ := []
  error _ _ := some .unavailable
  length_le _ _ := Nat.zero_le _
  length_eq _ _ h := by cases h

omit [Crc32] in
open Classical in
/-- The same streams, but for one. -/
noncomputable def Peers.set (peers : Peers) (address : String) (requests : List Sent)
    (responses : List ProduceResponse) (error : Option RpcError)
    (hle : responses.length ≤ requests.length)
    (heq : error = none → responses.length = requests.length) : Peers where
  responses a rs := if a = address ∧ rs = requests then responses else peers.responses a rs
  error a rs := if a = address ∧ rs = requests then error else peers.error a rs
  length_le a rs := by
    split_ifs with h
    · exact h.2 ▸ hle
    · exact peers.length_le a rs
  length_eq a rs := by
    split_ifs with h
    · exact h.2 ▸ heq
    · exact peers.length_eq a rs

/-- **The brokers of a cluster are peers.** No broker is asked twice, so what
becomes of each stream can be said beforehand. -/
theorem streams_eq_deliver (hnodup : (groups.map Prod.fst).Nodup) (nodes : Cluster.State cl) :
    ∃ peers, (streams host groups nodes).1 = deliver peers groups := by
  induction groups generalizing nodes with
  | nil => exact ⟨.down, rfl⟩
  | cons g groups ih =>
    obtain ⟨address, requests⟩ := g
    obtain ⟨hnotin, hrest⟩ := List.nodup_cons.mp hnodup
    rw [streams]
    generalize hcall : call host address nodes _ = out
    obtain ⟨res, nodes₁⟩ := out
    obtain ⟨peers, hpeers⟩ := ih hrest nodes₁
    -- what this broker does, and the others as before
    have hset : ∀ responses error hle heq,
        deliver (peers.set address requests responses error hle heq) groups
          = deliver peers groups :=
      fun responses error hle heq => deliver_congr fun g hg => by
        have hne : ¬(g.1 = address ∧ g.2 = requests) := fun h =>
          hnotin (show address ∈ groups.map Prod.fst from h.1 ▸ List.mem_map_of_mem hg)
        exact ⟨if_neg hne, if_neg hne⟩
    cases res with
    | none =>
      refine ⟨peers.set address requests [] (some .unavailable) (Nat.zero_le _) fun h =>
        (by cases h), ?_⟩
      rw [deliver_of_error (if_pos ⟨rfl, rfl⟩)]
    | some out =>
      obtain ⟨responses, failure⟩ := out
      obtain ⟨hle, heq⟩ : responses.length ≤ requests.length
          ∧ (failure = none → responses.length = requests.length) := by
        unfold call at hcall
        cases hhost : host address with
        | none => simp [hhost] at hcall
        | some i =>
          cases hs : (nodes i).store with
          | none => simp [hhost, hs] at hcall
          | some s =>
            simp only [hhost, hs, Prod.mk.injEq, Option.some.injEq] at hcall
            obtain ⟨⟨rfl, rfl⟩, -⟩ := hcall
            exact Handler.length_produceStream s (.of (nodes i).root) requests
      cases failure with
      | some failure =>
        refine ⟨peers.set address requests responses (some failure.toRpc) hle fun h =>
          (by cases h), ?_⟩
        rw [deliver_of_error (if_pos ⟨rfl, rfl⟩)]
      | none =>
        have heq := heq rfl
        refine ⟨peers.set address requests responses none hle fun _ => heq, ?_⟩
        rw [deliver_of_none (if_pos ⟨rfl, rfl⟩), hset, ← hpeers]
        have hsent : (peers.set address requests responses none hle
            fun _ => heq).responses address requests
            = responses := if_pos ⟨rfl, rfl⟩
        simp only [hsent]
        cases hstreams : streams host groups nodes₁ with
        | mk rest nodes₂ => cases rest <;> rfl

/-- A batch has one group for each address. -/
theorem groupBatch_nodup {records : List (Option Bytes × Option Bytes × ℤ × ℚ)}
    {grouped grouped' : List (String × List Sent)} {out : Connection × Cluster.State cl}
    (h : groupBatch host table topic grouped c nodes records = (.ok grouped', out))
    (hnodup : (grouped.map Prod.fst).Nodup) : (grouped'.map Prod.fst).Nodup := by
  induction records generalizing grouped c nodes with
  | nil =>
    cases h
    exact hnodup
  | cons r records ih =>
    obtain ⟨key, value, clocks⟩ := r
    unfold groupBatch at h
    cases hpart : c.partitionFor host nodes topic key with
    | mk res rest =>
    obtain ⟨c₁, nodes₁⟩ := rest
    cases res with
    | error e => simp [hpart] at h
    | ok partition =>
      cases hlookup : table.lookup (partition : ℤ) with
      | none => simp [hpart, hlookup] at h
      | some address =>
        simp only [hpart, hlookup] at h
        exact ih h (Grouping.nodup_keys_add hnodup _ _)

/-- **`send_batch` on a cluster** is `send_batch` with streams that go in some
way. -/
theorem sendBatch_eq_over (host : String → Option (Fin cl.brokers)) (c : Connection)
    (nodes : Cluster.State cl) (topic : String)
    (records : List (Option Bytes × Option Bytes × ℤ × ℚ)) :
    ∃ peers, (sendBatch host c nodes topic records).1
      = sendBatchOver host peers c nodes topic records := by
  unfold sendBatch sendBatchOver
  cases hrouting : c.routing host nodes topic false with
  | mk res rest =>
  obtain ⟨c₁, nodes₁⟩ := rest
  cases res with
  | error e => exact ⟨.down, rfl⟩
  | ok table =>
    cases hgroup : groupBatch host table topic [] c₁ nodes₁ records with
    | mk res rest =>
    obtain ⟨c₂, nodes₂⟩ := rest
    cases res with
    | error e =>
      exact ⟨.down, by simp only [hgroup]⟩
    | ok grouped =>
      simp only [hgroup]
      exact streams_eq_deliver (groupBatch_nodup hgroup List.nodup_nil) nodes₂

/-! ### When a batch accounts for its records

The theorem, for any records, any table that is kept, and any streams. -/

/-- **A batch accounts for its records where every stream gets through.** Of
any records, with any table and whatever the streams do, `send_batch` returns
a place for each or hands back those without a response if and only if the
table has the partitions of the records and no stream to an address that some
record goes to ends with an error. -/
theorem sendBatchOver_accounts_iff (peers : Peers) (hc : c.cache.lookup topic = some table)
    (nodes : Cluster.State cl) (records : List (Option Bytes × Option Bytes × ℤ × ℚ)) :
    Accounts topic records.length (unansweredOf host peers c nodes topic records)
        (sendBatchOver host peers c nodes topic records)
      ↔ table.Covers c.partitioner.next (Call.sendBatch records).given
        ∧ ∀ address, requestsTo table topic c.partitioner.next
          (Call.sendBatch records).given address ≠ [] →
          peers.error address
            (requestsTo table topic c.partitioner.next (Call.sendBatch records).given address)
              = none := by
  unfold sendBatchOver
  rw [Connection.routing_of_cached hc]
  by_cases hcover : table.Covers c.partitioner.next (Call.sendBatch records).given
  · obtain ⟨hkeyed, hperm, hfilter⟩ := Grouping.foldl_add_spec
      (fun e : ℕ × Given => table.address e.1)
      (routes table.len c.partitioner.next (Call.sendBatch records).given)
    have hmap := Grouping.foldl_add_map (fun e : ℕ × Given => table.address e.1) (entry topic)
      (routes table.len c.partitioner.next (Call.sendBatch records).given) []
    have hlen : (routes table.len c.partitioner.next (Call.sendBatch records).given).length
        = records.length := by
      rw [← List.length_map (f := Prod.snd), map_snd_routes]
      exact List.length_map _
    have hgroup := @groupBatch_of_cached _ cl host topic c table hc nodes records hcover []
    unfold requestsTo
    generalize routes table.len c.partitioner.next (Call.sendBatch records).given = es
      at hkeyed hperm hfilter hmap hlen hgroup ⊢
    generalize es.foldl (fun grouped e => Grouping.add (table.address e.1) e grouped) [] = groups
      at hkeyed hperm hfilter hmap
    have hmap : es.foldl (fun grouped e =>
      Grouping.add (table.address e.1) (entry topic e) grouped) []
      = _ := hmap
    -- the group of an address is what goes there
    have hrequests : ∀ g ∈ groups, (es.filter fun e => table.address e.1 = g.1) = g.2 :=
        fun g hg => by
      rw [← hkeyed.filter_items hg]
      exact (hfilter _ fun a b ha hb => by rw [of_decide_eq_true hb, of_decide_eq_true ha]).symm
    rw [hmap] at hgroup
    simp only [hgroup]
    have hok : (∃ places, deliver peers (groups.map (Prod.map id (List.map (entry topic))))
        = .ok places)
        ↔ ∀ address, ((es.filter fun e => table.address e.1 = address).map (entry topic)) ≠ [] →
          peers.error address ((es.filter fun e => table.address e.1 = address).map (entry topic))
            = none := by
      rw [deliver_eq_ok_iff, List.forall_mem_map]
      constructor
      · intro hall address hne
        obtain ⟨e, he⟩ := List.exists_mem_of_ne_nil _ (fun h => hne (by rw [h]; rfl) :
          (es.filter fun e => table.address e.1 = address) ≠ [])
        obtain ⟨hmem, haddress⟩ := List.mem_filter.mp he
        obtain ⟨g, hg, heg⟩ := List.mem_flatMap.mp (hperm.mem_iff.mpr hmem)
        obtain rfl : g.1 = address :=
          (hkeyed.key g hg e heg).symm.trans (of_decide_eq_true haddress)
        rw [hrequests g hg]
        exact hall g hg
      · intro hall g hg
        have hone := hall g.1
        rw [hrequests g hg] at hone
        exact hone fun h => hkeyed.nonempty g hg (List.map_eq_nil_iff.mp h)
    rw [← hok]
    refine ⟨fun hacc => ⟨hcover, ?_⟩, fun ⟨_, places, hplaces⟩ => ?_⟩
    · cases hout : deliver peers (groups.map (Prod.map id (List.map (entry topic)))) with
      | ok places => exact ⟨places, rfl⟩
      | error e =>
        rw [hout] at hacc
        obtain ⟨err, rfl⟩ := deliver_eq_error hout
        exact absurd hacc id
    · rw [hplaces]
      show places.length = records.length
      rw [length_deliver hplaces, ← hlen, ← hperm.length_eq, Grouping.items, Grouping.items,
        List.length_flatMap, List.length_flatMap, List.map_map]
      exact congrArg List.sum (List.map_congr_left fun g _ => List.length_map _)
  · obtain ⟨e, out, hgroup, hwhat⟩ :=
      @groupBatch_uncovered _ cl host topic nodes c table hc records hcover []
    simp only [hgroup]
    refine ⟨fun hacc => ?_, fun h => absurd h.1 hcover⟩
    rcases hwhat with ⟨p, rfl⟩ | ⟨raised, rfl⟩ <;> exact absurd hacc id

end Codec

/-! ### Two records for two brokers

The same two records with both brokers up, and with the second one down. -/

/-- Brokers that are all up but for those at some addresses. -/
def Peers.upBut (down : List String) : Peers where
  responses address requests :=
    if address ∈ down then [] else requests.map fun r =>
      ⟨r.1.partition.getD 0, 0, r.1.correlationId⟩
  error address _ := if address ∈ down then some .unavailable else none
  length_le address requests := by
    split_ifs
    · exact Nat.zero_le _
    · exact (List.length_map _).le
  length_eq address requests h := by
    split_ifs with hdown
    · rw [if_pos hdown] at h
      cases h
    · exact List.length_map _

/-- Two partitions, each with an owner of its own. -/
def twoOwners : Routing := (AList.singleton 0 "pyka-0").insert 1 "pyka-1"

/-- A client that knows the owners. -/
def knowsBoth : Connection := ⟨["pyka-0"], AList.singleton "orders" twoOwners, ⟨0⟩⟩

/-- Two records that take turns. -/
def twoRecords : List (Option Bytes × Option Bytes × ℤ × ℚ) :=
  [(none, some [97], 10, 0), (none, some [98], 11, 0)]

theorem sendBatchOver_accounts_iff_up : let _ := Crc32.zlib
    let nobody (_ : String) : Option (Fin Cluster.pair.brokers) := none
    Accounts "orders" 2
      (unansweredOf nobody (.upBut []) knowsBoth Cluster.State.empty "orders" twoRecords)
      (sendBatchOver nobody (.upBut []) knowsBoth Cluster.State.empty "orders" twoRecords) := by
  intro _ nobody
  have hc : knowsBoth.cache.lookup "orders" = some twoOwners := rfl
  have hcover : twoOwners.Covers knowsBoth.partitioner.next (Call.sendBatch twoRecords).given := by
    unfold Routing.Covers
    decide +kernel
  have hup : ∀ address requests, (Peers.upBut []).error address requests = none :=
      fun address requests => by
    show (if address ∈ [] then some RpcError.unavailable else none) = none
    exact if_neg List.not_mem_nil
  exact (sendBatchOver_accounts_iff (.upBut []) hc Cluster.State.empty twoRecords).mpr
    ⟨hcover, fun address _ => hup address _⟩

/-- **The second broker is down.** The first record has its response; neither
its place nor the second record comes back. -/
theorem sendBatchOver_second_down : let _ := Crc32.zlib
    let nobody (_ : String) : Option (Fin Cluster.pair.brokers) := none
    unansweredOf nobody (.upBut ["pyka-1"]) knowsBoth Cluster.State.empty "orders" twoRecords
        = [(none, some [98])]
      ∧ sendBatchOver nobody (.upBut ["pyka-1"]) knowsBoth Cluster.State.empty "orders" twoRecords
        = .error (.rpcError .unavailable)
      ∧ ¬Accounts "orders" 2
        (unansweredOf nobody (.upBut ["pyka-1"]) knowsBoth Cluster.State.empty "orders" twoRecords)
        (sendBatchOver nobody (.upBut ["pyka-1"]) knowsBoth Cluster.State.empty "orders"
          twoRecords) := by
  intro _ nobody
  have hout : sendBatchOver nobody (.upBut ["pyka-1"]) knowsBoth Cluster.State.empty "orders"
      twoRecords
      = .error (.rpcError .unavailable) := by
    decide +kernel
  refine ⟨by decide +kernel, hout, fun hacc => ?_⟩
  rw [hout] at hacc
  exact hacc

end Producer

end Pyka
