import Pyka.Broker.LiveTailSpec
import Pyka.Client.Client

/-!
# A broker that serves a topic

What one broker answers to a client as long as nobody else writes to the
topic, said over the records that the client has given it (`Given`), in bins
by their partitions. A broker that has the topic and holds what is in the bins
of its own partitions (`Store.Serves`) puts a record at the end of its bin,
answers with the place, and a `Consume` from the start yields the bin.

## Bins

The bins are what the client has in mind: all records it has given, each with
its partition, for all brokers together. A broker is held to those of its own
partitions only, and says nothing of others', so one function from partitions
to records serves every broker of a cluster. What a stored record is can be
read off the bin: its offset is its place, and its time is its own or that of
the broker's clock when it got there.

## A stream to its end

The second half is about a `Consume` that has the broker to itself: which step
comes next is settled, so a number of steps can be taken together
(`State.drain`). One round reads a batch and yields it, and the rounds are put
together by induction on what is left of the bin. A round that was short is
the last, so a number of steps exists after which the stream has ended, and it
has yielded the bin by then; that is the liveness of a read, and is needed
where a consumer is to get all of its records and not only a front.
-/

namespace Pyka

open Struct (Bytes)

/-- **A record as it is given to a client**, with what the clocks of its
broker say when it gets there. -/
structure Given where
  key : Option Bytes
  value : Option Bytes
  timestamp : Option ℤ
  clock : ℤ
  elapsed : ℚ

namespace Given

/-- The record that is stored for it, at an offset. -/
def record (g : Given) (offset : ℕ) : Record := ⟨offset, g.timestamp.getD g.clock, g.key, g.value⟩

/-- The records of a partition that these have gone to, in order. -/
def records (gs : List Given) : List Record := gs.mapIdx fun offset g => g.record offset

/-- The request it is sent with. -/
def request (topic : String) (p : ℕ) (g : Given) : ProduceRequest :=
  ⟨topic, g.key, g.value, g.timestamp, none, some p⟩

/-- **A broker accepts it**: its timestamp and its size are in bounds,
whatever the offset. -/
def Acceptable (g : Given) : Prop := (g.record 0).Encodable

instance (g : Given) : Decidable g.Acceptable := inferInstanceAs (Decidable (g.record 0).Encodable)

/-- So it can be stored at any offset there can be. -/
theorem Acceptable.encodable {g : Given} (h : g.Acceptable) {offset : ℕ} (hoff : offset < 2 ^ 63) :
    (g.record offset).Encodable where
  offset := by
    show -((256 ^ 8 : ℕ) / 2 : ℤ) ≤ (offset : ℤ) ∧ (offset : ℤ) < (256 ^ 8 : ℕ) / 2
    norm_num
    omega
  timestamp := h.timestamp
  size := h.size

@[simp] theorem length_records (gs : List Given) : (records gs).length = gs.length :=
  List.length_mapIdx

theorem records_append (gs : List Given) (g : Given) :
    records (gs ++ [g]) = records gs ++ [g.record gs.length] := by
  unfold records
  rw [List.mapIdx_concat]

end Given

variable [Crc32]

/-! ## Requests to one broker

Each request by what it does to the bins. All but producing leave them. -/

namespace Store

/-- **A broker that serves a topic** of `n` partitions: for each partition
that its ring gives to it, it holds what is in the bin. -/
structure Serves (s : Store) (v : Volume) (ring : Ring) (topic : String) (n : ℕ)
    (bins : ℕ → List Given) (c : Catalog) : Prop where
  rep : s.Rep v c
  sameRing : s.ring = ring
  count : c.counts topic = some n
  records : ∀ p, ring.ownsPartition topic p = true → c.records topic p = Given.records (bins p)

variable {s : Store} {v : Volume} {ring : Ring} {topic : String} {n p : ℕ}
  {bins bins' : ℕ → List Given} {c c' : Catalog}

/-- What is stored here is what the ring gives to this broker. -/
theorem Serves.owns (h : s.Serves v ring topic n bins c) :
    s.topic.holder.owns = ring.ownsPartition := h.sameRing ▸ h.rep.owns

/-- A topic that is there has a good name. -/
theorem Serves.name (h : s.Serves v ring topic n bins c) : validateName topic = .ok () :=
  (h.rep.topic.stores.names h.count).1

/-- What others hold does not matter. -/
theorem Serves.congr (h : s.Serves v ring topic n bins c)
    (hb : ∀ p, ring.ownsPartition topic p = true → bins' p = bins p) :
    s.Serves v ring topic n bins' c :=
  ⟨h.rep, h.sameRing, h.count, fun p ho => by rw [hb p ho, h.records p ho]⟩

/-- How the data root got there does not matter. -/
theorem Serves.of (h : s.Serves v ring topic n bins c) :
    s.Serves (.of v.root) ring topic n bins c :=
  ⟨⟨h.rep.topic.of, h.rep.owns⟩, h.sameRing, h.count, h.records⟩

/-- What adds no record leaves it so: reading, asking, and every refusal. -/
theorem Serves.settle {α : Type} (h : s.Serves v ring topic n bins c)
    {out : α × Store × Volume} {answer : α} (hf : Follows s v out answer c')
    (hset : c.Settles s.topic.holder c') : out.2.1.Serves out.2.2 ring topic n bins c' :=
  ⟨hf.rep, hf.ring.trans h.sameRing, hset.counts h.count,
    fun p ho => (hset.records topic p).trans (h.records p ho)⟩

/-- **A record is put at the end of its bin**, and the broker says where. -/
theorem Serves.produce (h : s.Serves v ring topic n bins c) (hp : p < n)
    (ho : ring.ownsPartition topic p = true) {g : Given} (hg : g.Acceptable)
    (hlen : (bins p).length < 2 ^ 63) :
    ∃ s' v' c', Handler.produce s v (g.request topic p) g.clock g.elapsed
        = (.ok ⟨p, (bins p).length, none⟩, s', v')
      ∧ s'.Serves v' ring topic n (Bins.put bins (p, g)) c' := by
  have hlog : (c.records topic p).length = (bins p).length := by
    rw [h.records p ho, Given.length_records]
  have hanswer : (Handler.append s v (g.request topic p) g.clock g.elapsed).1
      = .ok (p, ((bins p).length : ℤ)) := by
    rw [← hlog]
    refine Handler.append_answers h.rep h.name h.count rfl hp ?_ ?_
    · rw [h.owns]
      exact ho
    · have henc := hg.encodable hlen
      rwa [← hlog] at henc
  obtain ⟨answer, c', hf, -, hout⟩ :=
    Handler.append_spec h.rep (g.request topic p) g.clock g.elapsed
  refine ⟨(Handler.append s v (g.request topic p) g.clock g.elapsed).2.1,
    (Handler.append s v (g.request topic p) g.clock g.elapsed).2.2, c', ?_, ?_⟩
  · unfold Handler.produce
    simp only [hanswer]
    rfl
  · rw [hf.answer] at hanswer
    rcases hout with ⟨failure, rfl, -⟩ | ⟨q, r, rfl, -, hts, hkey, hvalue, hadds⟩
    · cases hanswer
    · have hpair := Except.ok.inj hanswer
      obtain rfl : q = p := Int.ofNat.inj (congrArg Prod.fst hpair)
      have hr : r = g.record (bins q).length := by
        obtain ⟨offset, timestamp, key, value⟩ := r
        obtain rfl : offset = ((bins q).length : ℤ) := congrArg Prod.snd hpair
        cases hts
        cases hkey
        cases hvalue
        rfl
      refine ⟨hf.rep, hf.ring.trans h.sameRing, hadds.counts h.count, fun q' ho' => ?_⟩
      rw [hadds.records]
      by_cases hq : q' = q
      · subst hq
        have hput : Bins.put bins (q', g) q' = bins q' ++ [g] := Bins.put_self bins (q', g)
        rw [if_pos ⟨rfl, rfl⟩, hput, Given.records_append, ← hr, ← h.records q' ho']
        rfl
      · rw [if_neg fun h => hq h.2, h.records q' ho']
        exact congrArg _ (Bins.put_of_ne (e := (q, g)) hq).symm

/-- **A stream puts its records into their bins** one after another, and
answers with their places. -/
theorem Serves.produceStream {es : List (ℕ × Given)} (h : s.Serves v ring topic n bins c)
    (hes : ∀ e ∈ es, e.1 < n ∧ ring.ownsPartition topic e.1 = true ∧ e.2.Acceptable)
    (hlen : ∀ p, (Bins.putAll bins es p).length ≤ 2 ^ 63) :
    ∃ s' v' c', Handler.produceStream s v
        (es.map fun e => (e.2.request topic e.1, e.2.clock, e.2.elapsed))
        = ((Bins.places bins es).map (fun place => ⟨place.1, place.2, none⟩), none, s', v')
      ∧ s'.Serves v' ring topic n (Bins.putAll bins es) c' := by
  induction es generalizing s v bins c with
  | nil => exact ⟨s, v, c, rfl, h⟩
  | cons e es ih =>
    obtain ⟨hp, ho, hg⟩ := hes e List.mem_cons_self
    have hroom : (bins e.1).length < 2 ^ 63 := by
      have hfull := hlen e.1
      rw [Bins.putAll_apply, List.filter_cons_of_pos (p := fun e' : ℕ × Given => e'.1 = e.1)
        (decide_eq_true rfl), List.length_append, List.map_cons, List.length_cons] at hfull
      omega
    obtain ⟨s₁, v₁, c₁, hprod, h₁⟩ := h.produce hp ho hg hroom
    obtain ⟨s', v', c', hrest, h'⟩ := ih h₁ (fun e he => hes e (List.mem_cons_of_mem _ he)) hlen
    refine ⟨s', v', c', ?_, h'⟩
    simp only [List.map_cons, Handler.produceStream, hprod, hrest]
    rfl

/-- **What a read answers**: a batch of the bin from an offset on. -/
theorem Serves.read (h : s.Serves v ring topic n bins c) (hp : p < n)
    (ho : ring.ownsPartition topic p = true) (request : ConsumeRequest)
    (htopic : request.topic = topic) (hpart : request.partition = p) {offset : ℤ} (limit : ℤ)
    (hoff : 0 ≤ offset) :
    ∃ s' v' c', Handler.read s v request offset limit
        = (.ok (if 0 < limit ∧ limit ≤ ((Given.records (bins p)).drop offset.toNat).length
            then ((Given.records (bins p)).drop offset.toNat).take limit.toNat
            else (Given.records (bins p)).drop offset.toNat), s', v')
      ∧ s'.Serves v' ring topic n bins c' := by
  subst htopic
  obtain ⟨records, hanswer⟩ := Handler.read_answers h.rep request offset limit h.name h.count
    hpart hp (by rw [h.owns]; exact ho) hoff
  obtain ⟨answer, c', hf, hset, -, hread⟩ := Handler.read_spec h.rep request offset limit
  rw [hf.answer] at hanswer
  obtain ⟨-, q, hq, -, -, hrecords⟩ := hread records hanswer
  obtain rfl : q = p := Int.ofNat.inj (hq.symm.trans hpart)
  rw [h.records q ho] at hrecords
  refine ⟨_, _, c', Prod.ext ?_ rfl, h.settle hf hset⟩
  show (Handler.read s v request offset limit).1 = _
  rw [hf.answer, hanswer, hrecords]

/-- **What `Metadata` answers**, in a cluster whose brokers all have an
address: for each partition the address of its owner. -/
theorem Serves.metadata (h : s.Serves v ring topic n bins c)
    (haddress : ∀ b < ring.brokers, ∃ a, ring.address b = .ok a) :
    ∃ table s' v' c', Handler.metadata s v topic = (.ok table, s', v')
      ∧ s'.Serves v' ring topic n bins c'
      ∧ table.map Prod.fst = List.range n
      ∧ ∀ e ∈ table, ∃ b, ring.brokerFor topic e.1 = .ok b ∧ ring.address b = .ok e.2.2 := by
  obtain ⟨answer, c', hf, hset, -, -⟩ := Handler.metadata_spec h.rep topic
  have hcount : (s.partitionsOf v topic).1 = .ok n := by
    rw [(Store.partitionsOf_follows h.rep topic).answer, Catalog.existing_eq_ok h.name h.count]
  have hring : (s.partitionsOf v topic).2.1.ring = ring :=
    (Store.partitionsOf_follows h.rep topic).ring.trans h.sameRing
  -- every partition has an owner, and every owner an address
  have hentry : ∀ p : ℕ, ∃ e : ℕ × ℕ × String, (do
      let owner ← ring.brokerFor topic p
      return (p, owner, ← ring.addressOf owner) : Except PyError (ℕ × ℕ × String)) = .ok e
      ∧ e.1 = p ∧ ∃ b, ring.brokerFor topic p = .ok b ∧ ring.address b = .ok e.2.2 := by
    intro p
    obtain ⟨b, hb, hfor⟩ := ring.brokerFor_eq_ok topic (Int.natCast_nonneg p)
    obtain ⟨a, ha⟩ := haddress b hb
    have haddr : ring.addressOf b = .ok a := by
      unfold Ring.addressOf raiseIf
      rw [if_neg (not_not.mpr ⟨Int.natCast_nonneg b, Int.ofNat_lt.mpr hb⟩)]
      exact ha
    refine ⟨(p, b, a), ?_, rfl, b, hfor, ha⟩
    rw [hfor]
    show (do return (p, b, ← ring.addressOf b)) = _
    rw [haddr]
    rfl
  choose entry hok hspec using hentry
  have htable : Handler.partitionMetadata ring topic n = .ok ((List.range n).map entry) :=
    mapM_eq_map fun p _ => hok p
  refine ⟨(List.range n).map entry, _, _, c', Prod.ext ?_ rfl, h.settle hf hset, ?_, fun e he => ?_⟩
  · unfold Handler.metadata
    cases hparts : s.partitionsOf v topic with
    | mk res rest =>
      obtain ⟨s', v'⟩ := rest
      rw [hparts] at hcount hring
      simp only at hcount hring
      subst hcount
      simp only [hring, htable]
  · rw [List.map_map]
    exact (List.map_congr_left fun p _ => (hspec p).1).trans (List.map_id _)
  · obtain ⟨p, -, rfl⟩ := List.mem_map.mp he
    obtain ⟨hp, howner⟩ := hspec p
    rwa [hp]

end Store

/-! ## A stream on it

A `Consume` that has the broker to itself, from its first batch to its end. -/

namespace LiveTail

/-- A broker with one stream. -/
def solo (store : Store) (root : Root) (st : Stream) : State := ⟨store, root, [st], []⟩

variable {s s' : State} {store store' : Store} {root : Root} {st : Stream} {limit : ℤ}
  {fetched rest : List Record}

/-- A read is a step, if one can be done. -/
theorem drain_of_fetch (h : exec s (.fetch 0) = some s') (steps : ℕ) :
    s.drain (steps + 1) = s'.drain steps := by
  rw [State.drain, h]
  rfl

/-- If none can, the event loop goes on with the stream. -/
theorem drain_of_resume (h : exec s (.fetch 0) = none) (h' : exec s (.resume 0) = some s')
    (steps : ℕ) : s.drain (steps + 1) = s'.drain steps := by
  rw [State.drain, h, h']
  rfl

/-- Where neither event can happen, nothing does. -/
theorem drain_of_still (h : (exec s (.fetch 0) <|> exec s (.resume 0)) = none) (steps : ℕ) :
    s.drain steps = s := by
  cases steps with
  | zero => rfl
  | succ steps => rw [State.drain, h]

/-- A stream that has ended stays so. -/
theorem drain_returned (hphase : st.phase = .returned) (steps : ℕ) :
    (solo store root st).drain steps = solo store root st := by
  obtain ⟨request, offset, remaining, out, phase⟩ := st
  cases hphase
  exact drain_of_still rfl steps

/-- Steps can be taken in two portions. -/
theorem drain_add (s : State) (steps more : ℕ) :
    s.drain (steps + more) = (s.drain steps).drain more := by
  induction steps generalizing s with
  | zero => rw [Nat.zero_add]; rfl
  | succ steps ih =>
    rw [Nat.succ_add, State.drain, State.drain]
    cases hnext : exec s (.fetch 0) <|> exec s (.resume 0) with
    | some s' => exact ih s'
    | none =>
      -- nothing more can happen
      exact (drain_of_still hnext more).symm

/-- **A batch is yielded**, record by record. -/
theorem drain_yielding (hphase : st.phase = .yielding none limit fetched rest) :
    (solo store root st).drain rest.length
      = solo store root { st with
          out := st.out ++ rest, phase := .yielding none limit fetched [] } := by
  induction rest generalizing st with
  | nil =>
    obtain ⟨request, offset, remaining, out, phase⟩ := st
    cases hphase
    show solo store root _ = _
    simp only [List.append_nil]
  | cons r rest ih =>
    obtain ⟨request, offset, remaining, out, phase⟩ := st
    cases hphase
    have hresume : exec (solo store root ⟨request, offset, remaining, out,
          .yielding none limit fetched (r :: rest)⟩) (.resume 0) = some (solo store root
        ⟨request, offset, remaining, out ++ [r], .yielding none limit fetched rest⟩) := rfl
    rw [List.length_cons, drain_of_resume rfl hresume, ih rfl, List.append_assoc]
    rfl

/-- **A batch is read and yielded**, and the stream goes on from there. -/
theorem drain_batch {v : Volume} (hphase : st.phase = .reading none limit)
    (hread : Handler.read store (.of root) st.request st.offset limit = (.ok fetched, store', v)) :
    (solo store root st).drain (1 + (fetched.length + 1))
      = (solo store' v.root st).put 0
          ({ st with out := st.out ++ fetched }.afterBatch store'.tail none limit fetched) := by
  obtain ⟨request, offset, remaining, out, phase⟩ := st
  cases hphase
  have hfetch :
      exec (solo store root ⟨request, offset, remaining, out, .reading none limit⟩) (.fetch 0)
      = some (solo store' v.root
          ⟨request, offset, remaining, out, .fetched none limit (.ok fetched)⟩) := by
    have hread : Handler.read store (.of root) request offset limit
      = (.ok fetched, store', v) := hread
    simp only [exec, solo, List.getElem?_cons_zero, Option.bind_eq_bind, Option.bind_some, hread]
    rfl
  rw [Nat.add_comm 1, drain_of_fetch hfetch]
  -- the first record of a batch is yielded like the others
  have hsame : (solo store' v.root
        ⟨request, offset, remaining, out, .fetched none limit (.ok fetched)⟩).drain
          (fetched.length + 1)
      = (solo store' v.root
        ⟨request, offset, remaining, out, .yielding none limit fetched fetched⟩).drain
          (fetched.length + 1) := by
    cases fetched <;> rfl
  rw [hsame, drain_add, drain_yielding rfl]
  rfl

/-- A `Consume` of a whole partition that has yielded `k` of its records. -/
def Stream.upTo (topic : String) (p : ℕ) (records : List Record) (k : ℕ) (phase : Phase) : Stream :=
  ⟨⟨topic, p, 0, false, 0⟩, k, none, records.take k, phase⟩

/-- **One round of a stream**: the next batch is yielded. After a full one
there is another, after a short one none. -/
theorem drain_round {topic : String} {p k : ℕ} {records : List Record} {v : Volume}
    (hcons : Consecutive 0 records) (hpiece : fetched <+: records.drop k)
    (hread : Handler.read store (.of root) ⟨topic, p, 0, false, 0⟩ k batch
      = (.ok fetched, store', v)) :
    (solo store root (.upTo topic p records k (.reading none batch))).drain
        (1 + (fetched.length + 1))
      = solo store' v.root (.upTo topic p records (k + fetched.length)
          (if fetched.length = batch then .reading none batch else .returned)) := by
  rw [@drain_batch _ store store' root
    (.upTo topic p records k (.reading none batch)) batch fetched v
    rfl hread]
  have hnext : (fetched.getLast?.map fun r => r.offset + 1).getD (k : ℤ) = k + fetched.length :=
    Stream.offset_next hcons (Int.natCast_nonneg k) hpiece
  have hout : records.take (k + fetched.length) = records.take k ++ fetched := by
    rw [List.take_add, ← List.prefix_iff_eq_take.mp hpiece]
  unfold Stream.afterBatch Stream.upTo
  simp only [hnext, hout, Option.map_none, Option.any_none, Bool.false_eq_true, if_false,
    Nat.cast_add]
  by_cases hfull : fetched.length = batch
  · rw [if_pos (congrArg Nat.cast hfull), if_pos hfull]
    rfl
  · rw [if_neg fun h => hfull (Nat.cast_injective h), if_neg hfull]
    rfl

variable {ring : Ring} {topic : String} {n p : ℕ} {bins : ℕ → List Given} {c : Catalog}

/-- **The batches of a stream are the bin**, from what has been yielded on:
each is read where the last one ended, and a short one is the last. -/
theorem drain_serves (h : store.Serves (.of root) ring topic n bins c) (hp : p < n)
    (ho : ring.ownsPartition topic p = true) {k : ℕ} (hk : k ≤ (bins p).length) :
    ∃ steps store' root' c', store'.Serves (.of root') ring topic n bins c'
      ∧ (solo store root (.upTo topic p (Given.records (bins p)) k
        (.reading none batch))).drain steps
        = solo store' root' (.upTo topic p (Given.records (bins p)) (bins p).length .returned) := by
  have hcons : Consecutive 0 (Given.records (bins p)) := by
    rw [← h.records p ho]
    exact h.rep.topic.stores.consecutive topic p
  have hlog := Given.length_records (bins p)
  induction hm : (bins p).length - k using Nat.strong_induction_on generalizing store root k c with
  | _ m ih =>
    obtain ⟨store', v, c', hread, h'⟩ := h.read hp ho ⟨topic, p, 0, false, 0⟩ rfl rfl batch
      (Int.natCast_nonneg k)
    rw [Int.toNat_natCast, Int.toNat_natCast] at hread
    have hpos : 0 < batch := by decide
    by_cases hfull : batch ≤ ((Given.records (bins p)).drop k).length
    · rw [if_pos ⟨Int.ofNat_lt.mpr hpos, Int.ofNat_le.mpr hfull⟩] at hread
      have hgot : (((Given.records (bins p)).drop k).take batch).length = batch := by
        rw [List.length_take]
        omega
      rw [List.length_drop, hlog] at hfull
      obtain ⟨steps, store'', root'', c'', hserves, hrest⟩ :=
        ih (m - batch) (by omega) h'.of (k := k + batch) (by omega) (by omega)
      have hround := drain_round hcons (List.take_prefix _ _) hread
      rw [hgot, if_pos rfl] at hround
      refine ⟨1 + (batch + 1) + steps, store'', root'', c'', hserves, ?_⟩
      rw [drain_add, hround, hrest]
    · rw [if_neg fun h => hfull (Int.ofNat_le.mp h.2)] at hread
      rw [List.length_drop, hlog] at hfull
      have hgot : k + ((Given.records (bins p)).drop k).length = (bins p).length := by
        rw [List.length_drop, hlog]
        omega
      have hround := drain_round hcons (List.prefix_refl _) hread
      rw [hgot, if_neg (by rw [List.length_drop, hlog]; omega)] at hround
      exact ⟨_, store', v.root, c', h'.of, hround⟩

end LiveTail

/-- **A `Consume` from the start yields the bin** of its partition, and
ends. -/
theorem Store.Serves.consume {s : Store} {root : Root} {ring : Ring} {topic : String} {n p : ℕ}
    {bins : ℕ → List Given} {c : Catalog} (h : s.Serves (.of root) ring topic n bins c) (hp : p < n)
    (ho : ring.ownsPartition topic p = true) :
    ∃ least s' root' c', s'.Serves (.of root') ring topic n bins c'
      ∧ ∀ steps, least ≤ steps → Handler.consume s (.of root) ⟨topic, p, 0, false, 0⟩ steps
        = (((Given.records (bins p)).map toProto, some none), s', .of root') := by
  obtain ⟨least, s', root', c', h', hdrain⟩ := LiveTail.drain_serves h hp ho (Nat.zero_le _)
  refine ⟨least, s', root', c', h', fun steps hle => ?_⟩
  have hstart : LiveTail.Stream.start ⟨topic, p, 0, false, 0⟩ s.tail
      = (.upTo topic p (Given.records (bins p)) 0 (.reading none batch), s.tail) := rfl
  have hsteps : (LiveTail.solo s root
        (.upTo topic p (Given.records (bins p)) 0 (.reading none batch))).drain steps
      = LiveTail.solo s' root'
          (.upTo topic p (Given.records (bins p)) (bins p).length .returned) := by
    rw [← Nat.add_sub_of_le hle, LiveTail.drain_add, hdrain, LiveTail.drain_returned rfl]
  have hall : (Given.records (bins p)).take (bins p).length = Given.records (bins p) :=
    List.take_of_length_le (Given.length_records (bins p)).le
  unfold Handler.consume
  rw [hstart]
  have hsteps : LiveTail.State.drain ⟨{ s with tail := s.tail }, (Volume.of root).root,
      [.upTo topic p (Given.records (bins p)) 0 (.reading none batch)], []⟩ steps = _ := hsteps
  simp only [hsteps]
  exact congrArg (fun records => ((List.map toProto records, some none), s', Volume.of root')) hall

end Pyka
