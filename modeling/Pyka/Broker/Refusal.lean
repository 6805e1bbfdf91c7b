import Pyka.Client.Serving

/-!
# A broker that has refused to serve

`Store.open` finds partitions that belong to others, logs that it refuses to
serve, and does not become ready. That holds back those who look at the
readiness probe, not those who call the broker: neither an append nor a read
looks at `ready`.

So such a broker serves nothing exactly as long as all that is asked of it is
what any broker would refuse (`Refusal.serves_nothing_iff`): no record for a
partition of its own that can be stored, no read where there is a record.

## What is meant by serving nothing

The comment in the source says what the refusal is to prevent: that peers and
clients write to partitions whose data is elsewhere. A call is served nothing
if none of its records has been stored and it has got no record; what it is
told instead does not matter. The calls are those of the data plane, one after
another, and the client of a `Consume` listens for some number of steps of the
stream.

## The condition

`Call.Wanted` is about a call and the broker before it. A record is wanted if
it can be stored (`Store.Takes`), a stream of records if its first one is, and
a read if there is a record at or past its offset in a partition that the ring
gives to this broker (`Store.Gives`). Whether the broker is ready is not in
it: the same condition says when any broker serves something. The theorem is
an equivalence over a whole list of calls. As long as none is wanted, nothing
changes that would make the next one wanted; the first that is wanted is
served.
-/

namespace Pyka

open Struct (Bytes)

namespace Store

variable [Crc32]

/-- **A read where there is a record**, in a partition that the ring gives to
this broker. -/
def Gives (s : Store) (root : Root) (request : ConsumeRequest) : Prop :=
  0 ≤ request.offset ∧ ∃ p : ℕ, request.partition = p
    ∧ s.ring.ownsPartition request.topic p = true
    ∧ request.offset.toNat < (root.records request.topic p).length

variable {s : Store} {root : Root} {c : Catalog}

/-- **A record is stored exactly where it can be.** -/
theorem Rep.produce_isOk_iff (h : s.Rep (.of root) c) (request : ProduceRequest) (clock : ℤ)
    (elapsed : ℚ) :
    (∃ response, (Handler.produce s (.of root) request clock elapsed).1 = .ok response)
      ↔ s.Takes root request clock := by
  rw [← h.takes_iff request clock elapsed]
  unfold Handler.produce Handler.append Store.append
  cases happ : s.topic.append (.of root) request.topic request.key request.value request.timestamp
      request.partition clock elapsed with
  | mk res rest =>
    cases res with
    | ok place => exact ⟨fun _ => ⟨place, rfl⟩, fun _ => ⟨_, rfl⟩⟩
    | error e => cases e <;> exact ⟨fun ⟨_, h⟩ => (by cases h), fun ⟨_, h⟩ => by cases h⟩

/-- **A record that cannot be stored** changes no log. -/
theorem Rep.produce_refused (h : s.Rep (.of root) c) {request : ProduceRequest} {clock : ℤ}
    (elapsed : ℚ) (hno : ¬s.Takes root request clock) :
    ∃ failure s' v' c', Handler.produce s (.of root) request clock elapsed
      = (.error failure, s', v')
      ∧ s'.Rep (.of v'.root) c' ∧ ∀ topic p, c'.records topic p = c.records topic p := by
  obtain ⟨answer, c', hf, -, hout⟩ := Handler.append_spec h request clock elapsed
  have hrefused := mt (h.produce_isOk_iff request clock elapsed).mp hno
  unfold Handler.produce at hrefused ⊢
  cases happ : Handler.append s (.of root) request clock elapsed with
  | mk res rest =>
    obtain ⟨s', v'⟩ := rest
    rw [happ] at hf hrefused
    have hres : res = answer := hf.answer
    subst hres
    rcases hout with ⟨failure, rfl, hset⟩ | ⟨p, r, rfl, -⟩
    · exact ⟨failure, s', v', c', rfl, ⟨hf.rep.topic.of, hf.rep.owns⟩, hset.records⟩
    · exact absurd ⟨_, rfl⟩ hrefused

end Store

/-! ## Streams

A `Consume` on a broker that it has to itself, for a number of steps. Either
there is a record for it, and it gets it with its first batch, or there is
none and it gets nothing at all. -/

namespace LiveTail

variable [Crc32] {store : Store} {root : Root} {st : Stream} {c : Catalog}

/-- **A stream that has not got anything.** -/
def Stream.Silent (request : ConsumeRequest) (st : Stream) : Prop :=
  st.request = request ∧ st.offset = request.offset ∧ st.out = []
  ∧ match st.phase with
    | .fetched _ _ (.ok fetched) => fetched = []
    | .yielding _ _ fetched rest => fetched = [] ∧ rest = []
    | _ => True

omit [Crc32] in
/-- At the head of the loop it has still not got anything. -/
theorem silent_again {request : ConsumeRequest} (hrequest : st.request = request)
    (hoff : st.offset = request.offset) (hout : st.out = []) (tail : Tail) :
    (st.again tail).1.Silent request := by
  unfold Stream.again
  split_ifs <;> exact ⟨hrequest, hoff, hout, trivial⟩

omit [Crc32] in
/-- After a batch of nothing there is nothing. -/
theorem silent_afterBatch {request : ConsumeRequest} (h : st.Silent request) (tail : Tail)
    (waiter : Option ℕ) (limit : ℤ) : (st.afterBatch tail waiter limit []).1.Silent request := by
  obtain ⟨hrequest, hoff, hout, -⟩ := h
  unfold Stream.afterBatch
  simp only
  split_ifs
  · exact ⟨hrequest, hoff, hout, trivial⟩
  · exact silent_again (by exact hrequest) (by exact hoff) (by exact hout) tail
  · cases waiter <;> exact ⟨hrequest, hoff, hout, trivial⟩
  · cases waiter <;> exact ⟨hrequest, hoff, hout, trivial⟩

/-- There is a record for a stream, in a partition of this broker. -/
def Stream.Awaited (c : Catalog) (owns : String → ℕ → Bool) (request : ConsumeRequest) : Prop :=
  0 ≤ request.offset ∧ ∃ p : ℕ, request.partition = p ∧ owns request.topic p = true
    ∧ request.offset.toNat < (c.records request.topic p).length

/-- One step of a stream that there is nothing for. -/
theorem step_silent {request : ConsumeRequest} {s' : State} (h : store.Rep (.of root) c)
    (hno : ¬Stream.Awaited c store.topic.holder.owns request) (hst : st.Silent request)
    (hs' : (exec (solo store root st) (.fetch 0) <|> exec (solo store root st) (.resume 0))
      = some s') :
    ∃ store' root' st' c', s' = solo store' root' st' ∧ st'.Silent request
      ∧ store'.Rep (.of root') c' ∧ store'.topic.holder = store.topic.holder
      ∧ ∀ topic p, c'.records topic p = c.records topic p := by
  obtain ⟨hrequest, hoff, hout, hphase⟩ := id hst
  obtain ⟨request', offset, remaining, out, phase⟩ := st
  cases hrequest
  cases phase with
  | reading waiter limit =>
    obtain ⟨answer, c', hf, hset, -, hread⟩ := Handler.read_spec h request' offset limit
    cases hr : Handler.read store (.of root) request' offset limit with
    | mk res rest =>
    obtain ⟨store', v⟩ := rest
    rw [hr] at hf
    have hres : res = answer := hf.answer
    subst hres
    have hexec : exec (solo store root ⟨request', offset, remaining, out, .reading waiter limit⟩)
        (.fetch 0)
        = some (solo store' v.root ⟨request', offset, remaining, out,
          .fetched waiter limit res⟩) := by
      simp only [exec, solo, List.getElem?_cons_zero, Option.bind_eq_bind, Option.bind_some, hr]
      rfl
    rw [hexec] at hs'
    cases hs'
    refine ⟨store', v.root, _, c', rfl, ⟨rfl, hoff, hout, ?_⟩, ⟨hf.rep.topic.of, hf.rep.owns⟩,
      hf.holder, hset.records⟩
    cases res with
    | error failure => trivial
    | ok fetched =>
      obtain ⟨hpos, p, hp, ho, -, hfetched⟩ := hread fetched rfl
      have hnone : (c.records request'.topic p).drop offset.toNat = [] := by
        by_contra hne
        refine hno ⟨hoff ▸ hpos, p, hp, ho, ?_⟩
        have hpos := List.length_pos_iff.mpr hne
        rw [List.length_drop, show offset = request'.offset from hoff] at hpos
        show request'.offset.toNat < (c.records request'.topic p).length
        omega
      rw [hnone] at hfetched
      simpa using hfetched
  | fetched waiter limit res =>
    cases res with
    | error failure =>
      cases hs'
      exact ⟨store, root, ⟨request', offset, remaining, out, .aborted failure⟩, c, rfl,
        ⟨rfl, hoff, hout, trivial⟩, h, rfl, fun _ _ => rfl⟩
    | ok fetched =>
      obtain rfl : fetched = [] := hphase
      cases hs'
      exact ⟨_, root, _, c, rfl, silent_afterBatch hst store.tail waiter limit, ⟨h.topic, h.owns⟩,
        rfl, fun _ _ => rfl⟩
  | yielding waiter limit fetched rest =>
    obtain ⟨rfl, rfl⟩ : fetched = [] ∧ rest = [] := hphase
    cases hs'
    exact ⟨_, root, _, c, rfl, silent_afterBatch hst store.tail waiter limit, ⟨h.topic, h.owns⟩,
      rfl, fun _ _ => rfl⟩
  | parked waiter => cases hs'
  | returned => cases hs'
  | aborted failure => cases hs'

/-- **A stream that there is nothing for gets nothing**, however long it goes
on. -/
theorem drain_silent {request : ConsumeRequest} (h : store.Rep (.of root) c)
    (hno : ¬Stream.Awaited c store.topic.holder.owns request) (hst : st.Silent request)
    (steps : ℕ) :
    ∃ store' root' st' c', (solo store root st).drain steps = solo store' root' st'
      ∧ st'.Silent request ∧ store'.Rep (.of root') c'
      ∧ ∀ topic p, c'.records topic p = c.records topic p := by
  induction steps generalizing store root st c with
  | zero => exact ⟨store, root, st, c, rfl, hst, h, fun _ _ => rfl⟩
  | succ steps ih =>
    rw [State.drain]
    cases hs' : exec (solo store root st) (.fetch 0) <|> exec (solo store root st) (.resume 0) with
    | none => exact ⟨store, root, st, c, rfl, hst, h, fun _ _ => rfl⟩
    | some s' =>
      obtain ⟨store', root', st', c', rfl, hst', h', hholder, hrecs⟩ := step_silent h hno hst hs'
      have hno' : ¬Stream.Awaited c' store'.topic.holder.owns request := by
        unfold Stream.Awaited
        simp only [hholder, hrecs]
        exact hno
      obtain ⟨store'', root'', st'', c'', hdrain, hst'', h'', hrecs'⟩ := ih h' hno' hst'
      exact ⟨store'', root'', st'', c'', hdrain, hst'', h'', fun topic p =>
        (hrecs' topic p).trans (hrecs topic p)⟩

omit [Crc32] in
/-- Coming back to the head of the loop takes nothing back. -/
theorem again_out (st : Stream) (tail : Tail) : (st.again tail).1.out = st.out := by
  unfold Stream.again
  split_ifs <;> rfl

omit [Crc32] in
/-- Nor does yielding. -/
theorem advance_out (st : Stream) (tail : Tail) (waiter : Option ℕ) (limit : ℤ)
    (fetched rest : List Record) :
    st.out <+: (st.advance tail waiter limit fetched rest).1.out := by
  cases rest with
  | cons r rest => exact List.prefix_append _ _
  | nil =>
    have hout : (st.afterBatch tail waiter limit fetched).1.out = st.out := by
      unfold Stream.afterBatch
      simp only
      split_ifs
      · rfl
      · exact again_out _ tail
      · cases waiter <;> rfl
      · cases waiter <;> rfl
    exact hout ▸ List.prefix_refl _

/-- **What has been yielded stays so.** -/
theorem drain_out (steps : ℕ) (store : Store) (root : Root) (st : Stream) :
    ∃ store' root' st', (solo store root st).drain steps = solo store' root' st'
      ∧ st.out <+: st'.out := by
  induction steps generalizing store root st with
  | zero => exact ⟨store, root, st, rfl, List.prefix_refl _⟩
  | succ steps ih =>
    have hstep : ∀ s', (exec (solo store root st) (.fetch 0)
        <|> exec (solo store root st) (.resume 0))
        = some s' → ∃ store' root' st', s' = solo store' root' st' ∧ st.out <+: st'.out :=
          fun s' hs' => by
      obtain ⟨request, offset, remaining, out, phase⟩ := st
      cases phase with
      | reading waiter limit =>
        cases hs'
        exact ⟨_, _, _, rfl, List.prefix_refl _⟩
      | fetched waiter limit res =>
        cases res with
        | error failure =>
          cases hs'
          exact ⟨store, root, _, rfl, List.prefix_refl _⟩
        | ok fetched =>
          cases hs'
          exact ⟨_, root, _, rfl, advance_out _ store.tail waiter limit fetched fetched⟩
      | yielding waiter limit fetched rest =>
        cases hs'
        exact ⟨_, root, _, rfl, advance_out _ store.tail waiter limit fetched rest⟩
      | parked waiter => cases hs'
      | returned => cases hs'
      | aborted failure => cases hs'
    rw [State.drain]
    cases hs' : exec (solo store root st) (.fetch 0) <|> exec (solo store root st) (.resume 0) with
    | none => exact ⟨store, root, st, rfl, List.prefix_refl _⟩
    | some s' =>
      obtain ⟨store', root', st', rfl, hout⟩ := hstep s' hs'
      obtain ⟨store'', root'', st'', hdrain, hout'⟩ := ih store' root' st'
      exact ⟨store'', root'', st'', hdrain, hout.trans hout'⟩

/-- **A stream that there is a record for gets it** with its first batch. -/
theorem drain_awaited (h : store.Rep (.of root) c) {request : ConsumeRequest}
    (hgives : Stream.Awaited c store.topic.holder.owns request) {waiter : Option ℕ} {limit : ℤ}
    {remaining : Option ℤ} (steps : ℕ) :
    ∃ store' root' st',
      (solo store root ⟨request, request.offset, remaining, [], .reading waiter limit⟩).drain
        (steps + 2)
        = solo store' root' st' ∧ st'.out ≠ [] := by
  obtain ⟨hpos, p, hp, ho, hlt⟩ := hgives
  have hlog : c.logs request.topic p ≠ none := fun hnone => by
    rw [Catalog.records, hnone] at hlt
    cases hlt
  obtain ⟨rs, hrs⟩ := Option.ne_none_iff_exists'.mp hlog
  obtain ⟨n, hn, hpn⟩ := h.topic.stores.counted hrs
  obtain ⟨fetched, hanswer⟩ := Handler.read_answers h request request.offset limit
    (h.topic.stores.names hn).1 hn hp hpn ho hpos
  obtain ⟨answer, c', hf, -, -, hread⟩ := Handler.read_spec h request request.offset limit
  cases hr : Handler.read store (.of root) request request.offset limit with
  | mk res rest =>
  obtain ⟨store', v⟩ := rest
  rw [hr] at hf hanswer
  obtain rfl : res = .ok fetched := hanswer
  obtain ⟨-, q, hq, -, -, hfetched⟩ := hread fetched hf.answer.symm
  obtain rfl : p = q := Int.ofNat.inj (hp.symm.trans hq)
  have hne : (c.records request.topic p).drop request.offset.toNat ≠ [] := by
    rw [Ne, List.drop_eq_nil_iff]
    omega
  obtain ⟨r, more, hsome⟩ : ∃ r more, fetched = r :: more := by
    refine List.exists_cons_of_ne_nil ?_
    rw [hfetched]
    split_ifs with hlimit
    · rw [Ne, List.take_eq_nil_iff]
      exact fun hnil => hnil.elim (fun hzero => by omega) hne
    · exact hne
  have hfetch :
      exec (solo store root ⟨request, request.offset, remaining, [], .reading waiter limit⟩)
      (.fetch 0) = some (solo store' v.root
        ⟨request, request.offset, remaining, [], .fetched waiter limit (.ok fetched)⟩) := by
    simp only [exec, solo, List.getElem?_cons_zero, Option.bind_eq_bind, Option.bind_some, hr]
    rfl
  subst hsome
  obtain ⟨store'', root'', st'', hdrain, hout⟩ := drain_out steps store' v.root
    ⟨request, request.offset, remaining, [r], .yielding waiter limit (r :: more) more⟩
  refine ⟨store'', root'', st'', ?_, fun hnil => ?_⟩
  · have hresume : exec (solo store' v.root ⟨request, request.offset, remaining, [],
          .fetched waiter limit (.ok (r :: more))⟩) (.resume 0) = some (solo store' v.root
        ⟨request, request.offset, remaining, [r], .yielding waiter limit (r :: more) more⟩) := rfl
    rw [drain_of_fetch hfetch, drain_of_resume rfl hresume, hdrain]
  · rw [hnil] at hout
    cases List.prefix_nil.mp hout

omit [Crc32] in
/-- A stream starts by reading, whether it follows or not. -/
theorem start_eq (request : ConsumeRequest) (tail : Tail) :
    ∃ remaining waiter limit tail', Stream.start request tail
      = (⟨request, request.offset, remaining, [], .reading waiter limit⟩, tail') := by
  unfold Stream.start Stream.again
  generalize (if 0 < request.maxRecords ∧ request.follow = false then some request.maxRecords
    else none) = remaining
  simp only
  split_ifs <;> exact ⟨remaining, _, _, _, rfl⟩

/-- What a `Consume` has come to: what its stream has yielded by then. -/
theorem consume_of_drain {request : ConsumeRequest} {tail : Tail} {steps : ℕ} {store' : Store}
    {root' : Root} {st' : Stream} (hstart : Stream.start request store.tail = (st, tail))
    (hdrain : (solo { store with tail } root st).drain steps = solo store' root' st') :
    ∃ ended, Handler.consume store (.of root) request steps
      = ((st'.out.map toProto, ended), store', .of root') := by
  unfold Handler.consume
  rw [hstart]
  have hdrain : LiveTail.State.drain ⟨{ store with tail }, (Volume.of root).root, [st], []⟩ steps
    = solo store' root' st' := hdrain
  simp only [hdrain]
  exact ⟨_, rfl⟩

end LiveTail

/-! ## Calls

The calls one after another, with what each is served, and the condition on
each. -/

namespace Refusal

/-- **A call to a broker.** The client of a `consume` listens for so many steps
of the stream after its first batch. -/
inductive Call
  | produce (request : ProduceRequest) (clock : ℤ) (elapsed : ℚ)
  | produceStream (requests : List (ProduceRequest × ℤ × ℚ))
  | consume (request : ConsumeRequest) (steps : ℕ)

/-- What a call has been served: where its records have been stored, and the
records it has got. -/
structure Served where
  placed : List ProduceResponse
  got : List Message

/-- Nothing: no place for a record, and no record. -/
def Served.nothing : Served := ⟨[], []⟩

variable [Crc32]

/-- **One call after another**, on the store and its data root as the last has
left them. -/
def machine : Machine (Store × Root) Call Served where
  step s
    | .produce request clock elapsed =>
      match Handler.produce s.1 (.of s.2) request clock elapsed with
      | (.error _, s, v) => (.nothing, s, v.root)
      | (.ok response, s, v) => (⟨[response], []⟩, s, v.root)
    | .produceStream requests =>
      let (responses, _, s, v) := Handler.produceStream s.1 (.of s.2) requests
      (⟨responses, []⟩, s, v.root)
    | .consume request steps =>
      let ((messages, _), s, v) := Handler.consume s.1 (.of s.2) request (steps + 2)
      (⟨[], messages⟩, s, v.root)

/-- **A call that there is something to do for.** A stream of records ends
with the first that is refused. -/
def Call.Wanted (s : Store × Root) : Call → Prop
  | .produce request clock _ => s.1.Takes s.2 request clock
  | .produceStream [] => False
  | .produceStream ((request, clock, _) :: _) => s.1.Takes s.2 request clock
  | .consume request _ => s.1.Gives s.2 request

variable {s : Store} {root : Root} {c : Catalog}

/-- Whether there is a record for a read can be seen on the data root. -/
theorem awaited_iff (h : s.Rep (.of root) c) (request : ConsumeRequest) :
    LiveTail.Stream.Awaited c s.topic.holder.owns request ↔ s.Gives root request := by
  unfold LiveTail.Stream.Awaited Store.Gives
  simp only [h.records_eq]
  rw [show s.topic.holder.owns = s.ring.ownsPartition from h.owns]

/-- A record that can be stored gets a place. -/
theorem placed_of_takes (h : s.Rep (.of root) c) {request : ProduceRequest} {clock : ℤ}
    (elapsed : ℚ)
    (htakes : s.Takes root request clock) :
    (machine.step (s, root) (.produce request clock elapsed)).1.placed ≠ [] := by
  obtain ⟨response, hok⟩ := (h.produce_isOk_iff request clock elapsed).mpr htakes
  unfold machine
  simp only
  cases hp : Handler.produce s (.of root) request clock elapsed with
  | mk res rest =>
    rw [hp] at hok
    obtain rfl : res = .ok response := hok
    exact List.cons_ne_nil _ _

/-- **What is wanted is done**: the refusal holds nobody back. -/
theorem served_of_wanted (h : s.Rep (.of root) c) {call : Call} (hw : call.Wanted (s, root)) :
    (machine.step (s, root) call).1 ≠ .nothing := by
  cases call with
  | produce request clock elapsed =>
    exact fun hnothing => placed_of_takes h elapsed hw (congrArg Served.placed hnothing)
  | produceStream requests =>
    cases requests with
    | nil => exact absurd hw id
    | cons first requests =>
      obtain ⟨request, clock, elapsed⟩ := first
      obtain ⟨response, hok⟩ := (h.produce_isOk_iff request clock elapsed).mpr hw
      unfold machine
      simp only [Handler.produceStream]
      cases hp : Handler.produce s (.of root) request clock elapsed with
      | mk res rest =>
        rw [hp] at hok
        obtain rfl : res = .ok response := hok
        exact fun h => by cases h
  | consume request steps =>
    have hgives := (awaited_iff h request).mpr hw
    obtain ⟨remaining, waiter, limit, tail, hstart⟩ := LiveTail.start_eq request s.tail
    have htail : Store.Rep { s with tail } (.of root) c := ⟨h.topic, h.owns⟩
    obtain ⟨s', root', st', hdrain, hout⟩ := LiveTail.drain_awaited htail hgives steps
    obtain ⟨ended, hconsume⟩ := LiveTail.consume_of_drain hstart hdrain
    unfold machine
    simp only [hconsume]
    intro hnothing
    exact hout (List.map_eq_nil_iff.mp (congrArg Served.got hnothing))

/-- **What is not wanted changes no log**, and is served nothing. -/
theorem nothing_of_not_wanted (h : s.Rep (.of root) c) {call : Call} (hw : ¬call.Wanted (s, root)) :
    ∃ s' root' c', machine.step (s, root) call = (.nothing, s', root') ∧ s'.Rep (.of root') c'
      ∧ ∀ topic p, c'.records topic p = c.records topic p := by
  cases call with
  | produce request clock elapsed =>
    obtain ⟨failure, s', v', c', hp, h', hrecs⟩ := h.produce_refused elapsed hw
    refine ⟨s', v'.root, c', ?_, h', hrecs⟩
    simp only [machine, hp]
  | produceStream requests =>
    cases requests with
    | nil => exact ⟨s, root, c, rfl, h, fun _ _ => rfl⟩
    | cons first requests =>
      obtain ⟨request, clock, elapsed⟩ := first
      obtain ⟨failure, s', v', c', hp, h', hrecs⟩ := h.produce_refused elapsed hw
      refine ⟨s', v'.root, c', ?_, h', hrecs⟩
      simp only [machine, Handler.produceStream, hp]
      rfl
  | consume request steps =>
    have hno := mt (awaited_iff h request).mp hw
    obtain ⟨remaining, waiter, limit, tail, hstart⟩ := LiveTail.start_eq request s.tail
    have htail : Store.Rep { s with tail } (.of root) c := ⟨h.topic, h.owns⟩
    have hsilent : LiveTail.Stream.Silent request ⟨request, request.offset, remaining, [],
        .reading waiter limit⟩ := ⟨rfl, rfl, rfl, trivial⟩
    obtain ⟨s', root', st', c', hdrain, ⟨-, -, hout, -⟩, h', hrecs⟩ :=
      LiveTail.drain_silent htail hno hsilent (steps + 2)
    obtain ⟨ended, hconsume⟩ := LiveTail.consume_of_drain hstart hdrain
    refine ⟨s', root', c', ?_, h', hrecs⟩
    unfold machine
    simp only [hconsume, hout, List.map_nil]
    rfl

/-- **Calls are served nothing exactly where none of them is wanted** at its
turn. By induction on the calls. -/
theorem run_iff (h : s.Rep (.of root) c) (calls : List Call) :
    ((∀ topic p, (machine.run (s, root) calls).2.2.records topic p = root.records topic p)
        ∧ ∀ served ∈ (machine.run (s, root) calls).1, served = .nothing)
      ↔ ∀ k (call : Call), calls[k]? = some call
        → ¬call.Wanted (machine.run (s, root) (calls.take k)).2 := by
  induction calls generalizing s root c with
  | nil => exact ⟨fun _ _ _ hk => (by cases hk),
    fun _ => ⟨fun _ _ => rfl, fun _ hmem => by cases hmem⟩⟩
  | cons call calls ih =>
    by_cases hw : call.Wanted (s, root)
    · refine ⟨fun ⟨_, hnothing⟩ => absurd (hnothing _ List.mem_cons_self) (served_of_wanted h hw),
        fun hnot => absurd hw (hnot 0 call rfl)⟩
    · obtain ⟨s', root', c', hstep, h', hrecs⟩ := nothing_of_not_wanted h hw
      have hsame : ∀ topic p, root'.records topic p = root.records topic p := fun topic p => by
        rw [h'.records_eq, hrecs, h.records_eq]
      have hrun : machine.run (s, root) (call :: calls)
          = (.nothing :: (machine.run (s', root') calls).1, (machine.run (s', root') calls).2) := by
        simp only [Machine.run, hstep]
      have hlater : ∀ k, (machine.run (s, root) ((call :: calls).take (k + 1))).2
          = (machine.run (s', root') (calls.take k)).2 := fun k => by
        simp only [List.take_succ_cons, Machine.run, hstep]
      rw [hrun]
      simp only [List.mem_cons, forall_eq_or_imp, true_and]
      simp only [← hsame]
      rw [ih h']
      constructor
      · intro hnot k call' hk
        cases k with
        | zero =>
          cases hk
          exact hw
        | succ k =>
          rw [hlater]
          exact hnot k call' hk
      · intro hnot k call' hk
        rw [← hlater]
        exact hnot (k + 1) call' hk

/-- **When a broker that has refused to serve serves nothing.** On any data
root that brokers have left, a broker that does not allow orphans opens and
finds some. It does not become ready. But the calls that come to it are served
nothing, and change no log, exactly where none of them is wanted at the time:
no record that can be stored, no read where there is a record. -/
theorem serves_nothing_iff {root root' : Root} {c : Catalog} (hroot : root.Stores c) (ring : Ring)
    (settings : Settings) (hallow : settings.allowOrphans = false) {s : Store}
    (hopen : Node.machine.step ⟨none, root⟩ (.start ring settings)
      = (.done (.ok ()), ⟨some s, root'⟩))
    (horphans : s.orphans ≠ []) (calls : List Call) :
    s.ready = false
      ∧ (((∀ topic p, (machine.run (s, root') calls).2.2.records topic p = root'.records topic p)
          ∧ ∀ served ∈ (machine.run (s, root') calls).1, served = .nothing)
        ↔ ∀ k (call : Call), calls[k]? = some call →
          ¬call.Wanted (machine.run (s, root') (calls.take k)).2) := by
  obtain ⟨s₁, v₁, c₁, hstep, hgood, -, -, -, -, -, hup, -⟩ := Node.start_spec hroot ring settings
  rw [hstep] at hopen
  obtain ⟨rfl, rfl⟩ : s₁ = s ∧ v₁.root = root' := by
    have hnode := congrArg Prod.snd hopen
    exact ⟨Option.some.inj (congrArg Node.store hnode), congrArg Node.root hnode⟩
  refine ⟨Bool.eq_false_iff.mpr fun hready => ?_, run_iff hgood calls⟩
  rcases hup.mp hready with hnone | hallowed
  · exact horphans hnone
  · rw [hallow] at hallowed
    cases hallowed

/-! ## A cluster that has grown

The first broker of one, and then of two, on the same disk: partition 1 is the
other's now, so the broker refuses to serve, and partition 0 is still its own. -/

/-- The first broker of a cluster of so many. -/
def firstOf (brokers : ℕ) (h : 0 < brokers) : Ring :=
  ⟨brokers, 0, fun b => .ok s!"pyka-{b}", .modulo, h⟩

/-- Topics get two partitions. -/
def grownSettings : Settings :=
  ⟨"data", 2, .never, ⟨2 ^ 30, default_max_segment_bytes⟩, false, Nat.two_pos⟩

/-- What a broker on its own has left: a topic, both its partitions here. -/
def grownRoot : Root :=
  (Node.machine.run .empty [.start (firstOf 1 (by decide)) grownSettings,
    .ask (.create "orders" none), .kill]).2.root

/-- A partition's directory stays where it is, whatever is written into the
root. -/
theorem stable_part (name : String) (p : ℕ) :
    Root.Stable fun root => (root.part name p).isSome = true where
  setMeta h _ _ _ := by
    rw [Root.part_setMeta, Root.part_setMeta]
    exact ⟨h, h⟩
  setPart h _ _ _ := by
    rw [Root.part_setPart]
    split_ifs
    · rfl
    · exact h

/-- The disk it has left: a topic, with a directory for each of its partitions
and no record. -/
theorem stores_grownRoot : ∃ c : Catalog, grownRoot.Stores c ∧ c.counts "orders" = some 2
    ∧ (∀ p < 2, (c.logs "orders" p).isSome) ∧ ∀ p, c.records "orders" p = [] := by
  obtain ⟨s₁, v₁, c₁, hstart, hgood₁, ⟨hring, hholder, -⟩, hcounts₁, hset, -⟩ :=
    Node.start_spec stores_empty (firstOf 1 (by decide)) grownSettings
  obtain ⟨s₂, v₂, answer, c₂, hask, hgood₂, hr, -⟩ :=
    Node.ask_spec hgood₁ (.create "orders" none)
  have hroot : grownRoot = v₂.root := by
    unfold grownRoot Node.empty
    simp only [Machine.run, hstart, hask]
    rfl
  have hname : validateName "orders" = .ok () := by decide +kernel
  have hcount₁ : c₁.counts "orders" = none := congrFun hcounts₁ _
  have htouch : c₂ = c₁.touch s₁.topic.holder "orders" 2 := by
    cases hr
    unfold Catalog.create
    rw [hname, hholder]
    simp only [Catalog.openAs, hcount₁]
    rfl
  have howns : ∀ p, s₁.topic.holder.owns "orders" p = true := fun p => by
    rw [hholder]
    exact Ring.ownsPartition_single (r := firstOf 1 (by decide)) rfl "orders" p
  refine ⟨c₂, hroot ▸ hgood₂.stores, ?_, fun p hp => ?_, fun p => ?_⟩
  · rw [htouch, Catalog.counts_touch, Function.update_self]
  · rw [htouch, Catalog.logs_touch_of_owns hp (howns p)]
    rfl
  · rw [htouch, Catalog.records_touch, hset.records]
    rfl

/-- **There is a second broker now**, and the first one refuses to serve. -/
theorem grown_refuses : ∃ (s : Store) (root : Root) (c : Catalog),
    Node.machine.step ⟨none, grownRoot⟩ (.start (firstOf 2 (by decide)) grownSettings)
        = (.done (.ok ()), ⟨some s, root⟩)
      ∧ s.orphans ≠ [] ∧ s.ready = false ∧ s.ring = firstOf 2 (by decide) ∧ s.Rep (.of root) c
      ∧ c.counts "orders" = some 2 ∧ ∀ p, c.records "orders" p = [] := by
  obtain ⟨c, hstores, hcount, hlogs, hrecs⟩ := stores_grownRoot
  obtain ⟨s, v, c', hstart, hgood, ⟨hring, -⟩, hcounts, hset, horphans, -, hready, halways⟩ :=
    Node.start_spec hstores (firstOf 2 (by decide)) grownSettings
  have hfound : s.orphans ≠ [] := fun hnone => by
    have hpart : (v.root.part "orders" 1).isSome = true :=
      (halways (stable_part "orders" 1)
        (by rw [hstores.isSome_part]; exact hlogs 1 (by decide))).1
    obtain ⟨ps, hmem, -⟩ := (horphans "orders" 1).mpr ⟨hpart, by decide⟩
    rw [hnone] at hmem
    cases hmem
  refine ⟨s, v.root, c', hstart, hfound, Bool.eq_false_iff.mpr fun hup => ?_, hring, hgood,
    (congrFun hcounts _).trans hcount, fun p => (hset.records _ p).trans (hrecs p)⟩
  exact (hready.mp hup).elim hfound fun h => by cases h

/-- A record for the partition that is still the first broker's. -/
def grownRequest : ProduceRequest := ⟨"orders", none, some [1], none, none, some 0⟩

omit [Crc32] in
/-- **A record is stored by a broker that has refused to serve**: one for the
partition that is still its own. -/
theorem refused_serves : let _ := Crc32.zlib
    ∃ (s : Store) (root : Root),
      Node.machine.step ⟨none, grownRoot⟩ (.start (firstOf 2 (by decide)) grownSettings)
          = (.done (.ok ()), ⟨some s, root⟩)
        ∧ s.orphans ≠ [] ∧ s.ready = false
        ∧ (machine.step (s, root) (.produce grownRequest 0 0)).1.placed ≠ [] := by
  intro _
  obtain ⟨s, root, c, hstart, horphans, hready, hring, hgood, hcount, hrecs⟩ := grown_refuses
  refine ⟨s, root, hstart, horphans, hready, ?_⟩
  have hwanted : s.Takes root grownRequest 0 := by
    refine ⟨by decide +kernel, 0, rfl, ?_, ?_, ?_⟩
    · rw [show s.topic.countOn root grownRequest.topic = _ from hgood.topic.countOn_eq _,
      show c.counts grownRequest.topic = some 2 from hcount]
      exact Nat.zero_lt_two
    · rw [hring]
      decide
    · rw [hgood.records_eq, show c.records grownRequest.topic 0 = [] from hrecs 0]
      decide
  exact placed_of_takes hgood 0 hwanted

/-- Calls that there is nothing to do for: a record for the partition that is
the other broker's now, one for a topic with no name, a stream that begins with
a record for a partition that there is not, and a read where there is no
record. -/
def unwanted : List Call :=
  [.produce { grownRequest with partition := some 1 } 0 0,
    .produce { grownRequest with topic := "" } 0 0,
    .produceStream [({ grownRequest with partition := some 2 }, 0, 0), (grownRequest, 0, 0)],
    .consume ⟨"orders", 0, 0, true, 0⟩ 7]

/-- None of them is wanted of the first of two brokers with an empty topic of
two partitions. -/
theorem not_wanted_of_unwanted {s : Store} {root : Root}
    (howns : s.ring.ownsPartition "orders" 1 = false) (hcount : s.topic.countOn root "orders" = 2)
    (hlog : (root.records "orders" 0).length = 0) : ∀ call ∈ unwanted, ¬call.Wanted (s, root) := by
  intro call hcall
  simp only [unwanted, List.mem_cons, List.not_mem_nil, or_false] at hcall
  rcases hcall with rfl | rfl | rfl | rfl
  · rintro ⟨-, p, hp, -, ho, -⟩
    obtain rfl : 1 = p := Int.ofNat.inj hp
    exact Bool.false_ne_true (howns.symm.trans ho)
  · rintro ⟨hname, -⟩
    exact absurd hname (by decide +kernel)
  · rintro ⟨-, p, hp, hp', -⟩
    obtain rfl : 2 = p := Int.ofNat.inj hp
    exact absurd hp' (hcount.le.not_gt)
  · rintro ⟨-, p, hp, -, hlt⟩
    obtain rfl : 0 = p := Int.ofNat.inj hp
    exact absurd hlt (hlog.le.not_gt)

omit [Crc32] in
/-- **Records that are refused** and a read of an empty partition: a broker
that has refused to serve serves all of these calls nothing, and no log has
changed after them. -/
theorem serves_nothing_iff_grown : let _ := Crc32.zlib
    ∃ (s : Store) (root : Root),
      Node.machine.step ⟨none, grownRoot⟩ (.start (firstOf 2 (by decide)) grownSettings)
          = (.done (.ok ()), ⟨some s, root⟩)
        ∧ s.ready = false
        ∧ (machine.run (s, root) unwanted).1 = [.nothing, .nothing, .nothing, .nothing]
        ∧ ∀ topic p, (machine.run (s, root) unwanted).2.2.records topic p
          = root.records topic p := by
  intro _
  obtain ⟨s, root, c, hstart, horphans, -⟩ := grown_refuses
  obtain ⟨c₀, hstores, -⟩ := stores_grownRoot
  -- what each of the calls finds
  have hfinds : (let node := (Node.machine.step ⟨none, grownRoot⟩
        (.start (firstOf 2 (by decide)) grownSettings)).2
      node.store.map fun s => (List.range 4).map fun k =>
        let now := (machine.run (s, node.root) (unwanted.take k)).2
        (now.1.ring.ownsPartition "orders" 1, now.1.topic.countOn now.2 "orders",
          (now.2.records "orders" 0).length))
      = some [(false, 2, 0), (false, 2, 0), (false, 2, 0), (false, 2, 0)] := by
    decide +kernel
  simp only [hstart, Option.map_some, Option.some.injEq] at hfinds
  have hfind :
      ∀ k < 4, ((machine.run (s, root) (unwanted.take k)).2.1.ring.ownsPartition "orders" 1,
      (machine.run (s, root) (unwanted.take k)).2.1.topic.countOn
        (machine.run (s, root) (unwanted.take k)).2.2 "orders",
      ((machine.run (s, root) (unwanted.take k)).2.2.records "orders" 0).length) = (false, 2, 0) :=
    fun k hk => by
      have hmem : _ ∈ List.replicate 4 (false, 2, 0) :=
        hfinds ▸ List.mem_map_of_mem (List.mem_range.mpr hk)
      exact List.eq_of_mem_replicate hmem
  have hlen : (machine.run (s, root) unwanted).1.length = 4 := Machine.length_run _ _ _
  obtain ⟨hready, hiff⟩ :=
    serves_nothing_iff hstores (firstOf 2 (by decide)) grownSettings rfl hstart
    horphans unwanted
  obtain ⟨hsame, hnothing⟩ := hiff.mpr fun k call hk => by
    have hlt : k < 4 := (List.getElem?_eq_some_iff.mp hk).1
    have hfound := hfind k hlt
    simp only [Prod.mk.injEq] at hfound
    obtain ⟨howns, hcount, hlog⟩ := hfound
    exact not_wanted_of_unwanted howns hcount hlog call (List.mem_of_getElem? hk)
  exact ⟨s, root, hstart, hready, List.eq_replicate_iff.mpr ⟨hlen, hnothing⟩, hsame⟩

end Refusal

end Pyka
