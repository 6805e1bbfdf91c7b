import Pyka.Broker.LiveTailSpec

/-!
# Cancelled appends

`Store.append` notifies after its `await`, so an append whose task is
cancelled there writes its record and tells nobody. As long as that does not
happen every record is announced (`LiveTail.announced`); where it does, a
follower may wait for a record that is there
(`LiveTail.cancelled_unannounced`).

## How it comes about

A task is cancelled when its client hangs up or its deadline passes. The
thread that carries out the append does not learn of that: `to_thread` waits
for it, and stops waiting. So the record is in the log, which is as it should
be, and the line that notifies is never reached. A follower that had caught up
holds an event which nobody is going to set for this record. It is found by
the follower's own timeout, half a minute later, or when another append to the
partition notifies; the source says of the timeout that it bounds the damage
of a notification that is missed, and that finding it at work means one is
missing.

## The condition

`LiveTail.Kept` is on the state before a step. A cancelling step must not find
the record already written. A writing step of an append that was cancelled
before must find nothing to write: the topic's name is refused, or the
partition is none of the topic's or not this broker's, or the record cannot be
encoded. Appends that are cancelled before their thread begins are dropped and
meet it, and so does every append that is not cancelled at all.
-/

namespace Pyka

open Struct (Bytes)

namespace LiveTail

variable [Crc32]

/-- **Every record that reaches the log is announced**, or its append is about
to announce it, in every run whose steps meet `Kept`: the thread of an append
that nobody awaits any more has nothing that it could write, and no append is
cancelled between its write and its notify. So while a follower waits for an
event that is not set, each record it has not yielded is one whose notify is
still to come. -/
theorem announced {s₀ s : State} {acts : List Act} (hstart : system.start s₀)
    (hrun : (system.given Kept).Run s₀ acts s) :
    (∀ name (p k : ℕ), (s₀.root.records name p).length ≤ k → k < (s.root.records name p).length →
      Pending s.appends name p k ∨ ∃ a ∈ s.appends, a.name = name ∧ a.phase = .notified p k)
    ∧ ∀ st ∈ s.streams, ∀ w, st.phase = .parked w → s.store.tail.isSet w = false → ∀ k : ℕ,
        st.request.offset + st.out.length ≤ k →
        k < (s.root.records st.request.topic st.request.partition.toNat).length →
        Pending s.appends st.request.topic st.request.partition k := by
  obtain ⟨c₀, hinv₀, hstores₀⟩ := inv_start hstart
  obtain ⟨c, hinv⟩ : ∃ c, Inv c₀ s c := by
    refine hrun.keeps (P := fun s => ∃ c, Inv c₀ s c) (fun s act s' hP hstep => ?_) ⟨c₀, hinv₀⟩
    obtain ⟨c, hinv⟩ := hP
    obtain ⟨hexec, hkept⟩ := hstep
    exact hinv.step hkept hexec
  have hroot : ∀ name p, s.root.records name p = c.records name p :=
    hinv.rep.topic.stores.records_eq
  refine ⟨fun name p k hk hlt => ?_, fun st hst => (hinv.follower hst).2⟩
  rw [hstores₀.records_eq] at hk
  rw [hroot] at hlt
  exact hinv.appended name p k hk hlt

/-- A step, taken only if it leaves no record without its notification: no
append is cancelled whose record is stored, and of the cancelled ones only
those come to write that have no valid name. Stronger than `Kept`, and
decidable. -/
def execKept (s : State) : Act → Option State
  | .write j clock elapsed =>
    if (s.appends[j]?).all fun a => !a.cancelled || !isValidName a.name then
      exec s (.write j clock elapsed) else none
  | .cancel j =>
    if (s.appends[j]?).all fun a => a.phase = .running then exec s (.cancel j) else none
  | act => exec s act

/-- Each such step is one of a run under `Kept`. -/
theorem execKept_some {s s' : State} {act : Act} (h : execKept s act = some s') :
    (system.given Kept).step s act s' := by
  cases act with
  | write j clock elapsed =>
    obtain ⟨hall, hexec⟩ := Option.ite_none_right_eq_some.mp h
    refine ⟨hexec, fun a ha hcancelled htakes => ?_⟩
    have hvalid := isValidName_iff.mpr htakes.1
    rw [ha, Option.all_some, hcancelled] at hall
    exact absurd hall (by simp [show isValidName a.name = true from hvalid])
  | cancel j =>
    obtain ⟨hall, hexec⟩ := Option.ite_none_right_eq_some.mp h
    refine ⟨hexec, fun a ha p k hp => ?_⟩
    rw [ha, Option.all_some, hp] at hall
    cases hall
  | _ => exact ⟨h, trivial⟩

omit [Crc32] in
/-- A record is written and notified, and a follower that has yielded it
waits. An append with no name for its topic is cancelled while its thread is
at it, and adds nothing. Another record is written: its notify is the one that
the follower is still to get. -/
theorem announced_followed : let _ := Crc32.zlib
    ∃ s₀ s acts, system.start s₀ ∧ (system.given Kept).Run s₀ acts s
      ∧ s.appends.map (fun a => (a.phase, a.cancelled))
        = [(.notified 0 0, false), (.failed (.valueError "topic name must not be empty"), true),
          (.written 0 1, false)]
      ∧ s.streams.map (fun st => (st.out.map Record.offset, st.phase)) = [([0], .parked 0)]
      ∧ Pending s.appends "orders" 0 1
      ∧ ∀ name (p k : ℕ), (s₀.root.records name p).length ≤ k →
        k < (s.root.records name p).length →
        Pending s.appends name p k ∨ ∃ a ∈ s.appends, a.name = name ∧ a.phase = .notified p k := by
  intro _
  let append (name : String) (j : ℕ) : List Act :=
    [.append name none (some []) (some 5) none, .take j]
  let acts : List Act := append "orders" 0 ++ [.write 0 7 0, .notify 0,
    .consume ⟨"orders", 0, 0, true, 0⟩, .fetch 0, .resume 0, .resume 0] ++
    append "" 1 ++ [.cancel 1, .write 1 7 0] ++ append "orders" 2 ++ [.write 2 7 0]
  have hrun : ((alone.bind (acts.foldlM execKept)).map fun s =>
      (s.appends.map (fun a => (a.phase, a.cancelled)), (s.root.records "orders" 0).length))
      = some ([(.notified 0 0, false), (.failed (.valueError "topic name must not be empty"), true),
        (.written 0 1, false)], 2) := by
    decide +kernel
  have hfollower : ((alone.bind (acts.foldlM execKept)).map fun s =>
      (s.streams.map (fun st => (st.out.map Record.offset, st.phase)), s.store.tail.isSet 0))
      = some ([([0], .parked 0)], false) := by
    decide +kernel
  have hasks : ((alone.bind (acts.foldlM execKept)).map fun s =>
      s.streams.map fun st => (st.request.topic, st.request.partition, st.request.offset))
      = some [("orders", 0, 0)] := by
    decide +kernel
  obtain ⟨s, hs, heq⟩ := Option.map_eq_some_iff.mp hrun
  rw [hs, Option.map_some] at hfollower hasks
  obtain ⟨s₀, hstart, hs⟩ := Option.bind_eq_some_iff.mp hs
  simp only [Option.some.injEq, Prod.mk.injEq] at heq hfollower hasks
  obtain ⟨happends, hlen⟩ := heq
  obtain ⟨hstreams, hunset⟩ := hfollower
  obtain ⟨st, hst, hout⟩ := List.map_eq_singleton_iff.mp hstreams
  rw [hst, List.map_singleton] at hasks
  simp only [Prod.mk.injEq, List.cons.injEq, and_true] at hasks hout
  obtain ⟨htopic, hpart, hoffset⟩ := hasks
  have hacts := System.Run.foldlM (S := system.given Kept) (fun _ _ _ h => execKept_some h) hs
  obtain ⟨hall, hfollows⟩ := announced (start_boot hstart) hacts
  have hpend := hfollows st (hst ▸ List.mem_singleton_self st) 0 hout.2 hunset 1 (by
    have hlen : st.out.length = 1 := by simpa using congrArg List.length hout.1
    rw [hoffset, hlen]
    norm_num) (by
    rw [htopic, hpart]
    exact hlen ▸ Nat.one_lt_two)
  rw [htopic, hpart] at hpend
  exact ⟨s₀, s, acts, start_boot hstart, hacts, happends, hstreams, hpend, hall⟩

/-! ## A cancelled append

The run that breaks it. Its steps are taken one by one, since what is read and
written is known by the specifications of the store and not by evaluation. -/

/-- A thread reads a batch: the step, given what is read. -/
theorem exec_fetch {s : State} {i : ℕ} {st : Stream} (hst : s.streams[i]? = some st)
    {waiter : Option ℕ} {limit : ℤ} (hp : st.phase = .reading waiter limit)
    {res : Except Failure (List Record)} {store : Store} {v : Volume}
    (hread : Handler.read s.store (.of s.root) st.request st.offset limit = (res, store, v)) :
    exec s (.fetch i) = some ⟨store, v.root,
      s.streams.set i { st with phase := .fetched waiter limit res }, s.appends⟩ := by
  simp only [exec, hst, hp, hread, Option.bind_eq_bind, Option.bind_some]

/-- The event loop goes on with a batch that was read. -/
theorem exec_resume {s : State} {i : ℕ} {st : Stream} (hst : s.streams[i]? = some st)
    {waiter : Option ℕ} {limit : ℤ} {records : List Record}
    (hp : st.phase = .fetched waiter limit (.ok records)) :
    exec s (.resume i) = some (s.put i (st.advance s.store.tail waiter limit records records)) := by
  simp only [exec, hst, hp, Option.bind_eq_bind, Option.bind_some]

/-- A thread appends: the step, given what the registry answers. -/
theorem exec_write {s : State} {j : ℕ} {a : Append} (ha : s.appends[j]? = some a)
    (hp : a.phase = .running) {clock : ℤ} {elapsed : ℚ} {res : Except PyError (ℤ × ℤ)}
    {topic : Topic} {v : Volume} (happend : s.store.topic.append (.of s.root) a.name a.key a.value
      a.timestamp a.partition clock elapsed = (res, topic, v)) :
    exec s (.write j clock elapsed) = some ⟨{ s.store with topic }, v.root, s.streams,
      s.appends.set j { a with phase := .after res }⟩ := by
  simp only [exec, ha, hp, happend, Option.bind_eq_bind, Option.bind_some]

/-- A broker with a topic of one partition, and no record in it, just started. -/
theorem exists_topic : ∃ (s : State) (c : Catalog), system.start s ∧ s.store.Rep (.of s.root) c
    ∧ s.store.tail = .init ∧ s.streams = [] ∧ s.appends = [] ∧ c.counts "orders" = some 1
    ∧ c.records "orders" 0 = [] ∧ s.store.topic.holder.owns "orders" 0 = true := by
  obtain ⟨ring, hring⟩ : ∃ r : Ring, r.brokers = 1 :=
    ⟨⟨1, 0, fun _ => .ok "pyka-0:9090", .modulo, by decide⟩, rfl⟩
  obtain ⟨settings, hsettings⟩ : ∃ settings : Settings, settings.partitions = 1 :=
    ⟨⟨"data", 1, .never, ⟨2 ^ 30, by decide⟩, false, by decide⟩, rfl⟩
  obtain ⟨s₁, v₁, c₁, hstep₁, hgood₁, ⟨-, hholder₁, -⟩, hcounts₁, hset₁, -⟩ :=
    Node.start_spec stores_empty ring settings
  obtain ⟨s₂, v₂, answer, c₂, hstep₂, hgood₂, hr, -⟩ :=
    Node.ask_spec hgood₁ (.create "orders" none)
  obtain ⟨v₃, hstep₃, hgood₃⟩ := Node.close_spec hgood₂
  obtain ⟨s₄, v₄, c₄, hstep₄, hgood₄, ⟨-, hholder, htail⟩, hcounts, hset, -⟩ :=
    Node.start_spec hgood₃ ring settings
  have hname : validateName "orders" = .ok () := by decide +kernel
  have hcounts₂ : c₂.counts "orders" = some 1 := by
    rw [hr.of_create.1, Catalog.counted_self hname, hcounts₁, hholder₁]
    exact congrArg some hsettings
  have hrecords : c₄.records "orders" 0 = [] := by
    rw [hset.records, hr.of_create.2.records, hset₁.records]
    rfl
  have howns : s₄.topic.holder.owns "orders" 0 = true := by
    rw [hholder]
    exact Ring.ownsPartition_single hring "orders" 0
  have hrun : (Node.machine.run .empty
      [.start ring settings, .ask (.create "orders" none), .close]).2 = ⟨none, v₃.root⟩ := by
    show (Node.machine.step (Node.machine.step (Node.machine.step ⟨none, .empty⟩ _).2 _).2 _).2 = _
    rw [hstep₁, hstep₂, hstep₃]
  refine ⟨⟨s₄, v₄.root, [], []⟩, c₄, ⟨[.start ring settings, .ask (.create "orders" none), .close],
    ring, settings, ?_, ?_, rfl, rfl⟩, hgood₄, htail, rfl, rfl, hcounts ▸ hcounts₂, hrecords, howns⟩
  · rw [hrun]
  · rw [hrun, hstep₄]

omit [Crc32] in
/-- **A cancelled append tells nobody.** A follower has caught up with an
empty partition and waits. An append is cancelled while its thread is at it;
the record is written, the follower goes on waiting, and no notify is to
come. -/
theorem cancelled_unannounced : let _ := Crc32.zlib
    ∃ s, system.Reachable s ∧ (∀ a ∈ s.appends, a.phase = .written 0 0 ∧ a.cancelled = true)
      ∧ ∃ st ∈ s.streams, st.request.topic = "orders" ∧ st.request.partition = 0
        ∧ st.request.offset = 0 ∧ st.phase = .parked 0 ∧ s.store.tail.isSet 0 = false
        ∧ st.out = [] ∧ (s.root.records "orders" 0).length = 1
        ∧ ∀ k, ¬Pending s.appends "orders" 0 k := by
  intro _
  obtain ⟨s₀, c₀, hstart, hrep₀, htail, hstreams, happends, hcount, hrecords, howns⟩ := exists_topic
  obtain ⟨store, root, streams, appends⟩ := s₀
  have hname : validateName "orders" = .ok () := by decide +kernel
  have henc : Record.Encodable ⟨0, 0, none, some []⟩ := by decide
  cases hstreams
  cases happends
  -- the follower subscribes
  obtain ⟨tail, htail₁, hunset, hopen⟩ : ∃ tail, Tail.init.subscribe "orders" 0 = (0, tail)
    ∧ tail.isSet 0 = false ∧ tail.closed = false := ⟨_, rfl, rfl, rfl⟩
  have h₁ : exec ⟨store, root, [], []⟩ (.consume ⟨"orders", 0, 0, true, 0⟩)
      = some ⟨{ store with tail }, root,
        [⟨⟨"orders", 0, 0, true, 0⟩, 0, none, [], .reading (some 0) batch⟩], []⟩ := by
    have htail : store.tail = .init := htail
    simp only [exec, Stream.start, Stream.again, htail, htail₁]
    rfl
  -- its thread finds nothing
  have hrep₁ : Store.Rep { store with tail } (.of root) c₀ := ⟨hrep₀.topic, hrep₀.owns⟩
  obtain ⟨answer, c₂, hf, hset, hcounts, hread⟩ :=
    Handler.read_spec hrep₁ ⟨"orders", 0, 0, true, 0⟩ 0 batch
  obtain ⟨records, hanswer⟩ := Handler.read_answers hrep₁ ⟨"orders", 0, 0, true, 0⟩ 0 batch
    hname hcount rfl Nat.one_pos howns le_rfl
  have hnone : records = [] := by
    obtain ⟨-, p, hp, -, -, hrecs⟩ := hread records (hf.answer.symm.trans hanswer)
    obtain rfl : p = 0 := by simpa using hp.symm
    simp only [hrecords, List.drop_nil, List.take_nil, ite_self] at hrecs
    exact hrecs
  subst hnone
  have htail₂ := Handler.tail_read { store with tail } (.of root) ⟨"orders", 0, 0, true, 0⟩ 0 batch
  have hrep₂ := hf.rep
  have hholder₂ := hf.holder
  cases hr : Handler.read { store with tail } (.of root) ⟨"orders", 0, 0, true, 0⟩ 0 batch with
  | mk res rest =>
  obtain ⟨store₂, v₂⟩ := rest
  rw [hr] at hanswer htail₂ hrep₂ hholder₂
  simp only at hanswer htail₂ hrep₂ hholder₂
  subst hanswer
  have h₂ := exec_fetch (s := ⟨{ store with tail }, root,
    [⟨⟨"orders", 0, 0, true, 0⟩, 0, none, [], .reading (some 0) batch⟩], []⟩) (i := 0) rfl rfl hr
  -- so it parks
  have hparks : Stream.advance ⟨⟨"orders", 0, 0, true, 0⟩, 0, none, [], .fetched (some 0) batch
      (.ok [])⟩ store₂.tail (some 0) batch [] []
      = (⟨⟨"orders", 0, 0, true, 0⟩, 0, none, [], .parked 0⟩, store₂.tail) := by
    have hopen₂ : store₂.tail.closed = false := htail₂ ▸ hopen
    unfold Stream.advance Stream.afterBatch
    simp [hopen₂, batch]
  have h₃ := exec_resume (s := ⟨store₂, v₂.root,
    [⟨⟨"orders", 0, 0, true, 0⟩, 0, none, [], .fetched (some 0) batch (.ok [])⟩], []⟩)
    (i := 0) rfl rfl
  simp only [hparks] at h₃
  -- an append is called, a thread takes it, and its task is cancelled
  have hwaits : system.Reachable ⟨store₂, v₂.root,
      [⟨⟨"orders", 0, 0, true, 0⟩, 0, none, [], .parked 0⟩], []⟩ :=
    (((System.Reachable.start (S := system) hstart).step h₁).step h₂).step h₃
  have hcancelled : system.Reachable ⟨store₂, v₂.root,
      [⟨⟨"orders", 0, 0, true, 0⟩, 0, none, [], .parked 0⟩],
      [⟨"orders", none, some [], none, some 0, .running, true⟩]⟩ :=
    ((hwaits.step (show exec _ (.append "orders" none (some []) none (some 0))
      = some _ from rfl)).step
      (show exec _ (.take 0) = some _ from rfl)).step (show exec _ (.cancel 0) = some _ from rfl)
  -- the thread goes on
  have hrecords₂ : c₂.records "orders" 0 = [] := (hset.records _ _).trans hrecords
  have hf₃ := Topic.append_follows hrep₂.topic.of "orders" none (some []) none (some 0) 0 0
  have hanswer₃ : (c₂.append store₂.topic.holder "orders" none (some []) none (some 0) 0).1
      = .ok ((0 : ℕ), ((c₂.records "orders" 0).length : ℤ)) :=
    Catalog.append_eq_ok hname (hcounts ▸ hcount) rfl Nat.one_pos (hholder₂ ▸ howns)
      (by rw [hrecords₂]; exact henc)
  rw [hrecords₂] at hanswer₃
  cases hc : c₂.append store₂.topic.holder "orders" none (some []) none (some 0) 0 with
  | mk answer₃ c₃ =>
  cases happ : store₂.topic.append (.of v₂.root) "orders" none (some []) none (some 0) 0 0 with
  | mk res₃ rest =>
  obtain ⟨topic₃, v₃⟩ := rest
  rw [hc] at hf₃ hanswer₃
  rw [happ] at hf₃
  obtain rfl : answer₃ = .ok (0, 0) := hanswer₃
  obtain rfl : res₃ = .ok (0, 0) := hf₃.answer
  have hlength : (c₃.records "orders" 0).length = 1 := by
    rcases Catalog.append_outcome hc with ⟨e, he, -⟩ | ⟨p, r, hok, -, -, -, -, hadds⟩
    · cases he
    · obtain rfl : p = 0 := by
        have hp := (Prod.mk.inj (Except.ok.inj hok)).1
        exact_mod_cast hp.symm
      rw [hadds.records, if_pos ⟨rfl, rfl⟩, hrecords₂]
      rfl
  have h₄ := exec_write (s := ⟨store₂, v₂.root,
    [⟨⟨"orders", 0, 0, true, 0⟩, 0, none, [], .parked 0⟩],
    [⟨"orders", none, some [], none, some 0, .running, true⟩]⟩) (j := 0) rfl rfl happ
  have hwritten := hcancelled.step (S := system) h₄
  refine ⟨_, hwritten, fun a ha => ?_, _, List.mem_singleton_self _, rfl, rfl, rfl, rfl,
    htail₂ ▸ hunset, rfl, ?_, fun k hpend => ?_⟩
  · cases List.mem_singleton.mp ha
    exact ⟨rfl, rfl⟩
  · rw [← hlength]
    exact congrArg List.length (hf₃.rep.stores.records_eq "orders" 0)
  · obtain ⟨a, ha, -, -, hawaited⟩ := hpend
    cases List.mem_singleton.mp ha
    cases hawaited

end LiveTail

end Pyka
