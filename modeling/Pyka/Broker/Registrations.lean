import Pyka.Broker.LiveTailSpec

/-!
# What streams leave behind

A `Consume` that follows registers an event with the tail before it reads, and
nothing takes the event out but an append to the partition or the closing of
the tail. A stream that ends takes no part in it: not when its read is
refused, not when its client goes away, and not when it finds the tail closed
after it has subscribed once more.

So an event stays behind exactly where a stream ends with its partition still
registered and nobody else following it (`LiveTail.registered_le`).

## What it costs

One event in a dictionary for each partition that was followed and has not
been appended to since; nothing waits for it. It is registered under the name
and the partition of the request, before either was looked at, so a client can
have any number of them made by asking to follow topics that do not exist.

## How it is counted

There are no more registered events than live streams that follow, as long as
each event is of a partition that one of them follows (`Followed`). A step of
a stream keeps that unless the stream ends by it: while it goes on, whatever
it registers it follows. When it ends, its event has to be gone already, or
somebody else has to follow the partition (`Tidy`). That is a condition on the
state before the step, since by its phase and the tail one can tell that a
stream is about to end (`Stream.Ends`).

Clients go away here, which they do not in `Broker.LiveTail`: the call ends
where it is, and a read that a thread is doing for it goes on and is for
nobody (`Serving.abandoned`).
-/

namespace Pyka

namespace LiveTail

/-! ## Clients that go away

The calls of `Broker.LiveTail`, with one more thing that can happen to a
stream, and the reads that are left over by it. -/

namespace Stream

/-- Is the call still going on? It is until it has returned or was aborted. -/
def live (st : Stream) : Bool :=
  match st.phase with
  | .returned => false
  | .aborted _ => false
  | _ => true

/-- A live follow stream: one that has a use for an event. -/
def follows (st : Stream) : Bool := st.request.follow && st.live

/-- It follows, and it is live. -/
theorem follows_iff {st : Stream} :
    st.follows = true ↔ st.request.follow = true ∧ st.live = true := Bool.and_eq_true_iff

/-- What the event of a stream is registered under. -/
def key (st : Stream) : String × ℤ := (st.request.topic, st.request.partition)

/-- The read that a thread is doing for a stream, or is about to do. -/
def pendingRead (st : Stream) : Option (ConsumeRequest × ℤ × ℤ) :=
  match st.phase with
  | .reading _ limit => some (st.request, st.offset, limit)
  | _ => none

/-- **The client has gone away.** `CancelledError` is raised where the stream
awaits, and `Consume` does not handle it. -/
def cancelled (st : Stream) : Stream := { st with phase := .returned }

end Stream

/-- A store and the calls on it, and the reads of streams that have gone away
before their threads were back. -/
structure Serving where
  calls : State
  abandoned : List (ConsumeRequest × ℤ × ℤ)

/-- **What can happen next**, where clients may go away. -/
inductive Event
  | act (act : Act)
  /-- The client of a stream cancels the call. -/
  | hangUp (i : ℕ)
  /-- A thread does a read that nobody awaits any more. -/
  | finish (k : ℕ)

variable [Crc32]

/-- **One step**, where it is possible. A client can go away at any moment of
a call that is going on. -/
def Serving.exec (s : Serving) : Event → Option Serving
  | .act act => (LiveTail.exec s.calls act).map fun calls => { s with calls }
  | .hangUp i => do
    let st ← s.calls.streams[i]?
    if st.live then
      some ⟨s.calls.put i (st.cancelled, s.calls.store.tail), s.abandoned ++ st.pendingRead.toList⟩
    else none
  | .finish k => do
    let (request, offset, limit) ← s.abandoned[k]?
    let (_, store, v) := Handler.read s.calls.store (.of s.calls.root) request offset limit
    some ⟨{ s.calls with store, root := v.root }, s.abandoned.eraseIdx k⟩

/-- **A broker that has just started**, whose clients may go away. -/
def serving : System Serving Event where
  start s := system.start s.calls ∧ s.abandoned = []
  step s e s' := s.exec e = some s'

/-! ## How a stream ends

By a refused read, by its client, or by a tail that is closed. Each can be
told from the state before the step. -/

namespace Stream

/-- A stream has yielded its batch, it was a short one, and the tail is
closed. -/
def CaughtUp (closed : Bool) (limit : ℤ) (fetched rest : List Record) : Prop :=
  rest = [] ∧ (fetched.length : ℤ) ≠ limit ∧ closed = true

/-- **A follow stream ends when the event loop goes on with it**: its read was
refused, or it would wait and the tail is closed. -/
def Ends (closed : Bool) (st : Stream) : Prop :=
  match st.phase with
  | .fetched _ _ (.error _) => True
  | .fetched _ limit (.ok records) => CaughtUp closed limit records records
  | .yielding _ limit fetched rest => CaughtUp closed limit fetched rest
  | .parked _ => closed = true
  | _ => False

end Stream

/-- **A step in which a follow stream ends.** -/
def Event.Ends (closed : Bool) (i : ℕ) (st : Stream) : Event → Prop
  | .act (.resume j) => j = i ∧ st.Ends closed
  | .act (.wake j) => j = i ∧ st.Ends closed
  | .act (.timeout j) => j = i ∧ st.Ends closed
  | .hangUp j => j = i
  | _ => False

/-- **Nobody's event is left behind**: when a follow stream ends, there is no
event for its partition, or somebody else follows it. -/
def Tidy (s : Serving) (e : Event) : Prop :=
  ∀ i st, s.calls.streams[i]? = some st → st.follows = true →
    e.Ends s.calls.store.tail.closed i st →
      st.key ∉ s.calls.store.tail.events
      ∨ ∃ j st', j ≠ i ∧ s.calls.streams[j]? = some st' ∧ st'.follows = true ∧ st'.key = st.key

/-! ## What one stream does

Each piece of the loop, as it goes on or ends, and what it registers. A stream
that follows counts no records down, so its limit never makes it end. -/

namespace Stream

omit [Crc32]

/-- **A stream that follows** does so without end, and has an event to wait
for. -/
def Endless (st : Stream) : Prop :=
  st.request.follow = true → st.remaining = none ∧ match st.phase with
    | .reading waiter _ => waiter.isSome = true
    | .fetched waiter _ _ => waiter.isSome = true
    | .yielding waiter _ _ _ => waiter.isSome = true
    | _ => True

/-- **A stream goes on, or ends.** It may register the partition it follows;
one that ends does not touch the tail. -/
structure Moves (st : Stream) (tail : Tail) (ends : Prop) (out : Stream × Tail) : Prop where
  request : out.1.request = st.request
  endless : out.1.Endless
  events : ∀ key ∈ out.2.events, key ∈ tail.events ∨ key = st.key ∧ out.1.follows = true
  live : st.request.follow = true → ¬ends → out.1.live = true
  ended : st.request.follow = true → ends → out.1.live = false ∧ out.2 = tail

variable {st : Stream} {tail : Tail} {ends : Prop}

/-- A stream follows the same partition throughout. -/
theorem Moves.key {out : Stream × Tail} (h : st.Moves tail ends out) : out.1.key = st.key := by
  unfold Stream.key
  rw [h.request]

/-- What happens to a stream that touches no tail and stays live. -/
theorem moves_phase {st' : Stream} (hrequest : st'.request = st.request) (hendless : st'.Endless)
    (hlive : st'.live = true) (hends : ¬ends) : st.Moves tail ends (st', tail) :=
  ⟨hrequest, hendless, fun _ hkey => Or.inl hkey, fun _ _ => hlive, fun _ h => absurd h hends⟩

/-- What happens to a stream that ends. -/
theorem moves_end {st' : Stream} (hrequest : st'.request = st.request) (hendless : st'.Endless)
    (hlive : st'.live = false) (hends : st.request.follow = true → ends) :
    st.Moves tail ends (st', tail) :=
  ⟨hrequest, hendless, fun _ hkey => Or.inl hkey, fun hf h => absurd (hends hf) h,
    fun _ _ => ⟨hlive, rfl⟩⟩

/-- **From the top of the loop** a stream registers its partition. -/
theorem moves_again (st : Stream) (tail : Tail)
    (hremaining : st.request.follow = true → st.remaining = none) (hends : ¬ends) :
    st.Moves tail ends (st.again tail) := by
  unfold again
  cases hf : st.request.follow with
  | true =>
    refine ⟨rfl, fun _ => ⟨hremaining hf, rfl⟩, fun key hkey => ?_, fun _ _ => rfl,
      fun _ h => absurd h hends⟩
    rcases Tail.mem_events_subscribe.mp hkey with rfl | hkey
    · exact Or.inr ⟨rfl, follows_iff.mpr ⟨hf, rfl⟩⟩
    · exact Or.inl hkey
  | false =>
    refine moves_phase rfl (fun h => ?_) rfl hends
    rw [show st.request.follow = false from hf] at h
    cases h

/-- It is the request that says which. -/
theorem Moves.of_request {st₀ : Stream} {out : Stream × Tail} (h : st.Moves tail ends out)
    (hrequest : st.request = st₀.request) : st₀.Moves tail ends out where
  request := h.request.trans hrequest
  endless := h.endless
  events key hkey := (h.events key hkey).imp_right fun ⟨hk, hf⟩ => by
    refine ⟨?_, hf⟩
    unfold Stream.key at hk ⊢
    rwa [← hrequest]
  live hf := h.live (hrequest ▸ hf)
  ended hf := h.ended (hrequest ▸ hf)

/-- **After a batch** a follow stream reads on, waits, or has found the tail
closed. -/
theorem moves_afterBatch {waiter : Option ℕ} (limit : ℤ) (fetched : List Record)
    (hfollow : st.request.follow = true → st.remaining = none ∧ waiter.isSome = true) :
    st.Moves tail (CaughtUp tail.closed limit fetched [])
      (st.afterBatch tail waiter limit fetched) := by
  have hnone : st.request.follow = true →
      st.remaining.map (· - (fetched.length : ℤ)) = none := fun hf => by
    rw [(hfollow hf).1]
    rfl
  have hdead : ∀ st' : Stream, st'.request = st.request → st'.phase = .returned →
      (st.request.follow = true → st'.remaining = none) → st'.Endless := fun st' hr hp hrem hf => by
    refine ⟨hrem (hr ▸ hf), ?_⟩
    rw [hp]
    trivial
  unfold Stream.afterBatch
  simp only
  by_cases hdone : (st.remaining.map (· - (fetched.length : ℤ))).any (· ≤ 0) = true
  · rw [if_pos hdone]
    refine moves_end rfl (hdead _ rfl rfl hnone) rfl fun hf => ?_
    rw [hnone hf] at hdone
    cases hdone
  rw [if_neg hdone]
  by_cases hfull : (fetched.length : ℤ) = limit
  · rw [if_pos hfull]
    exact (moves_again _ tail hnone fun h => h.2.1 hfull).of_request rfl
  rw [if_neg hfull]
  cases waiter with
  | none =>
    refine moves_end rfl (hdead _ rfl rfl hnone) rfl fun hf => ?_
    cases (hfollow hf).2
  | some w =>
    cases hclosed : tail.closed with
    | true => exact moves_end rfl (hdead _ rfl rfl hnone) rfl fun _ => ⟨rfl, hfull, rfl⟩
    | false =>
      refine moves_phase rfl (fun hf => ⟨hnone hf, trivial⟩) rfl fun h => ?_
      cases h.2.2

/-- **A record is yielded**, or the batch ends. -/
theorem moves_advance {waiter : Option ℕ} (limit : ℤ) (fetched rest : List Record)
    (hfollow : st.request.follow = true → st.remaining = none ∧ waiter.isSome = true) :
    st.Moves tail (CaughtUp tail.closed limit fetched rest)
      (st.advance tail waiter limit fetched rest) := by
  cases rest with
  | nil => exact moves_afterBatch limit fetched hfollow
  | cons r rest =>
    refine moves_phase rfl hfollow rfl fun h => ?_
    cases h.1

/-- **After the wait** it ends if the tail is closed, and reads on if not. -/
theorem moves_awake (hfollow : st.request.follow = true → st.remaining = none) :
    st.Moves tail (tail.closed = true) (st.awake tail) := by
  unfold awake
  split_ifs with hclosed
  · exact moves_end rfl (fun hf => ⟨hfollow hf, trivial⟩) rfl fun _ => hclosed
  · exact moves_again st tail hfollow hclosed

/-- **A request for a stream** registers its partition, if it is to follow. -/
theorem moves_start (request : ConsumeRequest) (tail : Tail) :
    (start request tail).1.request = request ∧ (start request tail).1.Endless
      ∧ ∀ key ∈ (start request tail).2.events, key ∈ tail.events
        ∨ key = (start request tail).1.key ∧ (start request tail).1.follows = true := by
  have hmoves : Moves _ tail False (start request tail) := moves_again _ tail (fun hf => by
    show (if 0 < request.maxRecords ∧ request.follow = false then some request.maxRecords else none)
      = none
    rw [if_neg fun h => by rw [show request.follow = true from hf] at h; cases h.2]) id
  refine ⟨hmoves.request, hmoves.endless, ?_⟩
  rw [hmoves.key]
  exact hmoves.events

end Stream

/-! ## Who follows what is registered

The invariant, and how it is kept by one stream's going on. -/

/-- **Every registered event is of a partition that a live stream follows.** -/
structure Followed (streams : List Stream) (tail : Tail) : Prop where
  endless : ∀ st ∈ streams, st.Endless
  followed : ∀ key ∈ tail.events, ∃ st ∈ streams, st.follows = true ∧ st.key = key

section Followed

omit [Crc32]

variable {streams : List Stream} {tail : Tail}

/-- Fewer events are followed as well. -/
theorem Followed.mono (h : Followed streams tail) {tail' : Tail}
    (hevents : ∀ key ∈ tail'.events, key ∈ tail.events) : Followed streams tail' :=
  ⟨h.endless, fun key hkey => h.followed key (hevents key hkey)⟩

/-- **A stream goes on, or ends** and leaves no event that it alone
followed. -/
theorem Followed.set (h : Followed streams tail) {i : ℕ} {st : Stream}
    (hst : streams[i]? = some st) {ends : Prop} {out : Stream × Tail}
    (hmoves : st.Moves tail ends out)
    (htidy : st.follows = true → ends → st.key ∉ tail.events
      ∨ ∃ j st', j ≠ i ∧ streams[j]? = some st' ∧ st'.follows = true ∧ st'.key = st.key) :
    Followed (streams.set i out.1) out.2 := by
  have hself : out.1 ∈ streams.set i out.1 := List.mem_iff_getElem?.mpr
    ⟨i, List.getElem?_set_self (List.getElem?_eq_some_iff.mp hst).1⟩
  have hother : ∀ {j : ℕ} {st' : Stream}, j ≠ i → streams[j]? = some st' →
      st' ∈ streams.set i out.1 := fun hne hst' => List.mem_iff_getElem?.mpr
    ⟨_, (List.getElem?_set_ne (Ne.symm hne)).trans hst'⟩
  refine ⟨fun st' hst' => ?_, fun key hkey => ?_⟩
  · rcases List.mem_or_eq_of_mem_set hst' with hold | rfl
    · exact h.endless st' hold
    · exact hmoves.endless
  rcases hmoves.events key hkey with hold | ⟨rfl, hfollows⟩
  · obtain ⟨st', hmem, hfollows, rfl⟩ := h.followed key hold
    obtain ⟨j, hst'⟩ := List.mem_iff_getElem?.mp hmem
    by_cases hji : j = i
    · -- the event is that of the stream itself
      subst hji
      cases hst'.symm.trans hst
      by_cases hends : ends
      · rcases htidy hfollows hends with hnone | ⟨j', st', hne, hst', hfollows', hkey'⟩
        · exact absurd hold hnone
        · exact ⟨st', hother hne hst', hfollows', hkey'⟩
      · obtain ⟨hf, -⟩ := Stream.follows_iff.mp hfollows
        exact ⟨out.1, hself, Stream.follows_iff.mpr ⟨hmoves.request ▸ hf, hmoves.live hf hends⟩,
          hmoves.key⟩
    · exact ⟨st', hother hji hst', hfollows, rfl⟩
  · exact ⟨out.1, hself, hfollows, hmoves.key⟩

/-- **A request for a stream**: what it registers it follows. -/
theorem Followed.start (h : Followed streams tail) (request : ConsumeRequest) :
    Followed (streams ++ [(Stream.start request tail).1]) (Stream.start request tail).2 := by
  obtain ⟨-, hendless, hevents⟩ := Stream.moves_start request tail
  refine ⟨fun st hst => ?_, fun key hkey => ?_⟩
  · rcases List.mem_append.mp hst with hold | hnew
    · exact h.endless st hold
    · rw [List.mem_singleton.mp hnew]
      exact hendless
  · rcases hevents key hkey with hold | ⟨rfl, hfollows⟩
    · obtain ⟨st, hst, hrest⟩ := h.followed key hold
      exact ⟨st, List.mem_append_left _ hst, hrest⟩
    · exact ⟨_, List.mem_append_right _ (List.mem_singleton_self _), hfollows, rfl⟩

/-- **There are no more events than live follow streams**, since no two events
are of the same partition. -/
theorem Followed.length_le (h : Followed streams tail) :
    tail.events.keys.length ≤ (streams.filter (·.follows)).length := by
  have hsub : tail.events.keys ⊆ (streams.filter (·.follows)).map (·.key) := fun key hkey => by
    obtain ⟨st, hst, hfollows, rfl⟩ := h.followed key hkey
    exact List.mem_map_of_mem (List.mem_filter.mpr ⟨hst, hfollows⟩)
  calc tail.events.keys.length
      ≤ ((streams.filter (·.follows)).map (·.key)).length :=
        (tail.events.keys_nodup.subperm hsub).length_le
    _ = (streams.filter (·.follows)).length := List.length_map _

end Followed

/-! ## What one step does

A step of the broker, seen as what it does to the streams and the tail.
Appends only take events out. -/

/-- **What a step does to the streams and the tail**: a new stream, a step of
one stream, or nothing but that events are taken out. -/
inductive Changes (s : Serving) (e : Event) (s' : Serving) : Prop
  | start (request : ConsumeRequest)
      (streams : s'.calls.streams
        = s.calls.streams ++ [(Stream.start request s.calls.store.tail).1])
      (tail : s'.calls.store.tail = (Stream.start request s.calls.store.tail).2)
      (ends : ∀ i st, ¬e.Ends s.calls.store.tail.closed i st)
  | move (i : ℕ) (st : Stream) (out : Stream × Tail) (at_i : s.calls.streams[i]? = some st)
      (moves : st.Endless → st.Moves s.calls.store.tail (e.Ends s.calls.store.tail.closed i st) out)
      (streams : s'.calls.streams = s.calls.streams.set i out.1)
      (tail : s'.calls.store.tail = out.2)
      (ends : ∀ j st', e.Ends s.calls.store.tail.closed j st' → j = i)
  | rest (streams : s'.calls.streams = s.calls.streams)
      (events : ∀ key ∈ s'.calls.store.tail.events, key ∈ s.calls.store.tail.events)
      (ends : ∀ i st, ¬e.Ends s.calls.store.tail.closed i st)

variable {s s' : Serving}

omit [Crc32] in
/-- When a stream ends may be said in another way. -/
theorem Stream.Moves.of_iff {st : Stream} {tail : Tail} {ends ends' : Prop} {out : Stream × Tail}
    (h : st.Moves tail ends out) (hiff : ends' ↔ ends) : st.Moves tail ends' out :=
  ⟨h.request, h.endless, h.events, fun hf hends => h.live hf (mt hiff.mpr hends),
    fun hf hends => h.ended hf (hiff.mp hends)⟩

/-- **A stream goes on** after a batch, after a record, or after a refusal. -/
theorem changes_resume {i : ℕ} {calls : State}
    (hs' : LiveTail.exec s.calls (.resume i) = some calls) :
    Changes s (.act (.resume i)) { s with calls } := by
  simp only [LiveTail.exec, Option.bind_eq_bind, Option.bind_eq_some_iff] at hs'
  obtain ⟨st, hst, hcalls⟩ := hs'
  have hself : ∀ {ends : Prop}, (st.Ends s.calls.store.tail.closed ↔ ends) →
      ((Event.act (.resume i)).Ends s.calls.store.tail.closed i st ↔ ends) :=
    (and_iff_right rfl).trans
  cases hp : st.phase with
  | fetched waiter limit res =>
    rw [hp] at hcalls
    cases res with
    | error failure =>
      cases hcalls
      refine .move i st _ hst (fun hendless => ?_) rfl rfl fun j _ h => h.1.symm
      refine Stream.Moves.of_iff ?_ (hself (by unfold Stream.Ends; rw [hp]))
      exact Stream.moves_end rfl (fun hf => ⟨(hendless hf).1, trivial⟩) rfl fun _ => trivial
    | ok records =>
      cases hcalls
      refine .move i st _ hst (fun hendless => ?_) rfl rfl fun j _ h => h.1.symm
      refine Stream.Moves.of_iff ?_ (hself (by unfold Stream.Ends; rw [hp]))
      exact Stream.moves_advance limit records records fun hf => by
        simpa only [hp] using hendless hf
  | yielding waiter limit fetched rest =>
    rw [hp] at hcalls
    cases hcalls
    refine .move i st _ hst (fun hendless => ?_) rfl rfl fun j _ h => h.1.symm
    refine Stream.Moves.of_iff ?_ (hself (by unfold Stream.Ends; rw [hp]))
    exact Stream.moves_advance limit fetched rest fun hf => by
      simpa only [hp] using hendless hf
  | _ =>
    rw [hp] at hcalls
    cases hcalls

omit [Crc32] in
/-- **A stream goes on after the wait**, or ends. -/
theorem changes_awake {i : ℕ} {st : Stream} {waiter : ℕ} {act : Act}
    (hst : s.calls.streams[i]? = some st) (hp : st.phase = .parked waiter)
    (hact : ∀ closed j st', (Event.act act).Ends closed j st' ↔ i = j ∧ st'.Ends closed) :
    Changes s (.act act) { s with calls := s.calls.put i (st.awake s.calls.store.tail) } := by
  refine .move i st _ hst (fun hendless => ?_) rfl rfl fun j _ h => ((hact _ j _).mp h).1.symm
  refine Stream.Moves.of_iff ?_ (((hact _ i st).trans (and_iff_right rfl)).trans
    (by unfold Stream.Ends; rw [hp]))
  exact Stream.moves_awake fun hf => (hendless hf).1

/-- **What a step of a broker does** to the streams and the tail, by cases on
the act. -/
theorem changes_of_act {act : Act} {calls : State} (hs' : LiveTail.exec s.calls act = some calls) :
    Changes s (.act act) { s with calls } := by
  cases act with
  | consume request =>
    cases hs'
    exact .start request rfl rfl fun _ _ => id
  | fetch i =>
    simp only [LiveTail.exec, Option.bind_eq_bind, Option.bind_eq_some_iff] at hs'
    obtain ⟨st, hst, hs'⟩ := hs'
    cases hp : st.phase with
    | reading waiter limit =>
      rw [hp] at hs'
      cases hs'
      refine .move i st (_, s.calls.store.tail) hst (fun hendless => ?_) rfl
        (Handler.tail_read _ _ _ _ _) fun _ _ => False.elim
      exact Stream.moves_phase rfl (fun hf => by simpa only [hp] using hendless hf) rfl id
    | _ =>
      rw [hp] at hs'
      cases hs'
  | resume i => exact changes_resume hs'
  | wake i =>
    simp only [LiveTail.exec, Option.bind_eq_bind, Option.bind_eq_some_iff] at hs'
    obtain ⟨st, hst, hs'⟩ := hs'
    cases hp : st.phase with
    | parked waiter =>
      rw [hp] at hs'
      simp only [Option.ite_none_right_eq_some, Option.some.injEq] at hs'
      obtain ⟨-, rfl⟩ := hs'
      exact changes_awake hst hp fun _ _ _ => Iff.rfl
    | _ =>
      rw [hp] at hs'
      cases hs'
  | timeout i =>
    simp only [LiveTail.exec, Option.bind_eq_bind, Option.bind_eq_some_iff] at hs'
    obtain ⟨st, hst, hs'⟩ := hs'
    cases hp : st.phase with
    | parked waiter =>
      rw [hp] at hs'
      cases hs'
      exact changes_awake hst hp fun _ _ _ => Iff.rfl
    | _ =>
      rw [hp] at hs'
      cases hs'
  | append name key value timestamp partition =>
    cases hs'
    exact .rest rfl (fun _ hkey => hkey) fun _ _ => id
  | take j =>
    simp only [LiveTail.exec, Option.bind_eq_bind, Option.bind_eq_some_iff] at hs'
    obtain ⟨a, -, hs'⟩ := hs'
    split at hs' <;> cases hs'
    exact .rest rfl (fun _ hkey => hkey) fun _ _ => id
  | write j clock elapsed =>
    simp only [LiveTail.exec, Option.bind_eq_bind, Option.bind_eq_some_iff] at hs'
    obtain ⟨a, -, hs'⟩ := hs'
    split at hs' <;> cases hs'
    exact .rest rfl (fun _ hkey => hkey) fun _ _ => id
  | notify j =>
    simp only [LiveTail.exec, Option.bind_eq_bind, Option.bind_eq_some_iff] at hs'
    obtain ⟨a, -, hs'⟩ := hs'
    split at hs' <;> cases hs'
    exact .rest rfl (fun _ hkey => Tail.mem_events_of_notify hkey) fun _ _ => id
  | cancel j =>
    simp only [LiveTail.exec, Option.bind_eq_bind, Option.bind_eq_some_iff] at hs'
    obtain ⟨a, -, hs'⟩ := hs'
    split at hs' <;> cases hs' <;> exact .rest rfl (fun _ hkey => hkey) fun _ _ => id
  | close =>
    cases hs'
    exact .rest rfl (fun key hkey => absurd hkey (AList.notMem_empty key)) fun _ _ => id

/-- **What a step does**, a client that goes away and a read for nobody
included. -/
theorem changes_of_exec {e : Event} (hs' : s.exec e = some s') : Changes s e s' := by
  cases e with
  | hangUp i =>
    simp only [Serving.exec, Option.bind_eq_bind, Option.bind_eq_some_iff,
      Option.ite_none_right_eq_some, Option.some.injEq] at hs'
    obtain ⟨st, hst, -, rfl⟩ := hs'
    refine .move i st _ hst (fun hendless => ?_) rfl rfl fun j _ h => Eq.symm h
    exact Stream.moves_end rfl (fun hf => ⟨(hendless hf).1, trivial⟩) rfl fun _ => rfl
  | finish k =>
    simp only [Serving.exec, Option.bind_eq_bind, Option.bind_eq_some_iff, Option.some.injEq] at hs'
    obtain ⟨⟨request, offset, limit⟩, -, rfl⟩ := hs'
    refine .rest rfl (fun key hkey => ?_) fun _ _ => id
    have htail := Handler.tail_read s.calls.store (.of s.calls.root) request offset limit
    rwa [← htail]
  | act act =>
    simp only [Serving.exec, Option.map_eq_some_iff] at hs'
    obtain ⟨calls, hcalls, rfl⟩ := hs'
    exact changes_of_act hcalls

/-! ## Runs

Both directions for one step, and the bound for a whole run. -/

/-- **One step keeps it**, where no stream that ends leaves its event
behind. -/
theorem Followed.step (h : Followed s.calls.streams s.calls.store.tail) {e : Event}
    (hs' : s.exec e = some s') (htidy : Tidy s e) :
    Followed s'.calls.streams s'.calls.store.tail := by
  cases changes_of_exec hs' with
  | start request streams tail =>
    rw [streams, tail]
    exact h.start request
  | move i st out at_i moves streams tail =>
    rw [streams, tail]
    exact h.set at_i (moves (h.endless st (List.mem_of_getElem? at_i))) (htidy i st at_i)
  | rest streams events =>
    rw [streams]
    exact h.mono events

/-- **Where it does, there is an event afterwards that nobody follows.** -/
theorem left_behind (h : Followed s.calls.streams s.calls.store.tail) {e : Event}
    (hs' : s.exec e = some s') (huntidy : ¬Tidy s e) :
    ∃ key ∈ s'.calls.store.tail.events, ∀ st ∈ s'.calls.streams,
      st.follows = true → st.key ≠ key := by
  unfold Tidy at huntidy
  push Not at huntidy
  obtain ⟨i, st, hst, hfollows, hends, hkey, halone⟩ := huntidy
  cases changes_of_exec hs' with
  | start request streams tail ends => exact absurd hends (ends i st)
  | rest streams events ends => exact absurd hends (ends i st)
  | move j st' out at_j moves streams tail ends =>
    cases ends i st hends
    cases at_j.symm.trans hst
    obtain ⟨hdead, htail⟩ := (moves (h.endless st (List.mem_of_getElem? hst))).ended
      (Stream.follows_iff.mp hfollows).1 hends
    refine ⟨st.key, by rwa [tail, htail], fun st' hst' hfollows' => ?_⟩
    rw [streams] at hst'
    obtain ⟨k, hk⟩ := List.mem_iff_getElem?.mp hst'
    by_cases hki : k = i
    · subst hki
      rw [List.getElem?_set_self (List.getElem?_eq_some_iff.mp hst).1] at hk
      cases hk
      rw [(Stream.follows_iff.mp hfollows').2] at hdead
      cases hdead
    · rw [List.getElem?_set_ne (Ne.symm hki)] at hk
      exact halone k st' hki hk hfollows'

/-- **It holds at the start.** -/
theorem followed_start (hs : serving.start s) : Followed s.calls.streams s.calls.store.tail := by
  obtain ⟨c, -, -, htail, hstreams, -⟩ := start_spec hs.1
  rw [hstreams, htail]
  exact ⟨fun _ hst => absurd hst List.not_mem_nil,
    fun key hkey => absurd hkey (AList.notMem_empty key)⟩

/-- **Streams that end leave nothing behind.** In every run in which no follow
stream ends with its partition registered and nobody else following it, there
are no more registered events than live follow streams, so there is none when
no follow stream is live. A step that breaks this leaves an event behind that
nobody follows. -/
theorem registered_le (h : (serving.given Tidy).Reachable s) :
    s.calls.store.tail.events.keys.length ≤ (s.calls.streams.filter (·.follows)).length
    ∧ ((∀ st ∈ s.calls.streams, st.follows = false) → ∀ key, key ∉ s.calls.store.tail.events)
    ∧ ∀ e s', serving.step s e s' → ¬Tidy s e → ∃ key ∈ s'.calls.store.tail.events,
        ∀ st ∈ s'.calls.streams, st.follows = true → st.key ≠ key := by
  have hfollowed : Followed s.calls.streams s.calls.store.tail :=
    System.Reachable.invariant (S := serving.given Tidy)
      (P := fun s => Followed s.calls.streams s.calls.store.tail) (fun _ hs => followed_start hs)
      (fun _ _ _ hP hstep => hP.step hstep.1 hstep.2) h
  refine ⟨hfollowed.length_le, fun hnone key hkey => ?_, fun e s' hs' huntidy =>
    left_behind hfollowed hs' huntidy⟩
  obtain ⟨st, hst, hfollows, -⟩ := hfollowed.followed key hkey
  rw [hnone st hst] at hfollows
  cases hfollows

omit [Crc32] in
/-- Two clients follow a partition, and one of them goes away. -/
theorem registered_le_two : let _ := Crc32.zlib
    ∃ s, (serving.given Tidy).Reachable s ∧ s.calls.streams.length = 2
      ∧ s.calls.store.tail.events.keys.length ≤ (s.calls.streams.filter (·.follows)).length := by
  intro _
  obtain ⟨s, hs⟩ : ∃ s, system.start s := by
    obtain ⟨s, hs⟩ := Option.isSome_iff_exists.mp (show alone.isSome = true by decide +kernel)
    exact ⟨s, start_boot hs⟩
  obtain ⟨-, -, -, htail, hstreams, -⟩ := start_spec hs
  obtain ⟨⟨ring, topic, tail, ready, allowOrphans, orphans⟩, root, streams, appends⟩ := s
  cases htail
  cases hstreams
  have hreach := System.Reachable.start (S := serving.given Tidy)
    (show (serving.given Tidy).start ⟨_, []⟩ from ⟨hs, rfl⟩)
  have hgiven : ∀ {s : Serving} e {s'}, s.exec e = some s' → Tidy s e
      → (serving.given Tidy).step s e s' :=
    fun _ _ h h' => ⟨h, h'⟩
  have hone := hreach.step
    (hgiven (.act (.consume ⟨"orders", 0, 0, true, 0⟩)) rfl fun _ _ _ _ => False.elim)
  have htwo := hone.step
    (hgiven (.act (.consume ⟨"orders", 0, 0, true, 0⟩)) rfl fun _ _ _ _ => False.elim)
  have hleft := htwo.step (hgiven (.hangUp 0) rfl fun i st hst _ hends => by
    cases (show 0 = i from hends)
    cases hst
    exact Or.inr ⟨1, _, Nat.one_ne_zero, rfl, rfl, rfl⟩)
  exact ⟨_, hleft, rfl, (registered_le hleft).1⟩

/-! ### A request for a topic that does not exist

The smallest run that leaves an event behind: one request, and its refusal. -/

/-- A client asks to follow `orders`, and is refused. -/
def refusal : List Event :=
  [.act (.consume ⟨"orders", 0, 0, true, 0⟩), .act (.fetch 0), .act (.resume 0)]

omit [Crc32] in
/-- On a broker that has no topic the stream is refused, and its event
stays. -/
theorem refused_left : let _ := Crc32.zlib
    ∃ s s', serving.start s ∧ serving.Run s refusal s'
      ∧ (∀ st ∈ s'.calls.streams, st.follows = false)
      ∧ s'.calls.store.tail.events.keys = [("orders", 0)] := by
  intro _
  have hout : (alone.bind fun s => (refusal.foldlM Serving.exec ⟨s, []⟩).map fun s' =>
      (s'.calls.streams.map (·.follows), s'.calls.store.tail.events.keys))
        = some ([false], [("orders", 0)]) := by
    decide +kernel
  obtain ⟨s, hstart, hout⟩ := Option.bind_eq_some_iff.mp hout
  obtain ⟨s', hs', hleft⟩ := Option.map_eq_some_iff.mp hout
  obtain ⟨hstreams, hkeys⟩ := Prod.mk.inj hleft
  refine ⟨⟨s, []⟩, s', ⟨start_boot hstart, rfl⟩, System.Run.foldlM (fun _ _ _ h => h) hs',
    fun st hst => ?_, hkeys⟩
  have hfollows := List.mem_map_of_mem (f := fun st : Stream => st.follows) hst
  rw [hstreams] at hfollows
  exact List.mem_singleton.mp hfollows

end LiveTail

end Pyka
