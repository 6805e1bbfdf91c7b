import Pyka.Broker.Process

/-!
# Shutting down ends

At the signal the tail is closed and no new call is taken. From then on the
calls that are in flight have only so many steps left
(`LiveTail.State.steps`), whatever order they come in, and while there is a
call in flight there is a step to take that needs neither a cancellation nor
that time passes: a stream that waits has been woken
(`LiveTail.Stream.Steady`). So the process gets to closing the store with the
grace period unused (`Process.drains`).

## Why this needs an argument

A stream that follows has no end of its own, so it must not be possible to
keep one going. Once the tail is closed, a stream ends at the first batch that
is short. A batch is full only as long as there are records, and records come
only from the appends that were in flight, each of which writes one at most.
So the number of records a stream may still read is bounded by those that are
there and the appends that are left (`ahead`), and its steps by that: to read
a batch, to yield each record of it, and to go on.

## How it is counted

Every call has a number of steps left, by its phase. A step of a call takes at
least one off its own number and raises nobody else's: an append that writes a
record adds one to what streams may read, and has one write less ahead of it.
A cancellation is not counted; it raises no number either, so any of them may
happen in between. That a batch which was asked for is not empty as long as
there are records rests on its size being positive, which is kept as an
invariant of the streams, together with the one that whoever waits has been
woken.
-/

namespace Pyka

/-- What is put in the place of an element counts in its stead. -/
theorem sum_map_set {α : Type*} (f : α → ℕ) {xs : List α} {i : ℕ} {b : α} (h : xs[i]? = some b)
    (a : α) : ((xs.set i a).map f).sum + f b = (xs.map f).sum + f a := by
  induction xs generalizing i with
  | nil => cases h
  | cons x xs ih =>
    cases i with
    | zero =>
      cases h
      simp only [List.set_cons_zero, List.map_cons, List.sum_cons]
      omega
    | succ i =>
      have := ih (i := i) h
      simp only [List.set_cons_succ, List.map_cons, List.sum_cons]
      omega

namespace LiveTail

/-! ## Streams that end

What has to hold of a stream so that it ends: nothing is said of what it has
read. It is kept by every step of its own and of others. -/

/-- The size of the batch a stream has asked for. -/
def Phase.asked : Phase → Option ℤ
  | .reading _ limit => some limit
  | .fetched _ limit _ => some limit
  | .yielding _ limit _ _ => some limit
  | _ => none

/-- **A stream that ends**: it asks for a record at least, and once the tail is
closed it waits for no event that is not set. -/
structure Stream.Steady (st : Stream) (tail : Tail) : Prop where
  asked : ∀ limit ∈ st.phase.asked, 0 < limit
  remaining : st.phase ≠ .returned → ∀ remaining ∈ st.remaining, 0 < remaining
  set : ∀ w, st.phase = .parked w → tail.closed = true → tail.isSet w = true

namespace Stream

variable {st : Stream} {tail tail' : Tail}

/-- What is set stays set, and closing sets what is waited for. -/
theorem Steady.mono (h : st.Steady tail)
    (hset : ∀ w, st.phase = .parked w → tail'.closed = true →
      tail.closed = true ∧ (tail.isSet w = true → tail'.isSet w = true) ∨ tail'.isSet w = true) :
    st.Steady tail' where
  asked := h.asked
  remaining := h.remaining
  set w hw hclosed := by
    rcases hset w hw hclosed with ⟨hold, himp⟩ | hset
    · exact himp (h.set w hw hold)
    · exact hset

/-- A tail that others do not see the difference of sets and unsets nothing. -/
theorem Steady.quiet (h : st.Steady tail) (hquiet : Quiet tail tail') : st.Steady tail' :=
  h.mono fun w _ hclosed => Or.inl ⟨hquiet.closed.symm.trans hclosed, fun hset =>
    (hquiet.isSet w).trans hset⟩

/-- What goes on does not park once the tail is closed. -/
theorem GoesOn.steady {out : Stream × Tail} (h : st.GoesOn tail out)
    (hasked : ∀ limit ∈ out.1.phase.asked, 0 < limit)
    (hremaining : out.1.phase ≠ .returned → ∀ remaining ∈ out.1.remaining, 0 < remaining) :
    out.1.Steady out.2 where
  asked := hasked
  remaining := hremaining
  set w hw hclosed := by
    rw [h.quiet.closed, h.parks w hw] at hclosed
    cases hclosed

/-- A stream that has records left to ask for asks for one at least. -/
theorem limit_pos (h : ∀ remaining ∈ st.remaining, 0 < remaining) : 0 < st.limit := by
  unfold limit
  cases hr : st.remaining with
  | none => exact Nat.cast_pos.mpr (by decide)
  | some remaining => exact lt_min (by decide) (h remaining hr)

/-- At the head of the loop a stream comes to read, with or without an event. -/
theorem again_fst (st : Stream) (tail : Tail) :
    ∃ waiter, (st.again tail).1 = { st with phase := .reading waiter st.limit } := by
  unfold again
  split_ifs with hf
  · exact ⟨_, rfl⟩
  · exact ⟨_, rfl⟩

/-- And it is one that ends. -/
theorem steady_again (h : ∀ remaining ∈ st.remaining, 0 < remaining) (tail : Tail) :
    (st.again tail).1.Steady (st.again tail).2 := by
  obtain ⟨waiter, hagain⟩ := st.again_fst tail
  refine (st.goesOn_again tail).steady (fun limit hlimit => ?_) fun _ remaining hr => ?_
  · rw [hagain] at hlimit
    cases hlimit
    exact limit_pos h
  · rw [hagain] at hr
    exact h remaining hr

/-- A stream that has just come is one that ends. -/
theorem steady_start (request : ConsumeRequest) (tail : Tail) :
    (start request tail).1.Steady (start request tail).2 := by
  refine steady_again (fun remaining hr => ?_) tail
  simp only [Option.mem_def, Option.ite_none_right_eq_some, Option.some.injEq] at hr
  obtain ⟨⟨hpos, -⟩, rfl⟩ := hr
  exact hpos

/-- After a batch: it returns where its count is used up, so what is left is
positive. -/
theorem steady_afterBatch (st : Stream) (tail : Tail) (waiter : Option ℕ) (limit : ℤ)
    (fetched : List Record) : (st.afterBatch tail waiter limit fetched).1.Steady
      (st.afterBatch tail waiter limit fetched).2 := by
  have hgoes := st.goesOn_afterBatch tail waiter limit fetched
  unfold afterBatch at hgoes ⊢
  simp only at hgoes ⊢
  by_cases hdone : (st.remaining.map (· - (fetched.length : ℤ))).any (· ≤ 0) = true
  · rw [if_pos hdone] at hgoes ⊢
    exact hgoes.steady (fun _ h => by cases h) fun h => absurd rfl h
  · have hpos : ∀ remaining ∈ st.remaining.map (· - (fetched.length : ℤ)), 0 < remaining := by
      intro remaining hr
      by_contra hle
      exact hdone (by rw [hr]; exact decide_eq_true (not_lt.mp hle))
    rw [if_neg hdone] at hgoes ⊢
    split_ifs at hgoes ⊢ with hfull hclosed
    · exact steady_again hpos tail
    · cases waiter with
      | none => exact hgoes.steady (fun _ h => by cases h) fun h => absurd rfl h
      | some w => exact hgoes.steady (fun _ h => by cases h) fun h => absurd rfl h
    · cases waiter with
      | none => exact hgoes.steady (fun _ h => by cases h) fun h => absurd rfl h
      | some w => exact hgoes.steady (fun _ h => by cases h) fun _ => hpos

/-- Yielding a record changes nothing of it. -/
theorem Steady.advance (h : st.Steady tail) (hphase : st.phase ≠ .returned) {waiter : Option ℕ}
    {limit : ℤ} (hlimit : 0 < limit) (fetched rest : List Record) :
    (st.advance tail waiter limit fetched rest).1.Steady
      (st.advance tail waiter limit fetched rest).2 := by
  cases rest with
  | nil => exact st.steady_afterBatch tail waiter limit fetched
  | cons r rest =>
    refine (st.goesOn_advance tail waiter limit fetched (r :: rest)).steady (fun limit' h' => ?_)
      fun _ => h.remaining hphase
    cases h'
    exact hlimit

/-- After the wait it returns, or is at the head of the loop. -/
theorem Steady.awake (h : st.Steady tail) (hphase : st.phase ≠ .returned) :
    (st.awake tail).1.Steady (st.awake tail).2 := by
  have hgoes := st.goesOn_awake tail
  unfold Stream.awake at hgoes ⊢
  split_ifs at hgoes ⊢ with hclosed
  · exact hgoes.steady (fun _ h => by cases h) fun h => absurd rfl h
  · exact steady_again (h.remaining hphase) tail

end Stream

/-! ## Steps

What a step of an append takes off, and what a step of any call keeps. A
cancellation is a step that is not counted. -/

variable [Crc32] {s s' : State} {synced : String → ℕ → ℕ}

/-- Is a step a cancellation? -/
def Act.cancels : Act → Bool
  | .cancel _ => true
  | _ => false

/-- Is a step neither a cancellation nor a wait whose time is up? -/
def Act.prompt : Act → Bool
  | .cancel _ => false
  | .timeout _ => false
  | _ => true

/-- The append that goes on in a step, or is cancelled. -/
def Act.append? : Act → Option ℕ
  | .take j => some j
  | .write j _ _ => some j
  | .notify j => some j
  | .cancel j => some j
  | _ => none

/-- **How many steps an append has left**: a thread takes it, writes, and the
event loop notifies. -/
def AppendPhase.steps : AppendPhase → ℕ
  | .queued => 3
  | .running => 2
  | .written _ _ => 1
  | _ => 0

/-- How many records an append may still write: one, until its thread is back. -/
def AppendPhase.unwritten : AppendPhase → ℕ
  | .queued => 1
  | .running => 1
  | _ => 0

/-- **An append goes on**, or is cancelled, and no stream does. -/
theorem append_cases {act : Act} {j : ℕ} (hact : act.append? = some j) (h : exec s act = some s') :
    ∃ a a', s.appends[j]? = some a ∧ s'.appends = s.appends.set j a' ∧ s'.streams = s.streams
      ∧ a'.phase.steps + (!act.cancels).toNat ≤ a.phase.steps
      ∧ a'.phase.unwritten ≤ a.phase.unwritten
      ∧ (s'.root = s.root ∨ (∃ clock elapsed, act = .write j clock elapsed)
        ∧ a'.phase.unwritten + 1 = a.phase.unwritten)
      ∧ (s'.store.tail = s.store.tail
        ∨ ∃ topic partition, s'.store.tail = s.store.tail.notify topic partition) := by
  cases act with
  | take k =>
    cases hact
    simp only [exec, Option.bind_eq_bind, Option.bind_eq_some_iff] at h
    obtain ⟨a, ha, h⟩ := h
    cases hp : a.phase with
    | queued =>
      rw [hp] at h
      cases h
      exact ⟨a, _, ha, rfl, rfl, by rw [hp]; exact le_rfl, by rw [hp]; exact le_rfl, Or.inl rfl,
        Or.inl rfl⟩
    | _ =>
      rw [hp] at h
      cases h
  | write k clock elapsed =>
    cases hact
    simp only [exec, Option.bind_eq_bind, Option.bind_eq_some_iff] at h
    obtain ⟨a, ha, h⟩ := h
    cases hp : a.phase with
    | running =>
      rw [hp] at h
      cases h
      have hafter : ∀ res, (AppendPhase.after res).steps ≤ 1
          ∧ (AppendPhase.after res).unwritten = 0 := by
        intro res
        cases res with
        | ok place => exact ⟨le_rfl, rfl⟩
        | error e => exact ⟨Nat.zero_le _, rfl⟩
      refine ⟨a, _, ha, rfl, rfl, ?_, ?_, Or.inr ⟨⟨clock, elapsed, rfl⟩, ?_⟩, Or.inl rfl⟩
      · rw [hp]
        exact Nat.succ_le_succ (hafter _).1
      · exact (hafter _).2.trans_le (Nat.zero_le _)
      · rw [hp]
        exact congrArg Nat.succ (hafter _).2
    | _ =>
      rw [hp] at h
      cases h
  | notify k =>
    cases hact
    simp only [exec, Option.bind_eq_bind, Option.bind_eq_some_iff] at h
    obtain ⟨a, ha, h⟩ := h
    cases hp : a.phase with
    | written partition offset =>
      cases hc : a.cancelled with
      | true =>
        rw [hp, hc] at h
        cases h
      | false =>
        rw [hp, hc] at h
        cases h
        exact ⟨a, _, ha, rfl, rfl, by rw [hp]; exact le_rfl, by rw [hp]; exact le_rfl, Or.inl rfl,
          Or.inr ⟨_, _, rfl⟩⟩
    | _ =>
      rw [hp] at h
      cases h
  | cancel k =>
    cases hact
    simp only [exec, Option.bind_eq_bind, Option.bind_eq_some_iff] at h
    obtain ⟨a, ha, h⟩ := h
    cases hp : a.phase with
    | notified partition offset =>
      rw [hp] at h
      cases h
    | dropped =>
      rw [hp] at h
      cases h
    | queued =>
      rw [hp] at h
      cases h
      exact ⟨a, _, ha, rfl, rfl, Nat.zero_le _, Nat.zero_le _, Or.inl rfl, Or.inl rfl⟩
    | _ =>
      rw [hp] at h
      cases h
      exact ⟨a, _, ha, rfl, rfl, by rw [hp]; exact le_rfl, by rw [hp], Or.inl rfl, Or.inl rfl⟩
  | _ => cases hact

/-- Every stream ends once the tail is closed. -/
def State.Steady (s : State) : Prop := ∀ st ∈ s.streams, st.Steady s.store.tail

omit [Crc32] in
/-- It is so after a stream has gone on, if that one is. -/
theorem State.Steady.put (h : s.Steady) {i : ℕ} {st : Stream} {out : Stream × Tail}
    (hgoes : st.GoesOn s.store.tail out) (hout : out.1.Steady out.2) : (s.put i out).Steady := by
  intro st' hst'
  rcases List.mem_or_eq_of_mem_set hst' with hold | rfl
  · exact (h st' hold).quiet hgoes.quiet
  · exact hout

/-- **Every step keeps the streams steady.** -/
theorem State.Steady.step (h : s.Steady) (hsound : Sound s synced) {act : Act}
    (hexec : exec s act = some s') : s'.Steady := by
  have happend : ∀ {j}, act.append? = some j → s'.Steady := fun hact => by
    obtain ⟨a, a', -, -, hstreams, -, -, -, htail⟩ := append_cases hact hexec
    intro st hst
    rw [hstreams] at hst
    rcases htail with htail | ⟨topic, partition, htail⟩
    · rw [htail]
      exact h st hst
    · rw [htail]
      exact (h st hst).mono fun w _ hclosed =>
        Or.inl ⟨(Tail.closed_notify _ _ _).symm.trans hclosed,
          fun hset => Tail.isSet_notify_of_isSet hset _ _⟩
  have hawake : ∀ {i}, act = .wake i ∨ act = .timeout i → s'.Steady := fun hact => by
    obtain ⟨st, waiter, hst, hp, rfl⟩ := awake_cases hact hexec
    have hphase : st.phase ≠ .returned := by
      rw [hp]
      exact Phase.noConfusion
    exact h.put (st.goesOn_awake _) ((h st (List.mem_of_getElem? hst)).awake hphase)
  cases act with
  | consume request =>
    cases hexec
    intro st hst
    rcases List.mem_append.mp hst with hold | hnew
    · exact (h st hold).quiet (Stream.goesOn_again _ _).quiet
    · cases List.mem_singleton.mp hnew
      exact Stream.steady_start request _
  | fetch i =>
    have htail : s'.store.tail = s.store.tail := by
      obtain ⟨st, waiter, limit, -, -, res, store, v, hread, rfl⟩ := fetch_cases hexec
      have := Handler.tail_read s.store (.of s.root) st.request st.offset limit
      rwa [hread] at this
    obtain ⟨st, waiter, limit, hst, hp, res, store, v, -, rfl⟩ := fetch_cases hexec
    have hold := h st (List.mem_of_getElem? hst)
    intro st' hst'
    show st'.Steady store.tail
    rw [show store.tail = s.store.tail from htail]
    rcases List.mem_or_eq_of_mem_set hst' with hmem | rfl
    · exact h st' hmem
    · refine ⟨fun limit' h' => hold.asked limit' (by rw [hp]; exact h'), fun _ => hold.remaining ?_,
        fun w hw => by cases hw⟩
      rw [hp]
      exact Phase.noConfusion
  | resume i =>
    obtain ⟨st, hst, ⟨waiter, limit, failure, hp, rfl⟩ | ⟨waiter, limit, fetched, rest, hp, rfl⟩⟩ :=
      resume_cases hexec
    · have hold := h st (List.mem_of_getElem? hst)
      have hgoes : st.GoesOn s.store.tail ({ st with phase := .aborted failure }, s.store.tail) :=
        ⟨rfl, .refl _, fun w hw => by cases hw⟩
      refine h.put hgoes ⟨fun _ h => (by cases h), fun _ => hold.remaining ?_, fun w hw => by
        cases hw⟩
      rw [hp]
      exact Phase.noConfusion
    · have hold := h st (List.mem_of_getElem? hst)
      refine h.put (st.goesOn_advance _ _ _ _ _) (hold.advance ?_ (hold.asked limit ?_) _ _)
      · rcases hp with ⟨hp, -⟩ | hp <;> (rw [hp]; exact Phase.noConfusion)
      · rcases hp with ⟨hp, -⟩ | hp <;> (rw [hp]; rfl)
  | wake i => exact hawake (Or.inl rfl)
  | timeout i => exact hawake (Or.inr rfl)
  | append name key value timestamp partition =>
    cases hexec
    exact h
  | take j => exact happend rfl
  | write j clock elapsed => exact happend rfl
  | notify j => exact happend rfl
  | cancel j => exact happend rfl
  | close =>
    cases hexec
    intro st hst
    refine (h st hst).mono fun w hw _ => Or.inr ?_
    have hphase := (hsound.streams st hst).2
    rw [hw] at hphase
    exact hphase.2.2.2.1.isSet_close hsound.ok

/-! ## How many steps are left

The measure: of each stream, in terms of the records that it may still find,
and of each append. -/

namespace Stream

/-- **How many steps a stream has left** amid a batch, if its partition never
has more than so many records. -/
def batchSteps (st : Stream) (total : ℕ) (limit : ℤ) (fetched rest : List Record) : ℕ :=
  rest.length + 1 + if (fetched.length : ℤ) = limit
    then 3 * ((total : ℤ) - (st.offset + fetched.length)).toNat + 2 else 0

/-- **How many steps a stream has left**, if its partition never has more than so
many records: it reads them, yields them, and goes on after each batch. -/
def steps (st : Stream) (total : ℕ) : ℕ :=
  match st.phase with
  | .reading _ _ => 3 * ((total : ℤ) - st.offset).toNat + 2
  | .fetched _ _ (.error _) => 1
  | .fetched _ limit (.ok fetched) => st.batchSteps total limit fetched fetched
  | .yielding _ limit fetched rest => st.batchSteps total limit fetched rest
  | .parked _ => 1
  | .returned => 0
  | .aborted _ => 0

variable {st : Stream} {tail : Tail} {total total' : ℕ}

omit [Crc32] in
/-- The more records there may be, the more steps. -/
theorem batchSteps_mono (st : Stream) (h : total ≤ total') (limit : ℤ)
    (fetched rest : List Record) :
    st.batchSteps total limit fetched rest ≤ st.batchSteps total' limit fetched rest := by
  unfold batchSteps
  split_ifs
  · omega
  · exact le_rfl

omit [Crc32] in
/-- And so for a whole stream. -/
theorem steps_mono (st : Stream) (h : total ≤ total') : st.steps total ≤ st.steps total' := by
  unfold steps
  split
  · omega
  · exact le_rfl
  · exact st.batchSteps_mono h _ _ _
  · exact st.batchSteps_mono h _ _ _
  all_goals exact le_rfl

omit [Crc32] in
/-- **What is read takes a step.** A batch with records in it leaves so many
fewer to read, and an empty one is short. -/
theorem steps_fetched {records fetched : List Record} {limit : ℤ} (hlimit : 0 < limit)
    (hoffset : 0 ≤ st.offset) (hpiece : fetched <+: records.drop st.offset.toNat)
    (htotal : records.length ≤ total) :
    st.batchSteps total limit fetched fetched < 3 * ((total : ℤ) - st.offset).toNat + 2 := by
  have hlen := hpiece.length_le
  rw [List.length_drop] at hlen
  unfold batchSteps
  split_ifs with hfull
  · omega
  · omega

omit [Crc32] in
/-- At the head of the loop a stream has all that it may still read before it. -/
theorem steps_again (st : Stream) (tail : Tail) (total : ℕ) :
    (st.again tail).1.steps total = 3 * ((total : ℤ) - st.offset).toNat + 2 := by
  obtain ⟨waiter, hagain⟩ := st.again_fst tail
  rw [hagain]
  rfl

omit [Crc32] in
/-- **After a batch** the stream ends, once the tail is closed, unless the batch
was a full one. -/
theorem steps_afterBatch {waiter : Option ℕ} {limit : ℤ} {fetched : List Record}
    (hclosed : tail.closed = true)
    (hoffset : (fetched.getLast?.map fun r => r.offset + 1).getD st.offset
      = st.offset + fetched.length) :
    (st.afterBatch tail waiter limit fetched).1.steps total
      < st.batchSteps total limit fetched [] := by
  have hpos : ∀ n, 0 < ([] : List Record).length + 1 + n := fun n => by simp
  unfold afterBatch batchSteps
  simp only [hoffset, hclosed, if_true]
  split_ifs with hdone hfull hfull
  · exact hpos _
  · exact hpos _
  · rw [steps_again]
    exact Nat.lt_of_lt_of_le (Nat.lt_succ_self _) (by simp only [List.length_nil]; omega)
  · cases waiter <;> exact hpos _

omit [Crc32] in
/-- Yielding a record takes a step, and so does going on after the last. -/
theorem steps_advance {waiter : Option ℕ} {limit : ℤ} {fetched rest : List Record}
    (hclosed : tail.closed = true)
    (hoffset : (fetched.getLast?.map fun r => r.offset + 1).getD st.offset
      = st.offset + fetched.length) :
    (st.advance tail waiter limit fetched rest).1.steps total
      < st.batchSteps total limit fetched rest := by
  cases rest with
  | nil => exact steps_afterBatch hclosed hoffset
  | cons r rest =>
    show batchSteps _ total limit fetched rest < _
    unfold batchSteps
    rw [List.length_cons]
    split_ifs
    · show rest.length + 1 + (3 * ((total : ℤ) - (st.offset + fetched.length)).toNat + 2) < _
      omega
    · omega

end Stream

namespace State

/-- How many records a stream's partition has, or may get from the appends in
flight. -/
def ahead (s : State) (st : Stream) : ℕ :=
  (st.onRoot s.root).length + (s.appends.map fun a => a.phase.unwritten).sum

/-- **How many steps the calls have left** once no more are taken. -/
def steps (s : State) : ℕ :=
  (s.streams.map fun st => st.steps (s.ahead st)).sum + (s.appends.map fun a => a.phase.steps).sum

/-- A stream that goes on has fewer steps left, and so have all. -/
theorem steps_set {i : ℕ} {st st' : Stream} (hst : s.streams[i]? = some st)
    (hstreams : s'.streams = s.streams.set i st') (happends : s'.appends = s.appends)
    (hrecords : s'.root.records = s.root.records) (hrequest : st'.request = st.request)
    (hless : st'.steps (s.ahead st) < st.steps (s.ahead st)) : s'.steps < s.steps := by
  have hahead : s'.ahead = s.ahead := by
    funext st
    unfold ahead Stream.onRoot
    rw [hrecords, happends]
  have hsame : s.ahead st' = s.ahead st := by
    unfold ahead Stream.onRoot
    rw [hrequest]
  have hsum := sum_map_set (fun st => st.steps (s.ahead st)) hst st'
  rw [hsame] at hsum
  unfold steps
  rw [hstreams, happends, hahead]
  omega

/-- An append that goes on has fewer steps left, and no stream has more. -/
theorem steps_setAppend {j : ℕ} {a a' : Append} {taken : ℕ} (ha : s.appends[j]? = some a)
    (happends : s'.appends = s.appends.set j a') (hstreams : s'.streams = s.streams)
    (hless : a'.phase.steps + taken ≤ a.phase.steps)
    (hahead : ∀ name p, (s'.root.records name p).length + a'.phase.unwritten
      ≤ (s.root.records name p).length + a.phase.unwritten) : s'.steps + taken ≤ s.steps := by
  have hunwritten := sum_map_set (fun a => a.phase.unwritten) ha a'
  have hsteps := sum_map_set (fun a => a.phase.steps) ha a'
  have hstream : ∀ st ∈ s.streams, st.steps (s'.ahead st) ≤ st.steps (s.ahead st) := fun st _ => by
    refine st.steps_mono ?_
    have := hahead st.request.topic st.request.partition.toNat
    unfold ahead Stream.onRoot
    rw [happends]
    omega
  have := List.sum_le_sum hstream
  unfold steps
  rw [hstreams, happends]
  omega

/-- **Every step takes one of those left**, except a cancellation, once the tail
is closed and no more calls are taken. -/
theorem steps_step (h : s.Steady) (hsound : Sound s synced) (hclosed : s.store.tail.closed = true)
    {act : Act} (hadmits : Process.Phase.draining.admits act = true)
    (hexec : exec s act = some s') :
    s'.steps + (!act.cancels).toNat ≤ s.steps := by
  have hawake : ∀ {i}, act = .wake i ∨ act = .timeout i →
      s'.steps + (!act.cancels).toNat ≤ s.steps := by
    intro i hact
    obtain ⟨st, waiter, hst, hp, rfl⟩ := awake_cases hact hexec
    have hless : (s.put i (st.awake s.store.tail)).steps < s.steps := by
      refine steps_set hst rfl rfl rfl (st.goesOn_awake _).request ?_
      unfold Stream.awake Stream.steps
      rw [if_pos hclosed, hp]
      exact Nat.one_pos
    rcases hact with rfl | rfl <;> exact hless
  have happend : ∀ {j}, act.append? = some j → s'.steps + (!act.cancels).toNat ≤ s.steps := by
    intro j hact
    obtain ⟨a, a', ha, happends, hstreams, hless, hunwritten, hroot, -⟩ := append_cases hact hexec
    refine steps_setAppend ha happends hstreams hless fun name p => ?_
    rcases hroot with hroot | ⟨⟨clock, elapsed, rfl⟩, hone⟩
    · rw [hroot]
      omega
    · -- the record that is written is one that was ahead
      obtain ⟨-, -, -, hlonger⟩ := hsound.write j clock elapsed hexec
      have := hlonger name p
      omega
  cases act with
  | consume request => cases hadmits
  | append name key value timestamp partition => cases hadmits
  | close => cases hadmits
  | fetch i =>
    obtain ⟨hsound', -, hrecords⟩ := hsound.fetch i hexec
    obtain ⟨st, waiter, limit, hst, hp, res, store, v, -, rfl⟩ := fetch_cases hexec
    refine steps_set (s := s) hst rfl rfl hrecords rfl ?_
    have hlimit := (h st (List.mem_of_getElem? hst)).asked limit (by rw [hp]; rfl)
    obtain ⟨-, hphase⟩ := hsound'.streams _
      (List.mem_of_getElem? (List.getElem?_set_self (List.getElem?_eq_some_iff.mp hst).1))
    have hnow : st.steps (s.ahead st) = 3 * ((s.ahead st : ℤ) - st.offset).toNat + 2 := by
      unfold Stream.steps
      rw [hp]
    rw [hnow]
    cases res with
    | error failure => exact Nat.lt_of_lt_of_le (Nat.lt_succ_self 1) (Nat.le_add_left 2 _)
    | ok fetched =>
      refine Stream.steps_fetched hlimit hphase.offset hphase.piece ?_
      show (v.root.records _ _).length ≤ s.ahead st
      rw [show v.root.records = s.root.records from hrecords]
      exact Nat.le_add_right _ _
  | resume i =>
    obtain ⟨st, hst, ⟨waiter, limit, failure, hp, rfl⟩ | ⟨waiter, limit, fetched, rest, hp, rfl⟩⟩ :=
      resume_cases hexec
    · refine steps_set hst rfl rfl rfl rfl ?_
      unfold Stream.steps
      rw [hp]
      exact Nat.one_pos
    · refine steps_set hst rfl rfl rfl (st.goesOn_advance _ _ _ _ _).request ?_
      have hbatch := (hsound.streams st (List.mem_of_getElem? hst)).inBatch hp
      have hnow : st.steps (s.ahead st) = st.batchSteps (s.ahead st) limit fetched rest := by
        unfold Stream.steps
        rcases hp with ⟨hp, rfl⟩ | hp <;> rw [hp]
      rw [hnow]
      exact Stream.steps_advance hclosed
        (Stream.offset_next (hsound.consecutive st) hbatch.offset hbatch.piece)
  | wake i => exact hawake (Or.inl rfl)
  | timeout i => exact hawake (Or.inr rfl)
  | take j => exact happend rfl
  | write j clock elapsed => exact happend rfl
  | notify j => exact happend rfl
  | cancel j => exact happend rfl

/-- **While a call is in flight there is a step to take**, and it is neither a
cancellation nor a wait that is over. -/
theorem exists_step (h : s.Steady) (hclosed : s.store.tail.closed = true) (hbusy : s.idle = false) :
    ∃ act, Process.Phase.draining.admits act = true ∧ act.prompt = true
      ∧ (exec s act).isSome = true := by
  unfold idle at hbusy
  rw [Bool.and_eq_false_iff, Bool.not_eq_false', Bool.not_eq_false', List.any_eq_true,
    List.any_eq_true] at hbusy
  rcases hbusy with ⟨st, hst, hbusy⟩ | ⟨a, ha, hbusy⟩
  · obtain ⟨i, hi⟩ := List.mem_iff_getElem?.mp hst
    unfold Stream.inFlight at hbusy
    cases hp : st.phase with
    | reading waiter limit =>
      refine ⟨.fetch i, rfl, rfl, ?_⟩
      simp [exec, hi, hp]
    | fetched waiter limit res =>
      refine ⟨.resume i, rfl, rfl, ?_⟩
      cases res <;> simp [exec, hi, hp]
    | yielding waiter limit fetched rest =>
      refine ⟨.resume i, rfl, rfl, ?_⟩
      simp [exec, hi, hp]
    | parked waiter =>
      refine ⟨.wake i, rfl, rfl, ?_⟩
      have hset := (h st hst).set waiter hp hclosed
      simp [exec, hi, hp, hset]
    | returned =>
      rw [hp] at hbusy
      cases hbusy
    | aborted failure =>
      rw [hp] at hbusy
      cases hbusy
  · obtain ⟨j, hj⟩ := List.mem_iff_getElem?.mp ha
    unfold Append.inFlight at hbusy
    cases hp : a.phase with
    | queued =>
      refine ⟨.take j, rfl, rfl, ?_⟩
      simp [exec, hj, hp]
    | running =>
      refine ⟨.write j 0 0, rfl, rfl, ?_⟩
      simp [exec, hj, hp]
    | written partition offset =>
      rw [hp] at hbusy
      have hc : a.cancelled = false := (Bool.not_eq_true' _).mp hbusy
      refine ⟨.notify j, rfl, rfl, ?_⟩
      simp [exec, hj, hp, hc]
    | _ =>
      rw [hp] at hbusy
      cases hbusy

end State

end LiveTail

/-! ## The process

The same for a process: its steps are those of the calls, and when none is in
flight it goes on to close the store. -/

namespace Process

variable [Crc32] {phase : Phase} {serving : Bool} {live : LiveTail.State} {s s' : State}
  {synced : String → ℕ → ℕ}

/-- Every stream on a process ends. -/
def State.Steady : State → Prop
  | .down _ => True
  | .up _ _ live => live.Steady

/-- **Every step keeps the streams steady.** -/
theorem State.Steady.step (h : s.Steady) (hholds : Holds s) {e : Event}
    (hexec : exec s e = some s') :
    s'.Steady := by
  -- closing the tail is a step of the calls
  have hclosed : ∀ {live : LiveTail.State} {synced}, live.Steady → LiveTail.Sound live synced →
      LiveTail.State.Steady
        { live with store := { live.store with tail := live.store.tail.close } } :=
    fun {live} _ h hsound => h.step hsound (show LiveTail.exec live .close = some _ from rfl)
  cases step_of_exec hexec with
  | start => exact fun _ hst => by cases hst
  | opened hopen =>
    obtain ⟨synced, hup⟩ := hholds
    obtain ⟨store, v, hgo, -, htail, -⟩ := hup.opened
    cases hopen.symm.trans hgo
    exact fun st hst => htail ▸ h st hst
  | call hadmits hlive =>
    obtain ⟨synced, hup⟩ := hholds
    exact LiveTail.State.Steady.step h hup.sound hlive
  | signal =>
    obtain ⟨synced, hup⟩ := hholds
    exact hclosed h hup.sound
  | drained hidle => exact h
  | expire => exact h
  | close hclose =>
    obtain ⟨synced, hup⟩ := hholds
    obtain ⟨store, v, -, hgo, -, htail, -⟩ := hup.close
    cases hclose.symm.trans hgo
    exact fun st hst => htail ▸ hclosed h hup.sound st hst
  | failed hopen => trivial
  | exit => trivial
  | kill => trivial

/-- In every state that a run comes to the streams are steady. -/
theorem steady_of_reachable (h : system.Reachable s) : Holds s ∧ s.Steady := by
  obtain ⟨s₀, es, hs₀, hrun⟩ := h
  refine hrun.keeps (P := fun s => Holds s ∧ s.Steady)
    (fun s e s' hP hstep => ⟨hP.1.step hstep, hP.2.step hP.1 hstep⟩)
    ⟨holds_of_reachable (.start hs₀), ?_⟩
  obtain ⟨k, before, -, -, rfl⟩ := hs₀
  trivial

/-- Is an event anything but a cancellation? -/
def Event.works : Event → Bool
  | .call act => !act.cancels
  | _ => true

/-- How many steps the calls on a process have left. -/
def State.steps : State → ℕ
  | .down _ => 0
  | .up _ _ live => live.steps

/-- **A process that waits for its calls to end.** -/
def Draining (s : State) : Prop :=
  ∃ serving live synced, s = .up .draining serving live ∧ Up .draining serving live synced
    ∧ live.Steady

/-- **A step of the calls** takes one of those left, unless it is a cancellation. -/
theorem Draining.call (h : Draining s) {act : LiveTail.Act} (hexec : exec s (.call act) = some s') :
    Draining s' ∧ s'.steps + (!act.cancels).toNat ≤ s.steps := by
  obtain ⟨serving, live, synced, rfl, hup, hsteady⟩ := h
  cases step_of_exec hexec with
  | @call _ _ _ live' _ hadmits hlive =>
  obtain ⟨synced', hup'⟩ := hup.call hadmits hlive
  exact ⟨⟨serving, live', synced', rfl, hup', hsteady.step hup.sound hlive⟩,
    LiveTail.State.steps_step hsteady hup.sound (hup.closed (Or.inl rfl)) hadmits hlive⟩

/-- A process that waits for its calls to end can go on: it is idle, or there
is a step of a call to take. -/
theorem Draining.exists_step (h : Draining s) : (exec s .drained).isSome = true
    ∨ ∃ act : LiveTail.Act, act.prompt = true ∧ (exec s (.call act)).isSome = true := by
  obtain ⟨serving, live, synced, rfl, hup, hsteady⟩ := h
  cases hidle : live.idle with
  | true =>
    left
    simp [exec, hidle]
  | false =>
    obtain ⟨act, hadmits, hprompt, hsome⟩ :=
      LiveTail.State.exists_step hsteady (hup.closed (Or.inl rfl)) hidle
    refine Or.inr ⟨act, hprompt, ?_⟩
    obtain ⟨live', hexec⟩ := Option.isSome_iff_exists.mp hsome
    simp [exec, hadmits, hexec]

/-- **Shutting down ends.** After the signal, whatever calls are in flight, their
steps are bounded in number, however they interleave and whichever are cancelled.
And until none is in flight, so that the store can be closed, there is a step to
take that needs neither a cancellation nor that a stream's time is up. -/
theorem drains (h : system.Reachable (.up .draining serving live)) {es : List Event}
    (hrun : (system.given fun _ e => ∃ act, e = .call act).Run (.up .draining serving live) es s') :
    es.countP Event.works ≤ live.steps
      ∧ ((exec s' .drained).isSome = true ∨ ∃ act : LiveTail.Act, act.prompt = true
        ∧ (exec s' (.call act)).isSome = true) := by
  obtain ⟨⟨synced, hup⟩, hsteady⟩ := steady_of_reachable h
  obtain ⟨hdraining, hcount⟩ := hrun.variant (P := Draining) (m := State.steps) (t := Event.works)
    (fun s e s' hs hstep => by
      obtain ⟨hexec, act, rfl⟩ := hstep
      exact hs.call hexec)
    ⟨serving, live, synced, rfl, hup, hsteady⟩
  exact ⟨Nat.le_of_add_left_le hcount, hdraining.exists_step⟩

omit [Crc32] in
/-- A stream that waits when the signal comes is woken. -/
theorem drains_alone : let _ := Crc32.zlib
    ∃ live s', system.Reachable (.up .draining false live)
      ∧ (system.given fun _ e => ∃ act, e = .call act).Run (.up .draining false live)
        [.call (.wake 0)] s'
      ∧ 1 ≤ live.steps
      ∧ ((exec s' .drained).isSome = true ∨ ∃ act : LiveTail.Act, act.prompt = true
        ∧ (exec s' (.call act)).isSome = true) := by
  intro _
  let es : List Event := [alone, .opened, .call (.append "orders" none (some [97]) (some 5) none),
    .call (.take 0), .call (.write 0 7 0), .call (.notify 0),
    .call (.consume ⟨"orders", 0, 0, true, 0⟩), .call (.fetch 0), .call (.resume 0),
      .call (.resume 0), .signal]
  have hprocess : ((es.foldlM exec (.down .empty)).bind State.process).map (fun q => (q.1, q.2.1))
      = some (.draining, false) := by decide +kernel
  have hwake : ((es.foldlM exec (.down .empty)).bind
      fun s => exec s (.call (.wake 0))).isSome = true := by decide +kernel
  obtain ⟨phase, serving, live, hs, hreach, heq⟩ := exists_up hprocess
  cases heq
  rw [hs] at hwake
  obtain ⟨s', hwake⟩ := Option.isSome_iff_exists.mp hwake
  have hrun : (system.given fun _ e => ∃ act, e = .call act).Run (.up .draining false live)
      [.call (.wake 0)] s' := .snoc (.nil _) ⟨hwake, _, rfl⟩
  exact ⟨live, s', hreach, hrun, drains hreach hrun⟩

end Process

end Pyka
