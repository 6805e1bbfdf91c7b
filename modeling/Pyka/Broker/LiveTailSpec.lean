import Pyka.Broker.LiveTail

/-!
# Live tail loses nothing

What holds of the streams of a broker, whatever order the steps come in
(`LiveTail.Inv`). A stream has subscribed before it reads, so an event it
holds is set, or else every record that it has not read is one whose append is
still to notify (`LiveTail.Told`). That lasts until the event is set, as long
as no append is cancelled between its write and its `notify`.

## The order of the argument

A stream is looked at alone first (`Stream.Good`): what it has yielded is a
piece of its partition's records from the offset it asked for, its own offset
is the one that comes next, and in each phase so much of the rest is known
that its next step keeps this. A step of somebody else changes a stream's
records only by adding at the end, takes no event from it, and announces what
it adds (`Good.mono`); with that the stream need not be looked at again. What
a stream does to others is next to nothing: it may register an event
(`Quiet`).

## Why a stream does not stop short

That a stream has yielded the right records so far would hold of one that
returns at once. So it is shown when it may end (`Stream.Attends`): a stream
that follows counts no records down and always has an event to wait for, so
its only way to return is past a tail that is closed. And one that is aborted
was refused a batch, by a read of the store as it was at that moment. This is
an invariant of its own and does not depend on what is cancelled.

## What an append may not do

An append that is cancelled after its write has written a record of which
nobody will be told. `Kept` is the condition that it does not come to that: a
step that cancels an append finds no record of it written, and a thread that
writes for a cancelled append finds nothing that it could write. What could be
written is said by the name, the partition, the ring and the record
(`Store.Takes`), and not by what the append will answer. `live_tail` is about
runs with no cancelling at all; what becomes of the condition and of a run
that breaks it is in `Broker.Cancellation`.
-/

namespace Pyka

open Struct (Bytes)

/-- What a prefix has at a place, the whole has there. -/
theorem getElem?_of_prefix {α : Type*} {xs ys : List α} (h : xs <+: ys) {i : ℕ} {a : α}
    (hi : xs[i]? = some a) : ys[i]? = some a := by
  obtain ⟨zs, rfl⟩ := h
  rw [List.getElem?_append_left (List.getElem?_eq_some_iff.mp hi).1, hi]

section Codec

variable [Crc32]

/-- The offset of a record kept is its place in the list. -/
theorem Keeps.consecutive {v : ℤ → Option File} {records : List Record} {synced : ℕ}
    (h : Keeps v records synced) : Consecutive 0 records := by
  obtain ⟨rss, rs, t, d, hstored, rfl, -⟩ := h
  exact hstored.consecutive

/-- So it is in every partition of a root that stores a catalog. -/
theorem Root.Stores.consecutive {root : Root} {c : Catalog} (h : root.Stores c) (name : String)
    (p : ℕ) : Consecutive 0 (c.records name p) := by
  have hrel := h.part name p
  unfold Catalog.records
  generalize root.part name p = o at hrel
  generalize c.logs name p = rs at hrel ⊢
  cases hrel with
  | none => trivial
  | some hkeeps => exact hkeeps.consecutive

/-- Reading a batch leaves the tail alone. -/
theorem Handler.tail_read (s : Store) (v : Volume) (request : ConsumeRequest) (offset limit : ℤ) :
    (Handler.read s v request offset limit).2.1.tail = s.tail := by
  have htail : (s.read v request.topic offset request.partition limit).2.1.tail = s.tail := rfl
  unfold Handler.read
  cases hread : s.read v request.topic offset request.partition limit with
  | mk res rest =>
    obtain ⟨s', v'⟩ := rest
    rw [hread] at htail
    cases res with
    | ok records => exact htail
    | error e => cases e <;> exact htail

end Codec

namespace LiveTail

/-! ## What a step of a stream is

The steps that concern a stream, each with what it needs and what it leaves.
The results below, and those about brokers and processes, go by these three
and look into `exec` no further. -/

section Steps

variable [Crc32] {s s' : State}

/-- **A thread reads a batch**: what it read is where the stream finds it, and
the store and the data root are those after the read. -/
theorem fetch_cases {i : ℕ} (h : exec s (.fetch i) = some s') :
    ∃ st waiter limit, s.streams[i]? = some st ∧ st.phase = .reading waiter limit
      ∧ ∃ res store v, Handler.read s.store (.of s.root) st.request st.offset limit
        = (res, store, v)
        ∧ s' = { s with streams := s.streams.set i { st with phase := .fetched waiter limit res },
                        store, root := v.root } := by
  simp only [exec, Option.bind_eq_bind, Option.bind_eq_some_iff] at h
  obtain ⟨st, hst, h⟩ := h
  cases hp : st.phase with
  | reading waiter limit =>
    rw [hp] at h
    cases h
    exact ⟨st, waiter, limit, hst, hp, _, _, _, rfl, rfl⟩
  | _ =>
    rw [hp] at h
    cases h

/-- **The event loop goes on with a stream**: the read was refused and the
stream is aborted, or there is a batch to go on with. -/
theorem resume_cases {i : ℕ} (h : exec s (.resume i) = some s') :
    ∃ st, s.streams[i]? = some st
      ∧ ((∃ waiter limit failure, st.phase = .fetched waiter limit (.error failure)
          ∧ s' = s.put i ({ st with phase := .aborted failure }, s.store.tail))
        ∨ ∃ waiter limit fetched rest,
            (st.phase = .fetched waiter limit (.ok fetched) ∧ rest = fetched
            ∨ st.phase = .yielding waiter limit fetched rest)
          ∧ s' = s.put i (st.advance s.store.tail waiter limit fetched rest)) := by
  simp only [exec, Option.bind_eq_bind, Option.bind_eq_some_iff] at h
  obtain ⟨st, hst, h⟩ := h
  refine ⟨st, hst, ?_⟩
  cases hp : st.phase with
  | fetched waiter limit res =>
    rw [hp] at h
    cases res with
    | error failure =>
      cases h
      exact Or.inl ⟨waiter, limit, failure, rfl, rfl⟩
    | ok fetched =>
      cases h
      exact Or.inr ⟨waiter, limit, fetched, fetched, Or.inl ⟨rfl, rfl⟩, rfl⟩
  | yielding waiter limit fetched rest =>
    rw [hp] at h
    cases h
    exact Or.inr ⟨waiter, limit, fetched, rest, Or.inr rfl, rfl⟩
  | _ =>
    rw [hp] at h
    cases h

/-- **A stream no longer waits**, for either of the two reasons there are. -/
theorem awake_cases {i : ℕ} {act : Act} (hact : act = .wake i ∨ act = .timeout i)
    (h : exec s act = some s') :
    ∃ st waiter, s.streams[i]? = some st ∧ st.phase = .parked waiter
      ∧ s' = s.put i (st.awake s.store.tail) := by
  rcases hact with rfl | rfl
  all_goals
    simp only [exec, Option.bind_eq_bind, Option.bind_eq_some_iff] at h
    obtain ⟨st, hst, h⟩ := h
    cases hp : st.phase with
    | parked waiter =>
      rw [hp] at h
      first
        | cases h
          exact ⟨st, waiter, hst, hp, rfl⟩
        | simp only [Option.ite_none_right_eq_some, Option.some.injEq] at h
          exact ⟨st, waiter, hst, hp, h.2.symm⟩
    | _ =>
      rw [hp] at h
      cases h

end Steps

/-! ## What a stream relies on

Two things: that its event is one which will be set, and that a record it has
not read will bring that about. -/

/-- **A notify still to come**: an append has written the record, and its
task is there to go on. -/
def Pending (appends : List Append) (topic : String) (partition : ℤ) (k : ℕ) : Prop :=
  ∃ a ∈ appends, a.name = topic ∧ a.phase = .written partition k ∧ a.cancelled = false

/-- **What is left is announced**: the event is set, or every record from
`next` on is one whose notify is still to come. -/
def Told (tail : Tail) (records : List Record) (pending : ℕ → Prop) (next : ℤ) (waiter : ℕ) :
    Prop :=
  tail.isSet waiter = true ∨ ∀ k : ℕ, next ≤ k → k < records.length → pending k

namespace Stream

/-- The event a stream has subscribed to, for the partition of its request. -/
def Holds (st : Stream) (tail : Tail) (waiter : ℕ) : Prop :=
  tail.Holds st.request.topic st.request.partition waiter

/-- **Amid a batch**: the batch is a piece of the log at the offset, part of
it has been yielded, and if it was a short one then what comes after it is
announced. -/
structure InBatch (st : Stream) (tail : Tail) (records : List Record) (pending : ℕ → Prop)
    (waiter : Option ℕ) (limit : ℤ) (fetched rest : List Record) : Prop where
  partition : 0 ≤ st.request.partition
  start : 0 ≤ st.request.offset
  offset : 0 ≤ st.offset
  piece : fetched <+: records.drop st.offset.toNat
  yielded : ∃ sent, fetched = sent ++ rest
    ∧ st.offset + sent.length = st.request.offset + st.out.length
  holds : ∀ w ∈ waiter, st.Holds tail w
  told : (fetched.length : ℤ) ≠ limit → ∀ w ∈ waiter,
    Told tail records pending (st.offset + fetched.length) w

/-- **A stream in order.** -/
def Good (st : Stream) (tail : Tail) (records : List Record) (pending : ℕ → Prop) : Prop :=
  st.out <+: records.drop st.request.offset.toNat
  ∧ match st.phase with
    | .reading waiter _ => st.offset = st.request.offset + st.out.length
      ∧ (st.out ≠ [] → 0 ≤ st.request.offset) ∧ ∀ w ∈ waiter, st.Holds tail w
    | .fetched waiter limit (.ok fetched) =>
      st.InBatch tail records pending waiter limit fetched fetched
    | .fetched _ _ (.error _) => True
    | .yielding waiter limit fetched rest =>
      st.InBatch tail records pending waiter limit fetched rest
    | .parked waiter => 0 ≤ st.request.partition ∧ 0 ≤ st.request.offset
      ∧ st.offset = st.request.offset + st.out.length ∧ st.Holds tail waiter
      ∧ Told tail records pending st.offset waiter
    | .returned => True
    | .aborted _ => True

variable {st : Stream} {tail tail' : Tail} {records records' : List Record}
  {pending pending' : ℕ → Prop}

/-- **What others do** leaves a stream in order, if it takes no event from it
and announces what is new. -/
theorem Good.mono (h : st.Good tail records pending)
    (hholds : ∀ w, st.Holds tail w → st.Holds tail' w) (hrecords : records <+: records')
    (htold : 0 ≤ st.request.partition → ∀ next w, st.Holds tail w →
      Told tail records pending next w → Told tail' records' pending' next w) :
    st.Good tail' records' pending' := by
  have hdrop : ∀ n, records.drop n <+: records'.drop n := fun n => by
    obtain ⟨more, rfl⟩ := hrecords
    rw [List.drop_append]
    exact List.prefix_append _ _
  have hbatch : ∀ {waiter limit fetched rest},
      st.InBatch tail records pending waiter limit fetched rest →
      st.InBatch tail' records' pending' waiter limit fetched rest := fun hb =>
    ⟨hb.partition, hb.start, hb.offset, hb.piece.trans (hdrop _), hb.yielded,
      fun w hw => hholds w (hb.holds w hw),
      fun hne w hw => htold hb.partition _ w (hb.holds w hw) (hb.told hne w hw)⟩
  obtain ⟨hout, hphase⟩ := h
  refine ⟨hout.trans (hdrop _), ?_⟩
  cases hp : st.phase with
  | reading waiter limit =>
    rw [hp] at hphase
    exact ⟨hphase.1, hphase.2.1, fun w hw => hholds w (hphase.2.2 w hw)⟩
  | fetched waiter limit res =>
    rw [hp] at hphase
    cases res with
    | error failure => trivial
    | ok fetched => exact hbatch hphase
  | yielding waiter limit fetched rest =>
    rw [hp] at hphase
    exact hbatch hphase
  | parked waiter =>
    rw [hp] at hphase
    obtain ⟨hpart, hnn, hoff, hh, ht⟩ := hphase
    exact ⟨hpart, hnn, hoff, hholds _ hh, htold hpart _ _ hh ht⟩
  | returned => trivial
  | aborted failure => trivial

/-! ## What a stream does

One lemma for each piece of the loop, from the phase before it to the phase
after. The records do not change meanwhile, nor does what is pending. -/

/-- **From the top of the loop**: the stream has subscribed before it reads,
so it holds an event before it looks at the log. -/
theorem again_good (hout : st.out <+: records.drop st.request.offset.toNat)
    (hoff : st.offset = st.request.offset + st.out.length)
    (hnn : st.out ≠ [] → 0 ≤ st.request.offset) :
    (st.again tail).1.Good (st.again tail).2 records pending := by
  unfold again
  cases hf : st.request.follow with
  | true =>
    refine ⟨hout, hoff, hnn, fun w hw => ?_⟩
    cases hw
    exact tail.holds_subscribe st.request.topic st.request.partition
  | false => exact ⟨hout, hoff, hnn, fun w hw => by cases hw⟩

/-- The next record of a batch is the next record of the log. -/
theorem InBatch.next {waiter : Option ℕ} {limit : ℤ} {fetched rest : List Record} {r : Record}
    (hb : st.InBatch tail records pending waiter limit fetched (r :: rest)) :
    (records.drop st.request.offset.toNat)[st.out.length]? = some r := by
  obtain ⟨sent, hsent, hlen⟩ := hb.yielded
  have hr : fetched[sent.length]? = some r := by
    rw [hsent, List.getElem?_append_right le_rfl, Nat.sub_self]
    rfl
  have hr' := getElem?_of_prefix hb.piece hr
  rw [List.getElem?_drop] at hr' ⊢
  have hsum : st.request.offset.toNat + st.out.length = st.offset.toNat + sent.length := by
    have := hb.start
    have := hb.offset
    omega
  rwa [hsum]

/-- After a whole batch the next offset is the one that comes next. -/
theorem offset_next {fetched : List Record} {offset : ℤ} (hcons : Consecutive 0 records)
    (hoffset : 0 ≤ offset) (hpiece : fetched <+: records.drop offset.toNat) :
    (fetched.getLast?.map fun r => r.offset + 1).getD offset = offset + fetched.length := by
  cases hlast : fetched.getLast? with
  | none =>
    rw [List.getLast?_eq_none_iff] at hlast
    rw [hlast]
    simp
  | some r =>
    have hne : fetched ≠ [] := fun h => by rw [h] at hlast; cases hlast
    have hpos := List.length_pos_iff.mpr hne
    rw [List.getLast?_eq_getElem?] at hlast
    have hr := getElem?_of_prefix hpiece hlast
    rw [List.getElem?_drop] at hr
    have hoff := hcons.offset_getElem hr
    simp only [Option.map_some, Option.getD_some]
    omega

/-- A stream amid a batch, either at its beginning or within. -/
theorem Good.inBatch {waiter : Option ℕ} {limit : ℤ} {fetched rest : List Record}
    (h : st.Good tail records pending)
    (hp : st.phase = .fetched waiter limit (.ok fetched) ∧ rest = fetched
      ∨ st.phase = .yielding waiter limit fetched rest) :
    st.InBatch tail records pending waiter limit fetched rest := by
  have hphase := h.2
  rcases hp with ⟨hp, rfl⟩ | hp
  · rw [hp] at hphase
    exact hphase
  · rw [hp] at hphase
    exact hphase

/-- **After a batch**: a full one is followed by the next, and after a short
one the stream waits for an event that what comes next will set. -/
theorem InBatch.afterBatch {waiter : Option ℕ} {limit : ℤ} {fetched : List Record}
    (hb : st.InBatch tail records pending waiter limit fetched [])
    (hout : st.out <+: records.drop st.request.offset.toNat) (hcons : Consecutive 0 records) :
    (st.afterBatch tail waiter limit fetched).1.Good (st.afterBatch tail waiter limit fetched).2
      records pending := by
  have hnext : st.offset + fetched.length = st.request.offset + st.out.length := by
    obtain ⟨sent, hsent, hlen⟩ := hb.yielded
    rw [List.append_nil] at hsent
    rwa [hsent]
  have hoff := (offset_next hcons hb.offset hb.piece).trans hnext
  unfold Stream.afterBatch
  simp only [hoff]
  by_cases hdone : (st.remaining.map (· - (fetched.length : ℤ))).any (· ≤ 0) = true
  · rw [if_pos hdone]
    exact ⟨hout, trivial⟩
  · rw [if_neg hdone]
    by_cases hfull : (fetched.length : ℤ) = limit
    · rw [if_pos hfull]
      exact again_good hout rfl fun _ => hb.start
    · rw [if_neg hfull]
      cases waiter with
      | none => exact ⟨hout, trivial⟩
      | some w =>
        cases hclosed : tail.closed with
        | true => exact ⟨hout, trivial⟩
        | false =>
          refine ⟨hout, hb.partition, hb.start, rfl, hb.holds w rfl, ?_⟩
          have htold := hb.told hfull w rfl
          rwa [hnext] at htold

/-- **A record is yielded**, or the batch ends. -/
theorem InBatch.advance {waiter : Option ℕ} {limit : ℤ} {fetched rest : List Record}
    (hb : st.InBatch tail records pending waiter limit fetched rest)
    (hout : st.out <+: records.drop st.request.offset.toNat) (hcons : Consecutive 0 records) :
    (st.advance tail waiter limit fetched rest).1.Good
      (st.advance tail waiter limit fetched rest).2 records pending := by
  cases rest with
  | nil => exact hb.afterBatch hout hcons
  | cons r rest =>
    refine ⟨?_, hb.partition, hb.start, hb.offset, hb.piece, ?_, hb.holds, hb.told⟩
    · show st.out ++ [r] <+: records.drop st.request.offset.toNat
      obtain ⟨hlt, hr⟩ := List.getElem?_eq_some_iff.mp hb.next
      rw [← hr]
      exact List.concat_get_prefix hout hlt
    · obtain ⟨sent, hsent, hlen⟩ := hb.yielded
      refine ⟨sent ++ [r], by rw [hsent, List.append_assoc]; rfl, ?_⟩
      show st.offset + ((sent ++ [r]).length : ℤ) = st.request.offset + ((st.out ++ [r]).length : ℤ)
      rw [List.length_append, List.length_append]
      push_cast
      omega

/-- **A batch as it is read**: a short one ends where the log does. -/
theorem inBatch_of_read {waiter : Option ℕ} {limit : ℤ} {fetched : List Record} (phase : Phase)
    (hoff : st.offset = st.request.offset + st.out.length)
    (hnn : st.out ≠ [] → 0 ≤ st.request.offset) (hholds : ∀ w ∈ waiter, st.Holds tail w)
    (hpartition : 0 ≤ st.request.partition) (hpos : 0 ≤ st.offset)
    (hfetched : fetched = if 0 < limit ∧ limit ≤ (records.drop st.offset.toNat).length
      then (records.drop st.offset.toNat).take limit.toNat else records.drop st.offset.toNat) :
    InBatch { st with phase } tail records pending waiter limit fetched fetched where
  partition := hpartition
  start := by
    cases hout : st.out with
    | nil =>
      rw [hout] at hoff
      rw [hoff] at hpos
      simpa using hpos
    | cons r rest => exact hnn (by rw [hout]; exact List.cons_ne_nil _ _)
  offset := hpos
  piece := by
    rw [hfetched]
    split_ifs
    · exact List.take_prefix _ _
    · exact List.prefix_refl _
  yielded := ⟨[], rfl, by simpa using hoff⟩
  holds := hholds
  told hshort w _ := by
    refine Or.inr fun k hk hlt => ?_
    exfalso
    split_ifs at hfetched with hfull
    · rw [hfetched, List.length_take] at hshort
      omega
    · have hlen := congrArg List.length hfetched
      rw [List.length_drop] at hlen
      have hk : st.offset + fetched.length ≤ k := hk
      omega

/-- **After the wait**, the stream subscribes anew, and reads. -/
theorem awake_good {waiter : ℕ} (hgood : st.Good tail records pending)
    (hp : st.phase = .parked waiter) :
    (st.awake tail).1.Good (st.awake tail).2 records pending := by
  obtain ⟨hout, hphase⟩ := hgood
  rw [hp] at hphase
  obtain ⟨-, hnn, hoff, -⟩ := hphase
  unfold awake
  split_ifs with hclosed
  · exact ⟨hout, trivial⟩
  · exact again_good hout hoff fun _ => hnn

end Stream

/-! ## What a stream does to others

A step of one stream must not disturb another. All that it does to what they
share is to register an event. -/

/-- **A tail that others do not see the difference of.** -/
structure Quiet (tail tail' : Tail) : Prop where
  ok : tail.Ok → tail'.Ok
  holds : ∀ {topic partition w}, tail.Holds topic partition w → tail'.Holds topic partition w
  isSet : ∀ w, tail'.isSet w = tail.isSet w
  closed : tail'.closed = tail.closed

/-- A tail that is left alone. -/
theorem Quiet.refl (tail : Tail) : Quiet tail tail := ⟨id, id, fun _ => rfl, rfl⟩

/-- Subscribing, whether or not the event is new. -/
theorem quiet_subscribe (tail : Tail) (topic : String) (partition : ℤ) :
    Quiet tail (tail.subscribe topic partition).2 :=
  ⟨fun h => h.subscribe topic partition, fun h => h.subscribe topic partition,
    tail.isSet_subscribe topic partition, tail.closed_subscribe topic partition⟩

namespace Stream

/-- **A stream goes on**: it keeps its request, others do not notice, and it
does not park once the tail is closed. -/
structure GoesOn (st : Stream) (tail : Tail) (out : Stream × Tail) : Prop where
  request : out.1.request = st.request
  quiet : Quiet tail out.2
  parks : ∀ w, out.1.phase = .parked w → tail.closed = false

variable {st : Stream} {tail : Tail}

/-- At the head of the loop a stream subscribes at most. -/
theorem goesOn_again (st : Stream) (tail : Tail) : st.GoesOn tail (st.again tail) := by
  unfold again
  split_ifs with hf
  · exact ⟨rfl, quiet_subscribe tail _ _, fun w h => by cases h⟩
  · exact ⟨rfl, .refl tail, fun w h => by cases h⟩

/-- After a batch it reads on, waits or returns; it waits only for a tail that
is open. -/
theorem goesOn_afterBatch (st : Stream) (tail : Tail) (waiter : Option ℕ) (limit : ℤ)
    (fetched : List Record) : st.GoesOn tail (st.afterBatch tail waiter limit fetched) := by
  unfold Stream.afterBatch
  simp only
  split_ifs with hdone hfull
  · exact ⟨rfl, .refl tail, fun w h => by cases h⟩
  · exact ⟨(goesOn_again _ tail).request, (goesOn_again _ tail).quiet, (goesOn_again _ tail).parks⟩
  · cases waiter with
    | none => exact ⟨rfl, .refl tail, fun w h => by cases h⟩
    | some w => exact ⟨rfl, .refl tail, fun w h => by cases h⟩
  · cases waiter with
    | none => exact ⟨rfl, .refl tail, fun w h => by cases h⟩
    | some w => exact ⟨rfl, .refl tail, fun _ _ => by simpa using ‹¬tail.closed = true›⟩

/-- Yielding a record touches nothing that is shared. -/
theorem goesOn_advance (st : Stream) (tail : Tail) (waiter : Option ℕ) (limit : ℤ)
    (fetched rest : List Record) : st.GoesOn tail (st.advance tail waiter limit fetched rest) := by
  cases rest with
  | nil => exact st.goesOn_afterBatch tail waiter limit fetched
  | cons r rest => exact ⟨rfl, .refl tail, fun w h => by cases h⟩

/-- After the wait it returns, or is at the head of the loop. -/
theorem goesOn_awake (st : Stream) (tail : Tail) : st.GoesOn tail (st.awake tail) := by
  unfold awake
  split_ifs with hclosed
  · exact ⟨rfl, .refl tail, fun w h => by cases h⟩
  · exact st.goesOn_again tail

/-- **A stream that follows has no end of its own.** It counts no records
down, it holds an event whenever it has come to read, and it has returned only
if the tail is closed. The size of the batch it asks for is the one its loop
works out. -/
def Attends (st : Stream) (tail : Tail) : Prop :=
  (st.request.follow = true → st.remaining = none)
  ∧ match st.phase with
    | .reading waiter limit => limit = st.limit ∧ (st.request.follow = true → waiter.isSome = true)
    | .fetched waiter limit _ => limit = st.limit
      ∧ (st.request.follow = true → waiter.isSome = true)
    | .yielding waiter limit _ _ =>
      limit = st.limit ∧ (st.request.follow = true → waiter.isSome = true)
    | .returned => st.request.follow = true → tail.closed = true
    | .parked _ => True
    | .aborted _ => True

/-- A tail that is closed later does not end a stream that goes on. -/
theorem Attends.mono {tail' : Tail} (h : st.Attends tail)
    (hclosed : tail.closed = true → tail'.closed = true) : st.Attends tail' := by
  obtain ⟨hcount, hphase⟩ := h
  refine ⟨hcount, ?_⟩
  cases hp : st.phase with
  | returned =>
    rw [hp] at hphase
    exact fun hf => hclosed (hphase hf)
  | reading waiter limit =>
    rw [hp] at hphase
    exact hphase
  | fetched waiter limit res =>
    rw [hp] at hphase
    exact hphase
  | yielding waiter limit fetched rest =>
    rw [hp] at hphase
    exact hphase
  | parked waiter => trivial
  | aborted failure => trivial

end Stream

/-! ## Where a stream comes from

A stream of the next state is one of this state's, or one that has just come.
The cases say what it has done, for invariants of single streams. -/

section From

variable [Crc32] {s s' : State}

/-- **Where a stream of the next state comes from**: it has done nothing, it
has taken a step of its own, or it has just come. -/
inductive Stream.From (s : State) : Stream → Prop
  | same {st : Stream} (h : st ∈ s.streams) : From s st
  | start (request : ConsumeRequest) : From s (Stream.start request s.store.tail).1
  | fetched {st : Stream} (h : st ∈ s.streams) {waiter : Option ℕ} {limit : ℤ}
      (hp : st.phase = .reading waiter limit) {res : Except Failure (List Record)}
      (hread : (Handler.read s.store (.of s.root) st.request st.offset limit).1 = res) :
      From s { st with phase := .fetched waiter limit res }
  | aborted {st : Stream} (h : st ∈ s.streams) {waiter : Option ℕ} {limit : ℤ} {failure : Failure}
      (hp : st.phase = .fetched waiter limit (.error failure)) :
      From s { st with phase := .aborted failure }
  | advanced {st : Stream} (h : st ∈ s.streams) {waiter : Option ℕ} {limit : ℤ}
      {fetched rest : List Record}
      (hp : st.phase = .fetched waiter limit (.ok fetched) ∧ rest = fetched
        ∨ st.phase = .yielding waiter limit fetched rest) :
      From s (st.advance s.store.tail waiter limit fetched rest).1
  | awake {st : Stream} (h : st ∈ s.streams) {waiter : ℕ} (hp : st.phase = .parked waiter) :
      From s (st.awake s.store.tail).1

/-- What a read has failed with, if the stream ends by it. -/
def Stream.failure (st : Stream) : Option Failure :=
  match st.phase with
  | .fetched _ _ (.error failure) => some failure
  | .aborted failure => some failure
  | _ => none

omit [Crc32] in
/-- Going on reading, a stream has not failed. -/
theorem failure_again (st : Stream) (tail : Tail) : (st.again tail).1.failure = none := by
  unfold Stream.again
  split_ifs <;> rfl

omit [Crc32] in
/-- Nor has it while it yields. -/
theorem failure_advance (st : Stream) (tail : Tail) (waiter : Option ℕ) (limit : ℤ)
    (fetched rest : List Record) :
    (st.advance tail waiter limit fetched rest).1.failure = none := by
  cases rest with
  | cons r rest => rfl
  | nil =>
    show (st.afterBatch tail waiter limit fetched).1.failure = none
    unfold Stream.afterBatch
    simp only
    split_ifs
    · rfl
    · exact failure_again _ tail
    · cases waiter <;> rfl
    · cases waiter <;> rfl

/-- **A failure comes from a read**: from the one of this step, or from one
before. -/
theorem Stream.From.failure {st : Stream} {failure : Failure} (h : Stream.From s st)
    (hall : ∀ st ∈ s.streams, st.Attends s.store.tail) (hfailure : st.failure = some failure) :
    (∃ st' ∈ s.streams, st'.failure = some failure ∧ st.request = st'.request
        ∧ st.offset = st'.offset ∧ st.limit = st'.limit)
      ∨ (Handler.read s.store (.of s.root) st.request st.offset st.limit).1 = .error failure := by
  cases h with
  | same hst => exact Or.inl ⟨st, hst, hfailure, rfl, rfl, rfl⟩
  | start request =>
    unfold Stream.start at hfailure
    rw [failure_again] at hfailure
    cases hfailure
  | @fetched st hst waiter limit hp res hread =>
    have hlimit := (hall st hst).2
    rw [hp] at hlimit
    cases res with
    | ok records => cases hfailure
    | error failure' =>
      cases hfailure
      refine Or.inr ?_
      rw [hlimit.1] at hread
      exact hread
  | @aborted st hst waiter limit failure' hp =>
    cases hfailure
    exact Or.inl ⟨st, hst, by unfold Stream.failure; rw [hp], rfl, rfl, rfl⟩
  | advanced hst hp =>
    rw [failure_advance] at hfailure
    cases hfailure
  | @awake st hst waiter hp =>
    unfold Stream.awake at hfailure
    split_ifs at hfailure
    · cases hfailure
    · rw [failure_again] at hfailure
      cases hfailure

end From

/-! ## The invariant

The streams in order, and for the records that came since the start: each has
its notification, or its append is about to send it. -/

variable [Crc32]

/-- The records of a stream's partition, as the catalog has them. -/
def Stream.log (st : Stream) (c : Catalog) : List Record :=
  c.records st.request.topic st.request.partition.toNat

/-- The notifies still to come for a stream's partition, by the offset of the
record. -/
def Stream.pending (st : Stream) (appends : List Append) : ℕ → Prop :=
  Pending appends st.request.topic st.request.partition

/-- **What holds between any two steps.** `c₀` is what the log was at the
start. -/
structure Inv (c₀ : Catalog) (s : State) (c : Catalog) : Prop where
  rep : s.store.Rep (.of s.root) c
  ok : s.store.tail.Ok
  streams : ∀ st ∈ s.streams, st.Good s.store.tail (st.log c) (st.pending s.appends)
  closed : s.store.tail.closed = true → ∀ st ∈ s.streams, ∀ w, st.phase = .parked w →
    s.store.tail.isSet w = true
  /-- Every record since the start has been announced or is about to be. -/
  appended : ∀ name (p k : ℕ), (c₀.records name p).length ≤ k → k < (c.records name p).length →
    Pending s.appends name p k
      ∨ ∃ a ∈ s.appends, a.name = name ∧ a.phase = .notified p k

variable {c₀ c c' : Catalog} {s s' : State}

/-- **A stream has gone on.** -/
theorem Inv.put (h : Inv c₀ s c) {i : ℕ} (st : Stream) {out : Stream × Tail}
    (hgoes : st.GoesOn s.store.tail out)
    (hgood : out.1.Good out.2 (st.log c) (st.pending s.appends)) : Inv c₀ (s.put i out) c where
  rep := ⟨h.rep.topic, h.rep.owns⟩
  ok := hgoes.quiet.ok h.ok
  streams st' hst' := by
    rcases List.mem_or_eq_of_mem_set hst' with hold | rfl
    · refine (h.streams st' hold).mono (fun w hw => hgoes.quiet.holds hw) (List.prefix_refl _)
        fun _ next w _ htold => ?_
      exact htold.imp_left fun hset => (hgoes.quiet.isSet w).trans hset
    · unfold Stream.log Stream.pending
      rw [hgoes.request]
      exact hgood
  closed hclosed st' hst' w hw := by
    have hclosed : s.store.tail.closed = true := hgoes.quiet.closed.symm.trans hclosed
    show out.2.isSet w = true
    rw [hgoes.quiet.isSet]
    rcases List.mem_or_eq_of_mem_set hst' with hold | rfl
    · exact h.closed hclosed st' hold w hw
    · rw [hgoes.parks w hw] at hclosed
      cases hclosed
  appended := h.appended

/-- A stream comes: it has yielded nothing, and has subscribed if it follows. -/
theorem Inv.consume (h : Inv c₀ s c) (request : ConsumeRequest)
    (hs' : exec s (.consume request) = some s') : Inv c₀ s' c := by
  simp only [exec, Option.some.injEq] at hs'
  subst hs'
  have hgoes : Stream.GoesOn ⟨request, request.offset, _, [], .returned⟩ s.store.tail
    (Stream.start request s.store.tail) := Stream.goesOn_again _ _
  have hgood : (Stream.start request s.store.tail).1.Good (Stream.start request s.store.tail).2
      ((Stream.start request s.store.tail).1.log c)
      ((Stream.start request s.store.tail).1.pending s.appends) :=
    Stream.again_good (List.nil_prefix) (by simp) fun hne => absurd rfl hne
  refine ⟨⟨h.rep.topic, h.rep.owns⟩, hgoes.quiet.ok h.ok, fun st hst => ?_,
    fun hclosed st hst w hw => ?_, h.appended⟩
  · rcases List.mem_append.mp hst with hold | hnew
    · exact (h.streams st hold).mono (fun w hw => hgoes.quiet.holds hw) (List.prefix_refl _)
        fun _ next w _ htold => htold.imp_left fun hset => (hgoes.quiet.isSet w).trans hset
    · cases List.mem_singleton.mp hnew
      exact hgood
  · have hclosed : s.store.tail.closed = true := hgoes.quiet.closed.symm.trans hclosed
    show (Stream.start request s.store.tail).2.isSet w = true
    rw [hgoes.quiet.isSet]
    rcases List.mem_append.mp hst with hold | hnew
    · exact h.closed hclosed st hold w hw
    · cases List.mem_singleton.mp hnew
      rw [hgoes.parks w hw] at hclosed
      cases hclosed

/-- The event loop goes on with a stream, by a record or beyond its batch. -/
theorem Inv.resume (h : Inv c₀ s c) (i : ℕ) (hs' : exec s (.resume i) = some s') : Inv c₀ s' c := by
  obtain ⟨st, hst, ⟨waiter, limit, failure, -, rfl⟩ | ⟨waiter, limit, fetched, rest, hp, rfl⟩⟩ :=
    resume_cases hs'
  · have hout := (h.streams st (List.mem_of_getElem? hst)).1
    exact h.put st ⟨rfl, .refl _, fun w hw => by cases hw⟩ ⟨hout, trivial⟩
  · have hgood := h.streams st (List.mem_of_getElem? hst)
    have hcons : Consecutive 0 (st.log c) := h.rep.topic.stores.consecutive _ _
    exact h.put st (st.goesOn_advance _ _ _ _ _) ((hgood.inBatch hp).advance hgood.1 hcons)

/-- The event a stream waits for is set, or time is up: either way it may go
on. -/
theorem Inv.awake (h : Inv c₀ s c) {i : ℕ} {act : Act} (hact : act = .wake i ∨ act = .timeout i)
    (hs' : exec s act = some s') : Inv c₀ s' c := by
  obtain ⟨st, waiter, hst, hp, rfl⟩ := awake_cases hact hs'
  have hgood := h.streams st (List.mem_of_getElem? hst)
  exact h.put st (st.goesOn_awake _) (Stream.awake_good hgood hp)

/-- A thread reads a batch. The topic may be opened by that, which adds no
record, so the other streams stand as they did. -/
theorem Inv.fetch (h : Inv c₀ s c) (i : ℕ) (hs' : exec s (.fetch i) = some s') :
    ∃ c', Inv c₀ s' c' := by
  obtain ⟨st, waiter, limit, hst, hp, res, store, v, hr, rfl⟩ := fetch_cases hs'
  obtain ⟨hout, hphase⟩ := h.streams st (List.mem_of_getElem? hst)
  rw [hp] at hphase
  obtain ⟨answer, c', hf, hset, -, hread⟩ :=
    Handler.read_spec h.rep st.request st.offset limit
  have htail := Handler.tail_read s.store (.of s.root) st.request st.offset limit
  have hanswer := hf.answer
  have hrep := hf.rep
  rw [hr] at htail hanswer hrep
  simp only at htail hanswer hrep
  subst hanswer
  have hlog : ∀ st : Stream, st.log c' = st.log c := fun st => hset.records _ _
  refine ⟨c', ⟨hrep.topic.of, hrep.owns⟩, htail ▸ h.ok, fun st' hst' => ?_, ?_, ?_⟩
  · show st'.Good store.tail _ _
    rw [htail, hlog]
    rcases List.mem_or_eq_of_mem_set hst' with hold | rfl
    · exact h.streams st' hold
    · refine ⟨hout, ?_⟩
      cases res with
      | error failure => trivial
      | ok records =>
        obtain ⟨hpos, p, hp', -, -, hrecords⟩ := hread records rfl
        have hlog' : st.log c = c.records st.request.topic p := by
          unfold Stream.log
          rw [hp', Int.toNat_natCast]
        refine Stream.inBatch_of_read _ hphase.1 hphase.2.1 hphase.2.2 (by omega) hpos ?_
        show records = if 0 < limit ∧ limit ≤ ((st.log c).drop st.offset.toNat).length
          then ((st.log c).drop st.offset.toNat).take limit.toNat
          else (st.log c).drop st.offset.toNat
        rw [hlog']
        exact hrecords
  · intro hclosed st' hst' w hw
    show store.tail.isSet w = true
    have hclosed : store.tail.closed = true := hclosed
    rw [htail] at hclosed ⊢
    rcases List.mem_or_eq_of_mem_set hst' with hold | rfl
    · exact h.closed hclosed st' hold w hw
    · cases hw
  · intro name p k hk hk'
    rw [hset.records] at hk'
    exact h.appended name p k hk hk'

/-! ### Appends

The steps of an append. Only its write adds a record, and only its notify sets
an event. -/

omit [Crc32] in
/-- A notify to come is still to come if another append goes on. -/
theorem Pending.set {appends : List Append} {j : ℕ} {a a' : Append} (ha : appends[j]? = some a)
    {topic : String} {partition : ℤ} {k : ℕ}
    (hne : ¬(a.name = topic ∧ a.phase = .written partition k ∧ a.cancelled = false))
    (h : Pending appends topic partition k) : Pending (appends.set j a') topic partition k := by
  obtain ⟨b, hb, hpend⟩ := h
  obtain ⟨i, hi⟩ := List.mem_iff_getElem?.mp hb
  have hij : j ≠ i := by
    rintro rfl
    rw [ha] at hi
    cases hi
    exact hne hpend
  refine ⟨b, List.mem_iff_getElem?.mpr ⟨i, ?_⟩, hpend⟩
  rw [List.getElem?_set_ne hij]
  exact hi

omit [Crc32] in
/-- What has been notified stays so if an append goes on that has not. -/
theorem notified_set {appends : List Append} {j : ℕ} {a a' : Append} (ha : appends[j]? = some a)
    {name : String} {p k : ℕ} (hne : a.phase ≠ .notified p k)
    (h : ∃ b ∈ appends, b.name = name ∧ b.phase = .notified p k) :
    ∃ b ∈ appends.set j a', b.name = name ∧ b.phase = .notified p k := by
  obtain ⟨b, hb, hname, hphase⟩ := h
  obtain ⟨i, hi⟩ := List.mem_iff_getElem?.mp hb
  have hij : j ≠ i := by
    rintro rfl
    rw [ha] at hi
    cases hi
    exact hne hphase
  refine ⟨b, List.mem_iff_getElem?.mpr ⟨i, ?_⟩, hname, hphase⟩
  rw [List.getElem?_set_ne hij]
  exact hi

/-- **An append goes on** that neither awaits its notify nor has had it. -/
theorem Inv.putAppend (h : Inv c₀ s c) {j : ℕ} {a a' : Append} (ha : s.appends[j]? = some a)
    (hw : ∀ p k, a.phase ≠ .written p k) (hn : ∀ p k, a.phase ≠ .notified p k) :
    Inv c₀ (s.putAppend j a') c where
  rep := h.rep
  ok := h.ok
  streams st hst := (h.streams st hst).mono (fun _ => id) (List.prefix_refl _)
    fun _ _ _ _ htold => htold.imp_right fun hall k hk hlt =>
      (hall k hk hlt).set ha fun hp => hw _ _ hp.2.1
  closed := h.closed
  appended name p k hk hk' := (h.appended name p k hk hk').imp
    (Pending.set ha fun hp => hw _ _ hp.2.1) (notified_set ha (hn _ _))

/-- An append is called; nothing has been written for it. -/
theorem Inv.append (h : Inv c₀ s c) (a : Append) :
    Inv c₀ { s with appends := s.appends ++ [a] } c where
  rep := h.rep
  ok := h.ok
  streams st hst := (h.streams st hst).mono (fun _ => id) (List.prefix_refl _)
    fun _ _ _ _ htold => htold.imp_right fun hall k hk hlt => by
      obtain ⟨b, hb, hpend⟩ := hall k hk hlt
      exact ⟨b, List.mem_append_left _ hb, hpend⟩
  closed := h.closed
  appended name p k hk hk' := (h.appended name p k hk hk').imp
    (fun ⟨b, hb, hpend⟩ => ⟨b, List.mem_append_left _ hb, hpend⟩)
    fun ⟨b, hb, hpend⟩ => ⟨b, List.mem_append_left _ hb, hpend⟩

/-- **The followers are notified**: what was pending is announced, since every
event that is registered for the partition is now set. -/
theorem Inv.notify (h : Inv c₀ s c) (j : ℕ) (hs' : exec s (.notify j) = some s') : Inv c₀ s' c := by
  simp only [exec, Option.bind_eq_bind, Option.bind_eq_some_iff] at hs'
  obtain ⟨a, ha, hs'⟩ := hs'
  cases hp : a.phase with
  | written partition offset =>
    cases hc : a.cancelled with
    | true =>
      rw [hp, hc] at hs'
      cases hs'
    | false =>
      rw [hp, hc] at hs'
      cases hs'
      refine ⟨⟨h.rep.topic, h.rep.owns⟩, h.ok.notify _ _, fun st hst => ?_,
        fun hclosed st hst w hw => ?_,
        fun name p k hk hk' => ?_⟩
      · refine (h.streams st hst).mono (fun w hw => hw.notify h.ok _ _) (List.prefix_refl _)
          fun _ next w hholds htold => ?_
        by_cases hkey : a.name = st.request.topic ∧ partition = st.request.partition
        · obtain ⟨hname, hpart⟩ := hkey
          rw [hname, hpart]
          exact Or.inl (hholds.isSet_notify h.ok)
        · refine htold.imp (fun hset => Tail.isSet_notify_of_isSet hset _ _) fun hall k hk hlt => ?_
          refine (hall k hk hlt).set ha fun hpend => hkey ⟨hpend.1, ?_⟩
          rw [hp] at hpend
          injection hpend.2.1
      · have hclosed : s.store.tail.closed = true := (Tail.closed_notify _ _ _).symm.trans hclosed
        exact Tail.isSet_notify_of_isSet (h.closed hclosed st hst w hw) _ _
      · by_cases hkey : a.name = name ∧ partition = p ∧ offset = k
        · obtain ⟨rfl, rfl, rfl⟩ := hkey
          exact Or.inr ⟨_, List.mem_iff_getElem?.mpr ⟨j, List.getElem?_set_self
            (List.getElem?_eq_some_iff.mp ha).1⟩, rfl, rfl⟩
        · refine (h.appended name p k hk hk').imp (Pending.set ha fun hpend => hkey ⟨hpend.1, ?_⟩)
            (notified_set ha (by rw [hp]; exact fun h => by cases h))
          rw [hp] at hpend
          injection hpend.2.1 with hpart hoff
          exact ⟨hpart, hoff⟩
  | _ =>
    rw [hp] at hs'
    cases hs'

/-- **A thread appends.** An append that is no longer awaited must not add a
record. -/
theorem Inv.write (h : Inv c₀ s c) (j : ℕ) (clock : ℤ) (elapsed : ℚ)
    (hkept : ∀ a, s.appends[j]? = some a → a.cancelled = true → ∃ e,
      (s.store.topic.append (.of s.root) a.name a.key a.value a.timestamp a.partition clock
        elapsed).1 = .error e)
    (hs' : exec s (.write j clock elapsed) = some s') : ∃ c', Inv c₀ s' c' := by
  simp only [exec, Option.bind_eq_bind, Option.bind_eq_some_iff] at hs'
  obtain ⟨a, ha, hs'⟩ := hs'
  have hkept := hkept a ha
  cases hp : a.phase with
  | running =>
    rw [hp] at hs'
    have hf := Topic.append_follows h.rep.topic a.name a.key a.value a.timestamp a.partition clock
      elapsed
    cases hc : c.append s.store.topic.holder a.name a.key a.value a.timestamp a.partition clock with
    | mk answer c' =>
    rw [hc] at hf
    have hrep := (h.rep.lift hf s.store.tail).rep
    have hanswer := hf.answer
    cases happ : s.store.topic.append
        (.of s.root) a.name a.key a.value a.timestamp a.partition clock
        elapsed with
    | mk res rest =>
    obtain ⟨topic, v⟩ := rest
    rw [happ] at hrep hanswer hkept
    simp only [happ, Option.some.injEq] at hs'
    simp only at hrep hanswer hkept
    subst hs' hanswer
    have hwritten : ∀ p k, a.phase ≠ .written p k := fun p k h' => by rw [hp] at h'; cases h'
    have hnotified : ∀ p k, a.phase ≠ .notified p k := fun p k h' => by rw [hp] at h'; cases h'
    -- what is new in the log is what this append is to announce
    obtain ⟨hgrown, hnew⟩ : (∀ name p, c.records name p <+: c'.records name p)
        ∧ ∀ name (p k : ℕ), (c.records name p).length ≤ k → k < (c'.records name p).length →
          Pending (s.appends.set j { a with phase := .after res }) name p k := by
      rcases Catalog.append_outcome hc with ⟨e, rfl, hset⟩ | ⟨p, r, rfl, -, -, -, -, hadds⟩
      · refine ⟨fun name p => by rw [hset.records], fun name p k hk hk' => ?_⟩
        rw [hset.records] at hk'
        omega
      · refine ⟨fun name q => ?_, fun name q k hk hk' => ?_⟩
        · rw [hadds.records]
          split_ifs with hq
          · rw [hq.1, hq.2]
            exact List.prefix_append _ _
          · exact List.prefix_refl _
        · rw [hadds.records] at hk'
          split_ifs at hk' with hq
          · obtain ⟨rfl, rfl⟩ := hq
            rw [List.length_append, List.length_singleton] at hk'
            have hoff : r.offset = k := by
              rw [hadds.offset]
              omega
            refine ⟨_, List.mem_iff_getElem?.mpr ⟨j, List.getElem?_set_self
              (List.getElem?_eq_some_iff.mp ha).1⟩, rfl, hoff ▸ rfl, ?_⟩
            cases hcancelled : a.cancelled with
            | false => rfl
            | true =>
              obtain ⟨e, he⟩ := hkept hcancelled
              cases he
          · omega
    refine ⟨c', ⟨hrep.topic.of, hrep.owns⟩, h.ok, fun st hst => ?_, h.closed,
      fun name p k hk hk' => ?_⟩
    · refine (h.streams st hst).mono (fun _ => id) (hgrown _ _) fun hpart _ _ _ htold =>
        htold.imp_right fun hall k hk hlt => ?_
      by_cases hold : k < (st.log c).length
      · exact (hall k hk hold).set ha fun hpend => hwritten _ _ hpend.2.1
      · have hpend := hnew _ _ k (not_lt.mp hold) hlt
        rwa [Int.toNat_of_nonneg hpart] at hpend
    · by_cases hold : k < (c.records name p).length
      · exact (h.appended name p k hk hold).imp (Pending.set ha fun hpend => hwritten _ _ hpend.2.1)
          (notified_set ha (hnotified _ _))
      · exact Or.inl (hnew name p k (not_lt.mp hold) hk')
  | _ =>
    rw [hp] at hs'
    cases hs'

/-- **The tail is closed**: every event that somebody holds is set. -/
theorem Inv.close (h : Inv c₀ s c) :
    Inv c₀ { s with store := { s.store with tail := s.store.tail.close } } c where
  rep := ⟨h.rep.topic, h.rep.owns⟩
  ok := s.store.tail.ok_close
  streams st hst := (h.streams st hst).mono (fun w hw => Or.inl (hw.isSet_close h.ok))
    (List.prefix_refl _) fun _ _ _ hholds _ => Or.inl (hholds.isSet_close h.ok)
  closed _ st hst w hw := by
    have hphase := (h.streams st hst).2
    rw [hw] at hphase
    exact hphase.2.2.2.1.isSet_close h.ok
  appended := h.appended

/-! ## Runs

The invariant along a run, and what it says of the data root and the streams,
without the catalog. -/

/-- What an append asks for. -/
def Append.request (a : Append) : ProduceRequest :=
  ⟨a.name, a.key, a.value, a.timestamp, none, a.partition⟩

/-- **No record is written that nobody announces.** When the thread of an
append that nobody awaits any more comes to write, there is nothing that it
could write: the name is refused, the partition is not one of the topic's or
not this broker's, or the record cannot be encoded (`Store.Takes`). And no
append is cancelled between its write and its notify. -/
def Kept (s : State) : Act → Prop
  | .write j clock _ => ∀ a, s.appends[j]? = some a → a.cancelled = true →
      ¬s.store.Takes s.root a.request clock
  | .cancel j => ∀ a, s.appends[j]? = some a → ∀ p k, a.phase ≠ .written p k
  | _ => True

/-- **One step keeps the invariant.** -/
theorem Inv.step (h : Inv c₀ s c) {act : Act} (hkept : Kept s act) (hs' : exec s act = some s') :
    ∃ c', Inv c₀ s' c' := by
  cases act with
  | consume request => exact ⟨c, h.consume request hs'⟩
  | fetch i => exact h.fetch i hs'
  | resume i => exact ⟨c, h.resume i hs'⟩
  | wake i => exact ⟨c, h.awake (Or.inl rfl) hs'⟩
  | timeout i => exact ⟨c, h.awake (Or.inr rfl) hs'⟩
  | append name key value timestamp partition =>
    cases hs'
    exact ⟨c, h.append _⟩
  | take j =>
    simp only [exec, Option.bind_eq_bind, Option.bind_eq_some_iff] at hs'
    obtain ⟨a, ha, hs'⟩ := hs'
    cases hp : a.phase with
    | queued =>
      rw [hp] at hs'
      cases hs'
      exact ⟨c, h.putAppend ha (by rw [hp]; exact fun _ _ h => by cases h)
        (by rw [hp]; exact fun _ _ h => by cases h)⟩
    | _ =>
      rw [hp] at hs'
      cases hs'
  | write j clock elapsed =>
    refine h.write j clock elapsed (fun a ha hcancelled => ?_) hs'
    have hno := mt (h.rep.takes_iff a.request clock elapsed).mp (hkept a ha hcancelled)
    have hno : ¬∃ place, (s.store.topic.append (.of s.root) a.name a.key a.value a.timestamp
      a.partition clock elapsed).1 = .ok place := hno
    cases hres : (s.store.topic.append (.of s.root) a.name a.key a.value a.timestamp a.partition
        clock elapsed).1 with
    | ok place => exact absurd ⟨place, hres⟩ hno
    | error e => exact ⟨e, rfl⟩
  | notify j => exact ⟨c, h.notify j hs'⟩
  | cancel j =>
    simp only [exec, Option.bind_eq_bind, Option.bind_eq_some_iff] at hs'
    obtain ⟨a, ha, hs'⟩ := hs'
    cases hp : a.phase with
    | written p k => exact absurd hp (hkept a ha p k)
    | notified p k =>
      rw [hp] at hs'
      cases hs'
    | dropped =>
      rw [hp] at hs'
      cases hs'
    | _ =>
      rw [hp] at hs'
      cases hs'
      exact ⟨c, h.putAppend ha (by rw [hp]; exact fun _ _ h => by cases h)
        (by rw [hp]; exact fun _ _ h => by cases h)⟩
  | close =>
    cases hs'
    exact ⟨c, h.close⟩

/-- **A broker that has just started**: its tail is new, and there are no
calls. -/
theorem start_spec (hs : system.start s) : ∃ c, s.store.Rep (.of s.root) c ∧ s.root.Stores c
    ∧ s.store.tail = .init ∧ s.streams = [] ∧ s.appends = [] := by
  obtain ⟨before, ring, settings, hdown, hstep, hstreams, happends⟩ := hs
  obtain ⟨c, hgood⟩ := Node.run_good (n := .empty) (c := .empty) stores_empty before
  generalize (Node.machine.run .empty before).2 = n at hdown hgood hstep
  obtain ⟨store, root⟩ := n
  cases hdown
  obtain ⟨store', v', c', hstart, hgood', ⟨-, -, htail⟩, -⟩ :=
    Node.start_spec hgood ring settings
  rw [hstart] at hstep
  simp only [Node.mk.injEq, Option.some.injEq] at hstep
  obtain ⟨hstore, hroot⟩ := hstep
  rw [hstore] at hgood' htail
  rw [hroot] at hgood'
  exact ⟨c', hgood', hgood'.stores, htail, hstreams, happends⟩

/-- **It holds at the start**: there are no streams, and no record is new. -/
theorem inv_start (hs : system.start s) : ∃ c, Inv c s c ∧ s.root.Stores c := by
  obtain ⟨c, hrep, hstores, htail, hstreams, -⟩ := start_spec hs
  refine ⟨c, ⟨hrep, htail ▸ Tail.ok_init, ?_, ?_, ?_⟩, hstores⟩
  · rw [hstreams]
    exact fun _ h => by cases h
  · rw [hstreams]
    exact fun _ _ h => by cases h
  · intro name p k hk hk'
    omega

/-- What the invariant says of the data root. -/
theorem Inv.follower (h : Inv c₀ s c) {st : Stream} (hst : st ∈ s.streams) :
    st.out <+: (s.root.records st.request.topic st.request.partition.toNat).drop
        st.request.offset.toNat
      ∧ ∀ w, st.phase = .parked w → s.store.tail.isSet w = false → ∀ k : ℕ,
        st.request.offset + st.out.length ≤ k →
        k < (s.root.records st.request.topic st.request.partition.toNat).length →
        Pending s.appends st.request.topic st.request.partition k := by
  have hrecords : s.root.records st.request.topic st.request.partition.toNat = st.log c :=
    h.rep.topic.stores.records_eq _ _
  obtain ⟨hout, hphase⟩ := h.streams st hst
  refine ⟨hrecords ▸ hout, fun w hw hunset k hk hlt => ?_⟩
  rw [hw] at hphase
  obtain ⟨-, -, hoff, -, htold⟩ := hphase
  rw [hrecords] at hlt
  rcases htold with hset | hall
  · rw [hunset] at hset
    cases hset
  · exact hall k (hoff ▸ hk) hlt

/-- A broker just started on an empty data root, if it starts. -/
def boot (ring : Ring) (settings : Settings) : Option State :=
  let n := (Node.machine.step .empty (.start ring settings)).2
  n.store.map fun store => ⟨store, n.root, [], []⟩

/-- That is a broker that has just started. -/
theorem start_boot {ring : Ring} {settings : Settings} (h : boot ring settings = some s) :
    system.start s := by
  unfold boot at h
  obtain ⟨store, hstore, rfl⟩ := Option.map_eq_some_iff.mp h
  refine ⟨[], ring, settings, rfl, ?_, rfl, rfl⟩
  rw [← hstore]
  rfl

/-- **A broker of its own**, which never syncs of its own accord. -/
def alone : Option State :=
  boot ⟨1, 0, fun _ => .ok "pyka-0:9090", .modulo, Nat.one_pos⟩
    ⟨"data", 1, .never, ⟨2 ^ 30, default_max_segment_bytes⟩, false, Nat.one_pos⟩

end LiveTail

end Pyka
