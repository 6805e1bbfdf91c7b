import Pyka.Broker.LiveTailSpec
import Pyka.Broker.PowerLoss

/-!
# The calls on a broker, cancelled or not

`LiveTail.live_tail` needs that no append is cancelled: else a record can be
in the log that nobody announces, and a stream waits too long. What is said
here of the calls does not. Every stream has yielded a piece of its log, and
an append whose thread has written finds its record where it was told
(`LiveTail.Sound`). A step adds to the logs and takes nothing from them, and
what is durable stays so (`LiveTail.Sound.step`).

## What it is for

A broker that is stopped or killed has calls on it, some of them cancelled
just then: stopping a server cancels what is still running when the grace
period is over. Their threads go on, and one may come to write when everything
else is over. `Broker.Process` puts the calls and the stopping together and
needs to know of the calls what holds in spite of all that; this is it, and it
is stated for one step so that the steps of the process can come in between.

## What is left out of it

Whether a follower is woken in time. In `Stream.Good`, the invariant of a
single stream, what is pending is a parameter; with a predicate that is always
true, what is left of it is that the stream has yielded the right records and
will go on at the right offset. The lemmas about single streams are used as
they are, for that predicate.

What is durable is counted as in `Topic.Durable`: a number for each partition,
which a write leaves as it is or raises to all there is.
-/

namespace Pyka

open Struct (Bytes)

namespace LiveTail

/-- Where the record of an append is, once it has been written; of one that
failed or was dropped there is none. -/
def AppendPhase.place : AppendPhase → Option (ℤ × ℤ)
  | .written partition offset => some (partition, offset)
  | .notified partition offset => some (partition, offset)
  | _ => none

/-- **The record of an append is in its place**, in a partition that is this
broker's, with the key and value that were sent, and the time if one was. -/
def Append.Landed (a : Append) (owns : String → ℕ → Bool) (records : String → ℕ → List Record)
    (place : ℤ × ℤ) : Prop :=
  ∃ (p k : ℕ) (r : Record), place = ((p : ℤ), (k : ℤ)) ∧ owns a.name p = true
    ∧ (records a.name p)[k]? = some r ∧ r.key = a.key ∧ r.value = a.value
    ∧ ∀ t, a.timestamp = some t → r.timestamp = t

/-- A record that has landed is there still when the log has grown. -/
theorem Append.Landed.mono {a a' : Append} {owns : String → ℕ → Bool}
    {records records' : String → ℕ → List Record} {place : ℤ × ℤ} (h : a.Landed owns records place)
    (hname : a'.name = a.name) (hkey : a'.key = a.key) (hvalue : a'.value = a.value)
    (htime : a'.timestamp = a.timestamp) (hrecords : ∀ name p, records name p <+: records' name p) :
    a'.Landed owns records' place := by
  obtain ⟨p, k, r, hplace, ho, hr, hk, hv, ht⟩ := h
  rw [Append.Landed, hname, hkey, hvalue, htime]
  exact ⟨p, k, r, hplace, ho, getElem?_of_prefix (hrecords _ _) hr, hk, hv, ht⟩

/-- The records of a stream's partition on a data root, as they are read back. -/
def Stream.onRoot [Crc32] (st : Stream) (root : Root) : List Record :=
  root.records st.request.topic st.request.partition.toNat

variable [Crc32]

/-- **What holds of a broker and the calls on it**, whatever is cancelled. So
many records of every partition are durable. -/
structure Sound (s : State) (synced : String → ℕ → ℕ) : Prop where
  rep : ∃ c, s.store.Rep (.of s.root) c
  durable : s.store.topic.Durable s.root s.root.records synced
  ok : s.store.tail.Ok
  streams : ∀ st ∈ s.streams, st.Good s.store.tail (st.onRoot s.root) fun _ => True
  landed : ∀ a ∈ s.appends, ∀ place, a.phase.place = some place →
    a.Landed s.store.topic.owns s.root.records place

/-- **What a step leaves behind**: logs that have grown, and what is durable
still so. Of the store, the ring and what was found at its opening are as they
were. -/
structure Grown (s : State) (synced : String → ℕ → ℕ) (s' : State) (synced' : String → ℕ → ℕ) :
    Prop where
  records : ∀ name p, s.root.records name p <+: s'.root.records name p
  synced : ∀ name p, synced name p ≤ synced' name p
  store : s'.store = { s.store with topic := s'.store.topic, tail := s'.store.tail }
  owns : s'.store.topic.owns = s.store.topic.owns
  allOpen : s.store.topic.AllOpen s.root → s'.store.topic.AllOpen s'.root
  closed : s.store.tail.closed = true → s'.store.tail.closed = true
  /-- A directory that is new is this broker's. -/
  parts : ∀ name p, (s'.root.part name p).isSome →
    (s.root.part name p).isSome ∨ s.store.topic.owns name p = true

variable {s s' : State} {synced synced' : String → ℕ → ℕ}

/-- A step that does nothing on disk. -/
theorem Grown.of_root (h : s'.root = s.root)
    (hstore : s'.store = { s.store with tail := s'.store.tail })
    (hclosed : s.store.tail.closed = true → s'.store.tail.closed = true) :
    Grown s synced s' synced where
  records _ _ := h ▸ List.prefix_refl _
  synced _ _ := le_rfl
  store := by rw [hstore]
  owns := by rw [hstore]
  allOpen := by
    rw [hstore, h]
    exact id
  closed := hclosed
  parts _ _ := by
    rw [h]
    exact Or.inl

/-! ### What a step keeps

Two lemmas for all steps that are not a read or a write: one for what a stream
does, and one for what an append does. -/

omit [Crc32] in
/-- Of what others do a stream notices that its log has grown. On the streams
nothing depends on what is announced. -/
theorem Good.mono_true {st : Stream} {tail tail' : Tail} {records records' : List Record}
    (h : st.Good tail records fun _ => True) (hholds : ∀ w, st.Holds tail w → st.Holds tail' w)
    (hrecords : records <+: records') : st.Good tail' records' fun _ => True :=
  Stream.Good.mono h hholds hrecords fun _ _ _ _ _ => Or.inr fun _ _ _ => trivial

namespace Sound

/-- A log has consecutive offsets, so a place in it is an offset. -/
theorem consecutive (h : Sound s synced) (st : Stream) : Consecutive 0 (st.onRoot s.root) := by
  obtain ⟨c, hrep⟩ := h.rep
  have hstores : s.root.Stores c := hrep.topic.stores
  unfold Stream.onRoot
  rw [hstores.records_eq]
  exact hstores.consecutive _ _

/-- **A stream goes on**, and disturbs neither the others nor the appends. -/
theorem put (h : Sound s synced) {i : ℕ} (st : Stream) {out : Stream × Tail}
    (hgoes : st.GoesOn s.store.tail out) (hgood : out.1.Good out.2 (st.onRoot s.root)
      fun _ => True) :
    Sound (s.put i out) synced where
  rep := h.rep.imp fun _ hrep => ⟨hrep.topic, hrep.owns⟩
  durable := h.durable
  ok := hgoes.quiet.ok h.ok
  streams st' hst' := by
    rcases List.mem_or_eq_of_mem_set hst' with hold | rfl
    · exact Good.mono_true (h.streams st' hold)
        (fun w hw => hgoes.quiet.holds hw) (List.prefix_refl _)
    · show out.1.Good out.2 (out.1.onRoot s.root) _
      unfold Stream.onRoot at hgood ⊢
      rwa [hgoes.request]
  landed := h.landed

/-- An append goes on, and its record is where it was. -/
theorem putAppend (h : Sound s synced) {j : ℕ} {a : Append} (ha : s.appends[j]? = some a)
    (phase : AppendPhase) (cancelled : Bool)
    (hplace : ∀ place, phase.place = some place → a.phase.place = some place) {tail : Tail}
    (hok : tail.Ok)
    (hholds : ∀ {topic partition w}, s.store.tail.Holds topic partition w →
      tail.Holds topic partition w) :
    Sound { s with appends := s.appends.set j { a with phase, cancelled },
                   store := { s.store with tail } } synced where
  rep := h.rep.imp fun _ hrep => ⟨hrep.topic, hrep.owns⟩
  durable := h.durable
  ok := hok
  streams st hst := Good.mono_true (h.streams st hst) (fun _ hw => hholds hw) (List.prefix_refl _)
  landed b hb place hb' := by
    rcases List.mem_or_eq_of_mem_set hb with hold | rfl
    · exact h.landed b hold place hb'
    · exact (h.landed a (List.mem_of_getElem? ha) place (hplace place hb')).mono rfl rfl rfl rfl
        fun _ _ => List.prefix_refl _

/-! ### Steps

One lemma for each kind of step that does something on disk or to a stream. -/

/-- A stream comes, with nothing yielded. -/
theorem consume (h : Sound s synced) (request : ConsumeRequest)
    (hs' : exec s (.consume request) = some s') : Sound s' synced ∧ Grown s synced s' synced := by
  simp only [exec, Option.some.injEq] at hs'
  subst hs'
  have hgoes : Stream.GoesOn ⟨request, request.offset, _, [], .returned⟩ s.store.tail
    (Stream.start request s.store.tail) := Stream.goesOn_again _ _
  refine ⟨⟨h.rep.imp fun _ hrep => ⟨hrep.topic, hrep.owns⟩, h.durable, hgoes.quiet.ok h.ok,
    fun st hst => ?_, h.landed⟩, .of_root rfl rfl hgoes.quiet.closed.trans⟩
  rcases List.mem_append.mp hst with hold | hnew
  · exact Good.mono_true (h.streams st hold) (fun w hw => hgoes.quiet.holds hw) (List.prefix_refl _)
  · cases List.mem_singleton.mp hnew
    exact Stream.again_good List.nil_prefix (by simp) fun hne => absurd rfl hne

/-- The event loop goes on with a stream, or ends one whose read was refused. -/
theorem resume (h : Sound s synced) (i : ℕ) (hs' : exec s (.resume i) = some s') :
    Sound s' synced ∧ Grown s synced s' synced := by
  obtain ⟨st, hst, ⟨waiter, limit, failure, -, rfl⟩ | ⟨waiter, limit, fetched, rest, hp, rfl⟩⟩ :=
    resume_cases hs'
  · have hgoes : st.GoesOn s.store.tail ({ st with phase := .aborted failure }, s.store.tail) :=
      ⟨rfl, .refl _, fun w hw => by cases hw⟩
    exact ⟨h.put st hgoes ⟨(h.streams st (List.mem_of_getElem? hst)).1, trivial⟩,
      .of_root rfl rfl id⟩
  · have hgood := h.streams st (List.mem_of_getElem? hst)
    have hgoes := st.goesOn_advance s.store.tail waiter limit fetched rest
    exact ⟨h.put st hgoes ((hgood.inBatch hp).advance hgood.1 (h.consecutive st)),
      .of_root rfl rfl hgoes.quiet.closed.trans⟩

/-- A stream no longer waits, for whichever reason. -/
theorem awake (h : Sound s synced) {i : ℕ} {act : Act} (hact : act = .wake i ∨ act = .timeout i)
    (hs' : exec s act = some s') : Sound s' synced ∧ Grown s synced s' synced := by
  obtain ⟨st, waiter, hst, hp, rfl⟩ := awake_cases hact hs'
  have hgoes := st.goesOn_awake s.store.tail
  exact ⟨h.put st hgoes (Stream.awake_good (h.streams st (List.mem_of_getElem? hst)) hp),
    .of_root rfl rfl hgoes.quiet.closed.trans⟩

/-- **A thread reads a batch.** The topic may be opened by it; the records are
those that were there. -/
theorem fetch (h : Sound s synced) (i : ℕ) (hs' : exec s (.fetch i) = some s') :
    Sound s' synced ∧ Grown s synced s' synced ∧ s'.root.records = s.root.records := by
  obtain ⟨st, waiter, limit, hst, hp, res, store, v, hr, rfl⟩ := fetch_cases hs'
  obtain ⟨hout, hphase⟩ := h.streams st (List.mem_of_getElem? hst)
  rw [hp] at hphase
  obtain ⟨c, hrep⟩ := h.rep
  obtain ⟨answer, c', hf, hset, -, hread⟩ := Handler.read_spec hrep st.request st.offset limit
  have htail := Handler.tail_read s.store (.of s.root) st.request st.offset limit
  obtain ⟨htopic, hvolume⟩ := PowerLoss.read_snd s.store (.of s.root) st.request st.offset limit
  have hcalm := Topic.existing_calm (v := .of s.root) h.durable st.request.topic
  rw [← htopic, ← hvolume] at hcalm
  have hanswer := hf.answer
  have hrep' := hf.rep
  have hsame := hf.same
  rw [hr] at htail hanswer hrep' hcalm hsame
  simp only at htail hanswer hrep' hsame
  subst hanswer
  have hrecords : v.root.records = s.root.records := hcalm.durable.kept.records_eq
  have hstores : s.root.Stores c := hrep.topic.stores
  refine ⟨⟨⟨c', hrep'.topic.of, hrep'.owns⟩, hrecords.symm ▸ hcalm.durable, htail ▸ h.ok,
    fun st' hst' => ?_, ?_⟩, ⟨fun _ _ => hrecords ▸ List.prefix_refl _, fun _ _ => le_rfl, hsame,
    hcalm.owns, hcalm.allOpen, fun hclosed => htail ▸ hclosed, fun name p hsome => ?_⟩, hrecords⟩
  · show st'.Good store.tail (st'.onRoot v.root) _
    unfold Stream.onRoot
    rw [htail, hrecords]
    rcases List.mem_or_eq_of_mem_set hst' with hold | rfl
    · exact h.streams st' hold
    · refine ⟨hout, ?_⟩
      cases res with
      | error failure => trivial
      | ok records =>
        obtain ⟨hpos, p, hp', -, -, hbatch⟩ := hread records rfl
        refine Stream.inBatch_of_read _ hphase.1 hphase.2.1 hphase.2.2 (by omega) hpos ?_
        show records = if 0 < limit ∧ limit ≤ ((st.onRoot s.root).drop st.offset.toNat).length
          then ((st.onRoot s.root).drop st.offset.toNat).take limit.toNat
          else (st.onRoot s.root).drop st.offset.toNat
        unfold Stream.onRoot
        rw [hp', Int.toNat_natCast, hstores.records_eq]
        exact hbatch
  · show ∀ a ∈ s.appends, ∀ place, a.phase.place = some place →
      a.Landed store.topic.owns v.root.records place
    rw [hrecords, hcalm.owns]
    exact h.landed
  · rw [hrep'.topic.stores.isSome_part] at hsome
    rw [hstores.isSome_part]
    exact hset.logs hsome

/-- **A thread appends**, one record at most, whether its call is still
waiting or was cancelled. -/
theorem write (h : Sound s synced) (j : ℕ) (clock : ℤ) (elapsed : ℚ)
    (hs' : exec s (.write j clock elapsed) = some s') :
    ∃ synced', Sound s' synced' ∧ Grown s synced s' synced'
      ∧ ∀ name p, (s'.root.records name p).length ≤ (s.root.records name p).length + 1 := by
  simp only [exec, Option.bind_eq_bind, Option.bind_eq_some_iff] at hs'
  obtain ⟨a, ha, hs'⟩ := hs'
  obtain ⟨c, hrep⟩ := h.rep
  cases hp : a.phase with
  | running =>
    rw [hp] at hs'
    have hf := Topic.append_follows hrep.topic a.name a.key a.value a.timestamp a.partition clock
      elapsed
    have hdur := Topic.append_durable (v := .of s.root) h.durable a.name a.key a.value a.timestamp
      a.partition clock elapsed
    have hrep' := (hrep.lift hf s.store.tail).rep
    have hstores : s.root.Stores c := hrep.topic.stores
    have hlogs :
        ∀ name p, ((c.append s.store.topic.holder a.name a.key a.value a.timestamp a.partition
        clock).2.logs name p).isSome → (c.logs name p).isSome ∨ s.store.topic.owns name p
          = true := by
      cases hc : c.append s.store.topic.holder a.name a.key a.value a.timestamp a.partition
        clock with
      | mk answer c' =>
        rcases Catalog.append_outcome hc with ⟨e, -, hset⟩ | ⟨p, r, -, -, -, -, -, hadds⟩
        · exact fun _ _ => hset.logs
        · exact fun _ _ => hadds.logs
    cases happ : s.store.topic.append
        (.of s.root) a.name a.key a.value a.timestamp a.partition clock
        elapsed with
    | mk res rest =>
    obtain ⟨topic, v⟩ := rest
    rw [happ] at hrep' hdur
    simp only [happ, Option.some.injEq] at hs'
    simp only at hrep' hdur
    subst hs'
    have hparts : ∀ name p, (v.root.part name p).isSome →
        (s.root.part name p).isSome ∨ s.store.topic.owns name p = true := fun name p hsome => by
      rw [hrep'.topic.stores.isSome_part] at hsome
      rw [hstores.isSome_part]
      exact hlogs name p hsome
    rcases hdur with ⟨e, rfl, hcalm⟩ | ⟨p, rfl, ho, n, htakes⟩
    · have hrecords : v.root.records = s.root.records := hcalm.durable.kept.records_eq
      refine ⟨synced, ⟨⟨_, hrep'.topic.of, hrep'.owns⟩, hrecords.symm ▸ hcalm.durable, h.ok,
        fun st hst => ?_, fun b hb place hb' => ?_⟩, ⟨fun _ _ => hrecords ▸ List.prefix_refl _,
        fun _ _ => le_rfl, rfl, hcalm.owns, hcalm.allOpen, id, hparts⟩,
        fun name q => ?_⟩
      · show st.Good _ (st.onRoot v.root) _
        unfold Stream.onRoot
        rw [hrecords]
        exact h.streams st hst
      · show b.Landed topic.owns v.root.records place
        rw [hrecords, hcalm.owns]
        rcases List.mem_or_eq_of_mem_set hb with hold | rfl
        · exact h.landed b hold place hb'
        · cases hb'
      · show (v.root.records name q).length ≤ _
        rw [hrecords]
        exact Nat.le_succ _
    · have hrecords : v.root.records
          = setAt s.root.records a.name p (s.root.records a.name p ++ [_]) :=
        htakes.durable.kept.records_eq
      have hgrown : ∀ name q, s.root.records name q <+: v.root.records name q := fun name q => by
        rw [hrecords]
        unfold setAt
        split_ifs with hc
        · rw [hc.1, hc.2]
          exact List.prefix_append _ _
        · exact List.prefix_refl _
      have howns : topic.owns = s.store.topic.owns := by rw [htakes.same]
      have hless : synced a.name p ≤ n := by
        rcases htakes.waits with ⟨rfl, -⟩ | ⟨rfl, -⟩
        · exact le_rfl
        · exact ((h.durable.kept a.name p).synced_le_length).trans (Nat.le_succ _)
      refine ⟨setAt synced a.name p n, ⟨⟨_, hrep'.topic.of, hrep'.owns⟩,
        hrecords.symm ▸ htakes.durable, h.ok, fun st hst => Good.mono_true (h.streams st hst)
          (fun _ hw => hw) (hgrown _ _), fun b hb place hb' => ?_⟩, ⟨hgrown, fun name q => ?_, rfl,
        howns, htakes.allOpen, id, hparts⟩, fun name q => ?_⟩
      · show b.Landed topic.owns v.root.records place
        rw [howns]
        rcases List.mem_or_eq_of_mem_set hb with hold | rfl
        · exact (h.landed b hold place hb').mono rfl rfl rfl rfl hgrown
        · cases hb'
          refine ⟨p, (s.root.records a.name p).length,
            ⟨(s.root.records a.name p).length, a.timestamp.getD clock, a.key, a.value⟩, rfl, ho, ?_,
              rfl, rfl,
            fun t ht => ?_⟩
          · rw [hrecords, setAt_self, List.getElem?_concat_length]
          · exact (congrArg (Option.getD · clock) ht).trans rfl
      · unfold setAt
        split_ifs with hc
        · rw [hc.1, hc.2]
          exact hless
        · exact le_rfl
      · show (v.root.records name q).length ≤ _
        rw [hrecords]
        unfold setAt
        split_ifs with hc
        · rw [hc.1, hc.2, List.length_append, List.length_singleton]
        · exact Nat.le_succ _
  | _ =>
    rw [hp] at hs'
    cases hs'

/-- **Every step of the calls** leaves a broker in order. By cases on the act;
there is no condition on it. -/
theorem step (h : Sound s synced) {act : Act} (hs' : exec s act = some s') :
    ∃ synced', Sound s' synced' ∧ Grown s synced s' synced' := by
  cases act with
  | consume request => exact ⟨synced, h.consume request hs'⟩
  | fetch i =>
    obtain ⟨hsound, hgrown, -⟩ := h.fetch i hs'
    exact ⟨synced, hsound, hgrown⟩
  | resume i => exact ⟨synced, h.resume i hs'⟩
  | wake i => exact ⟨synced, h.awake (Or.inl rfl) hs'⟩
  | timeout i => exact ⟨synced, h.awake (Or.inr rfl) hs'⟩
  | append name key value timestamp partition =>
    cases hs'
    refine ⟨synced, ⟨h.rep, h.durable, h.ok, h.streams, fun a ha place hplace => ?_⟩,
      .of_root rfl rfl id⟩
    rcases List.mem_append.mp ha with hold | hnew
    · exact h.landed a hold place hplace
    · cases List.mem_singleton.mp hnew
      cases hplace
  | take j =>
    simp only [exec, Option.bind_eq_bind, Option.bind_eq_some_iff] at hs'
    obtain ⟨a, ha, hs'⟩ := hs'
    cases hp : a.phase with
    | queued =>
      rw [hp] at hs'
      cases hs'
      exact ⟨synced, h.putAppend ha .running a.cancelled (fun _ h => by cases h) h.ok id,
        .of_root rfl rfl id⟩
    | _ =>
      rw [hp] at hs'
      cases hs'
  | write j clock elapsed =>
    obtain ⟨synced', hsound, hgrown, -⟩ := h.write j clock elapsed hs'
    exact ⟨synced', hsound, hgrown⟩
  | notify j =>
    simp only [exec, Option.bind_eq_bind, Option.bind_eq_some_iff] at hs'
    obtain ⟨a, ha, hs'⟩ := hs'
    cases hp : a.phase with
    | written partition offset =>
      cases hc : a.cancelled with
      | true =>
        rw [hp, hc] at hs'
        cases hs'
      | false =>
        rw [hp, hc] at hs'
        cases hs'
        exact ⟨synced, h.putAppend ha (.notified partition offset) false
          (fun _ hplace => by rw [hp]; exact hplace) (h.ok.notify _ _) fun hw => hw.notify h.ok _ _,
          .of_root rfl rfl fun hclosed => (Tail.closed_notify _ _ _).trans hclosed⟩
    | _ =>
      rw [hp] at hs'
      cases hs'
  | cancel j =>
    simp only [exec, Option.bind_eq_bind, Option.bind_eq_some_iff] at hs'
    obtain ⟨a, ha, hs'⟩ := hs'
    cases hp : a.phase with
    | notified partition offset =>
      rw [hp] at hs'
      cases hs'
    | dropped =>
      rw [hp] at hs'
      cases hs'
    | queued =>
      rw [hp] at hs'
      cases hs'
      exact ⟨synced, h.putAppend ha .dropped true (fun _ h => by cases h) h.ok id,
        .of_root rfl rfl id⟩
    | _ =>
      rw [hp] at hs'
      cases hs'
      exact ⟨synced, h.putAppend ha _ true (fun _ hplace => by rw [hp]; exact hplace) h.ok id,
        .of_root rfl rfl id⟩
  | close =>
    cases hs'
    exact ⟨synced, ⟨h.rep.imp fun _ hrep => ⟨hrep.topic, hrep.owns⟩, h.durable,
      s.store.tail.ok_close,
      fun st hst => Good.mono_true (h.streams st hst) (fun w hw => Or.inl (hw.isSet_close h.ok))
        (List.prefix_refl _), h.landed⟩, .of_root rfl rfl fun _ => rfl⟩

end Sound

end LiveTail

end Pyka
