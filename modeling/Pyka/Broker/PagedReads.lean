import Pyka.Base.Paging
import Pyka.Client.Serving
import Pyka.Storage.Reached

/-!
# A consumption in pages is one read

`Consume` of a request that does not follow reads the partition a batch at a
time: from where the last batch ended, as many records as are left to deliver
or as a batch has, until one is short. Here the size of a batch is a parameter
and the partition any log that the broker has open, whatever its first base.
What is delivered does not depend on the size (`Handler.consume_in_pages`).

## Two loops

`Paging.loop` is the loop of `Consume` said apart from brokers, in a module of
its own: a read that takes an offset and a limit, called until it is short.
`Handler.bounded` is that loop with the broker's read, and
`Handler.consume_eq_bounded` says that it is what the event loop does with
such a stream, step by step, when `BATCH` is the source's. So what is proved
of any size of a batch is about the source at its own size, and that the
number does not matter is a theorem and not a comment.

## The log

A log that is open has been reached by some run from a directory that may have
lost its first segments, so its first offset need not be `0` (`Log.Reached`).
A read from before that is out of range, with the first base in the text; from
there on it is the records at or past the offset. That nobody writes meanwhile
is in the statement: with a writer in between, batches may well deliver more
than one read would.
-/

namespace Pyka

open Struct (Bytes)

variable [Crc32]

namespace Handler

/-- A batch for `Consume`, on a store and its data root: one call of `_read`. -/
def fetchBatch (request : ConsumeRequest) (sr : Store × Root) (offset limit : ℤ) :
    Except Failure (List Record) × Store × Root :=
  let (res, s, v) := read sr.1 (.of sr.2) request offset limit
  (res, s, v.root)

/-- **`Consume` of a request that does not follow**, of so many batches at
most. -/
def bounded (BATCH : ℕ) (request : ConsumeRequest) (batches : ℕ) (s : Store) (root : Root) :
    Option (List Message × Option Failure × Store × Root) :=
  let remaining := if 0 < request.maxRecords then some request.maxRecords else none
  (Paging.loop (fetchBatch request) Record.offset BATCH batches (s, root)
    request.offset remaining).map
    fun out => (out.1.map toProto, out.2)

end Handler

/-! ## On the event loop

The steps of a stream that has the broker to itself, put together into the
loop. Nothing here is about what is read. -/

namespace LiveTail

/-- How a stream has ended. -/
def Phase.ended : Option Failure → Phase
  | none => .returned
  | some failure => .aborted failure

variable {store store' : Store} {root root' : Root} {request : ConsumeRequest} {st : Stream}

/-- A stream that has ended stays so, for as many steps as one likes. -/
theorem drain_ended {failure : Option Failure} (hphase : st.phase = .ended failure) (steps : ℕ) :
    (solo store root st).drain steps = solo store root st := by
  obtain ⟨request, offset, remaining, out, phase⟩ := st
  cases hphase
  cases failure with
  | none => exact drain_of_still rfl steps
  | some failure => exact drain_of_still rfl steps

/-- A batch that cannot be read ends the stream, in two steps. -/
theorem drain_error {failure : Failure} {limit : ℤ} {v : Volume}
    (hphase : st.phase = .reading none limit)
    (hread : Handler.read store (.of root) st.request st.offset limit
      = (.error failure, store', v)) :
    (solo store root st).drain 2 = solo store' v.root { st with phase := .aborted failure } := by
  obtain ⟨request, offset, remaining, out, phase⟩ := st
  cases hphase
  have hfetch :
      exec (solo store root ⟨request, offset, remaining, out, .reading none limit⟩) (.fetch 0)
      = some (solo store' v.root
          ⟨request, offset, remaining, out, .fetched none limit (.error failure)⟩) := by
    have hread : Handler.read store (.of root) request offset limit
      = (.error failure, store', v) := hread
    simp only [exec, solo, List.getElem?_cons_zero, Option.bind_eq_bind, Option.bind_some, hread]
    rfl
  rw [drain_of_fetch hfetch]
  rfl

/-- **The event loop does what the loop of `Consume` says**, for a stream that
has the broker to itself. -/
theorem drain_loop (hfollow : request.follow = false) {batches : ℕ}
    (hrequest : st.request = request)
    (hphase : st.phase = .reading none st.limit) {out : List Record} {failure : Option Failure}
    (hloop : Paging.loop (Handler.fetchBatch request) Record.offset batch batches (store, root)
      st.offset st.remaining = some (out, failure, store', root')) :
    ∃ steps st', (solo store root st).drain steps = solo store' root' st'
      ∧ st'.out = st.out ++ out ∧ st'.phase = .ended failure := by
  induction batches generalizing store root st out with
  | zero => cases hloop
  | succ batches ih =>
    subst hrequest
    have hlimit : Paging.limit batch st.remaining = st.limit := by
      unfold Paging.limit Stream.limit
      cases st.remaining <;> rfl
    rw [Paging.loop, hlimit] at hloop
    cases hread : Handler.read store (.of root) st.request st.offset st.limit with
    | mk res rest =>
    obtain ⟨store₁, v₁⟩ := rest
    have hfetch : Handler.fetchBatch st.request (store, root) st.offset st.limit
        = (res, store₁, v₁.root) := by
      unfold Handler.fetchBatch
      rw [hread]
    rw [hfetch] at hloop
    cases res with
    | error failure' =>
      cases hloop
      exact ⟨2, _, drain_error hphase hread, (List.append_nil _).symm, rfl⟩
    | ok fetched =>
      have hbatch := drain_batch hphase hread
      unfold Stream.afterBatch at hbatch
      simp only at hloop hbatch
      by_cases hdone : (st.remaining.map (· - (fetched.length : ℤ))).any (· ≤ 0) = true
      · rw [if_pos hdone] at hloop hbatch
        cases hloop
        exact ⟨_, _, hbatch, rfl, rfl⟩
      · rw [if_neg hdone] at hloop hbatch
        by_cases hfull : (fetched.length : ℤ) = st.limit
        · rw [if_pos hfull] at hloop hbatch
          obtain ⟨⟨more, failure', store₂, root₂⟩, hmore, heq⟩ := Option.map_eq_some_iff.mp hloop
          cases heq
          unfold Stream.again at hbatch
          rw [if_neg (by simpa using hfollow)] at hbatch
          obtain ⟨st₁, hnext, hrequest₁, hphase₁, hoffset₁, hremaining₁, hout₁⟩ : ∃ st₁ : Stream,
              (solo store root st).drain (1 + (fetched.length + 1)) = solo store₁ v₁.root st₁
              ∧ st₁.request = st.request ∧ st₁.phase = .reading none st₁.limit
              ∧ st₁.offset = (fetched.getLast?.map fun r => r.offset + 1).getD st.offset
              ∧ st₁.remaining = st.remaining.map (· - (fetched.length : ℤ))
              ∧ st₁.out = st.out ++ fetched :=
            ⟨_, hbatch, rfl, rfl, rfl, rfl, rfl⟩
          rw [← hoffset₁, ← hremaining₁] at hmore
          obtain ⟨steps, st', hdrain, hout, hend⟩ := ih hrequest₁ hphase₁ hmore
          refine ⟨1 + (fetched.length + 1) + steps, st', ?_, ?_, hend⟩
          · rw [drain_add, hnext, hdrain]
          · rw [hout, hout₁, List.append_assoc]
        · rw [if_neg hfull] at hloop hbatch
          cases hloop
          exact ⟨_, _, hbatch, rfl, rfl⟩

end LiveTail

/-- **`Consume` on the event loop**, with the batches that it has there. -/
theorem Handler.consume_eq_bounded {request : ConsumeRequest} (hfollow : request.follow = false)
    {batches : ℕ} {s s' : Store} {root root' : Root} {messages : List Message}
    {failure : Option Failure}
    (h : bounded batch request batches s root = some (messages, failure, s', root')) :
    ∃ least, ∀ steps, least ≤ steps →
      consume s (.of root) request steps = ((messages, some failure), s', .of root') := by
  unfold bounded at h
  obtain ⟨⟨out, _⟩, hloop, heq⟩ := Option.map_eq_some_iff.mp h
  cases heq
  obtain ⟨st₀, hst₀⟩ : ∃ st₀ : LiveTail.Stream, LiveTail.Stream.start request s.tail = (st₀, s.tail)
      ∧ st₀.request = request ∧ st₀.phase = .reading none st₀.limit ∧ st₀.offset = request.offset
      ∧ st₀.remaining = (if 0 < request.maxRecords then some request.maxRecords else none)
      ∧ st₀.out = [] := by
    unfold LiveTail.Stream.start LiveTail.Stream.again
    simp only [hfollow, and_true, Bool.false_eq_true, if_false]
    exact ⟨_, rfl, rfl, rfl, rfl, rfl, rfl⟩
  obtain ⟨hstart, hrequest, hphase, hoffset, hremaining, hout⟩ := hst₀
  rw [← hoffset, ← hremaining] at hloop
  obtain ⟨least, st, hdrain, hst, hend⟩ := LiveTail.drain_loop hfollow hrequest hphase hloop
  rw [hout, List.nil_append] at hst
  refine ⟨least, fun steps hle => ?_⟩
  have hsteps : LiveTail.State.drain ⟨{ s with tail := s.tail }, (Volume.of root).root, [st₀],
      []⟩ steps
      = LiveTail.solo s' root' st := by
    show (LiveTail.solo s root st₀).drain steps = _
    rw [← Nat.add_sub_of_le hle, LiveTail.drain_add, hdrain, LiveTail.drain_ended hend]
  unfold consume
  simp only [hstart, hsteps]
  cases failure <;> simp only [LiveTail.solo, List.headD_cons, hend, LiveTail.Phase.ended, hst]

/-! ## Reading an open log

A read of a log that a run has come to, and with it a batch of the broker that
has it open. -/

omit [Crc32] in
/-- The offsets of consecutive records increase. -/
theorem Consecutive.pairwise {base : ℤ} {rs : List Record} (h : Consecutive base rs) :
    rs.Pairwise fun r r' => r.offset < r'.offset := by
  induction rs generalizing base with
  | nil => exact .nil
  | cons r rs ih =>
    obtain ⟨hr, hrs⟩ := h
    refine List.pairwise_cons.mpr ⟨fun r' hr' => ?_, ih hrs⟩
    have := hrs.le_offset r' hr'
    omega

/-- **A read of a log in use**: the records at or past the offset. -/
theorem Log.Reached.readFrom_eq {l : Log} {dir : Dir} (h : l.Reached dir) :
    ∃ records, Consecutive l.firstBase records ∧ ∀ offset, l.firstBase ≤ offset →
      l.readFrom dir offset = .ok ⟨Paging.since Record.offset records offset, none⟩ := by
  obtain ⟨base, rss, rs, hserves, -⟩ := h.serves
  refine ⟨rss.flatten ++ rs, hserves.firstBase_eq ▸ hserves.records.2, fun offset hoff => ?_⟩
  rw [hserves.firstBase_eq] at hoff
  rw [hserves.readFrom Record.torn_nil hoff, Paging.since, hserves.records.2.filter_eq_drop]

namespace Store

/-- **A broker that has a partition's log open**: it is in the cache, under a
topic with at least so many partitions, and some run has come to it. -/
structure HasOpen (s : Store) (root : Root) (name : String) (p : ℕ) (l : Log) : Prop where
  valid : validateName name = .ok ()
  opened : ∃ topic entry, s.topic.opened.lookup name = some topic ∧ p < topic.partitions
    ∧ topic.stored.lookup p = some entry ∧ entry.log = l
  reached : l.Reached ((Volume.of root).disk name p).dir

variable {s : Store} {root : Root} {name : String} {p : ℕ} {l : Log}

/-- Reading an open log changes nothing: neither the store nor the files. -/
theorem HasOpen.read (h : s.HasOpen root name p l) (offset limit : ℤ) :
    s.read (.of root) name offset p limit
      = ((l.readFrom ((Volume.of root).disk name p).dir offset).bind fun rd => rd.upTo limit,
          s, .of root) := by
  obtain ⟨topic, entry, hopened, hp, hentry, rfl⟩ := h.opened
  have hcheck : Topic.checkPartition name topic (p : ℤ) = .ok entry := by
    unfold Topic.checkPartition raiseIf
    rw [if_neg (not_not.mpr ⟨Int.natCast_nonneg p, Int.ofNat_lt.mpr hp⟩), Int.toNat_natCast, hentry]
    rfl
  unfold Store.read Topic.readFrom Topic.get
  simp only [Topic.existing_of_opened h.valid hopened, Int.toNat_natCast, Except.bind, hcheck,
    Except.map]

end Store

namespace Handler

variable {s : Store} {root : Root} {request : ConsumeRequest} {p : ℕ} {l : Log}
  {records : List Record}

/-- **A batch** of the records at or past an offset: as many of them as the
limit allows. -/
theorem read_of_open (h : s.HasOpen root request.topic p l) (hpart : request.partition = p)
    (hrecords : ∀ offset, l.firstBase ≤ offset
      → l.readFrom ((Volume.of root).disk request.topic p).dir
      offset = .ok ⟨Paging.since Record.offset records offset, none⟩)
    {offset limit : ℤ} (hoff : l.firstBase ≤ offset) (hlimit : 0 < limit) :
    read s (.of root) request offset limit
      = (.ok ((Paging.since Record.offset records offset).take limit.toNat), s, .of root) := by
  have hupTo : Read.upTo ⟨Paging.since Record.offset records offset, none⟩ limit
      = .ok ((Paging.since Record.offset records offset).take limit.toNat) := by
    unfold Read.upTo
    split_ifs with hfull
    · rfl
    · rw [List.take_of_length_le]
      have : ¬limit ≤ (Paging.since Record.offset records offset).length := fun hle =>
        hfull ⟨hlimit, hle⟩
      omega
  unfold read
  rw [hpart, h.read, hrecords offset hoff]
  simp only [Except.bind, hupTo]

/-- Before the first base the request is out of range, and the answer says
where the log starts. -/
theorem read_before (h : s.HasOpen root request.topic p l) (hpart : request.partition = p)
    {offset : ℤ} (hoff : offset < l.firstBase) (limit : ℤ) :
    read s (.of root) request offset limit
      = (.error (.abort .outOfRange s!"offset {offset} is before this log starts ({l.firstBase})"),
          s, .of root) := by
  unfold read
  rw [hpart, h.read, Log.readFrom, if_pos hoff]
  rfl

/-- **Paged consumption is one read.** A broker has the log of a partition
open, and nobody writes to it. Whatever the size of a batch, a `Consume` that
does not follow ends. From an offset at or past the first base it delivers
what one read of the log yields from there – the records at or past the
offset – or as many of them as the request allows; from an offset before it, it
delivers nothing and is out of range. -/
theorem consume_in_pages (h : s.HasOpen root request.topic p l) (hpart : request.partition = p)
    {BATCH : ℕ} (hbatch : 1 ≤ BATCH) :
    ∃ records, l.readFrom ((Volume.of root).disk request.topic p).dir l.firstBase
      = .ok ⟨records, none⟩
      ∧ Consecutive l.firstBase records
      ∧ (l.firstBase ≤ request.offset →
          l.readFrom ((Volume.of root).disk request.topic p).dir request.offset
              = .ok ⟨records.filter fun r => decide (request.offset ≤ r.offset), none⟩
            ∧ ∀ batches, records.length < batches →
              bounded BATCH request batches s root
                = some ((if 0 < request.maxRecords
                    then (records.filter fun r => decide (request.offset ≤ r.offset)).take
                      request.maxRecords.toNat
                    else records.filter fun r => decide (request.offset ≤ r.offset)).map toProto,
                  none, s, root))
      ∧ (request.offset < l.firstBase → ∀ batches, 0 < batches →
          bounded BATCH request batches s root
            = some ([], some (.abort .outOfRange
                s!"offset {request.offset} is before this log starts ({l.firstBase})"), s,
                  root)) := by
  obtain ⟨records, hcons, hread⟩ := h.reached.readFrom_eq
  have hall : Paging.since Record.offset records l.firstBase = records :=
    List.filter_eq_self.mpr fun r hr => decide_eq_true (hcons.le_offset r hr)
  refine ⟨records, ?_, hcons, fun hoff => ⟨hread _ hoff, fun batches hb => ?_⟩,
    fun hoff batches hb => ?_⟩
  · rw [hread _ le_rfl, hall]
  · have hlen : (Paging.since Record.offset records request.offset).length < batches :=
      (List.length_filter_le _ _).trans_lt hb
    have hwanted :
        ∀ n ∈ (if 0 < request.maxRecords then some request.maxRecords else none : Option ℤ),
        0 < n := fun n hn => by
      split_ifs at hn with hpos
      · obtain rfl : request.maxRecords = n := Option.some.inj hn
        exact hpos
      · cases hn
    have hfetch : ∀ offset limit, l.firstBase ≤ offset → 0 < limit →
        fetchBatch request (s, root) offset limit
          = (.ok ((Paging.since Record.offset records offset).take limit.toNat), s, root) :=
      fun offset limit hoff hlimit => by
        unfold fetchBatch
        rw [read_of_open h hpart hread hoff hlimit]
        rfl
    have hloop := Paging.loop_eq hcons.pairwise hbatch hfetch hoff hwanted hlen
    unfold bounded
    simp only [hloop]
    split_ifs <;> rfl
  · obtain ⟨batches, rfl⟩ := Nat.exists_eq_succ_of_ne_zero hb.ne'
    have hfetch : ∀ limit, fetchBatch request (s, root) request.offset limit
        = (.error (.abort .outOfRange
        s!"offset {request.offset} is before this log starts ({l.firstBase})"), s, root) :=
          fun limit => by
      unfold fetchBatch
      rw [read_before h hpart hoff]
      rfl
    unfold bounded
    simp only [Paging.loop_error (hfetch _)]
    rfl

/-! ### A log that does not start at 0

Two records are left of a partition that had seven. They are read in batches
of one. -/

/-- The directory of a log whose first records are gone. -/
def lateDir : Dir :=
  ⟨AList.singleton 5 ⟨Record.framing.encAll [⟨5, 0, none, none⟩, ⟨6, 0, none, some []⟩], none⟩, ∅⟩

omit [Crc32] in
/-- In batches of one record. -/
theorem consume_in_pages_late : let _ := Crc32.zlib
    ∃ (s : Store) (root : Root),
      (bounded 1 ⟨"orders", 0, 5, false, 0⟩ 3 s root).map (fun out => out.1.map Message.offset)
          = some [5, 6]
        ∧ bounded 1 ⟨"orders", 0, 4, false, 0⟩ 3 s root = some ([], some (.abort .outOfRange
            "offset 4 is before this log starts (5)"), s, root) := by
  intro _
  obtain ⟨l, hl⟩ : ∃ l, (Log.init (.of lateDir) "data/orders/0" 1024).1 = .ok l := by
    cases hinit : (Log.init (.of lateDir) "data/orders/0" 1024).1 with
    | ok l => exact ⟨l, rfl⟩
    | error e =>
      have hnone : (Log.init (.of lateDir) "data/orders/0" 1024).1.toOption.isSome = true := by
        decide +kernel
      rw [hinit] at hnone
      cases hnone
  have hbase : (Log.init (.of lateDir) "data/orders/0" 1024).1.map Log.firstBase = .ok 5 := by
    decide +kernel
  have hread : (Log.init (.of lateDir) "data/orders/0" 1024).1.map (fun l => l.readFrom
      (Log.init (.of lateDir) "data/orders/0" 1024).2.dir 5)
      = .ok (.ok ⟨[⟨5, 0, none, none⟩, ⟨6, 0, none, some []⟩], none⟩) := by
    decide +kernel
  rw [hl] at hbase hread
  have hbase : l.firstBase = 5 := Except.ok.inj hbase
  let topic : Topic := ⟨"data", 1, .never, 1024, fun _ _ => true, ⟨0⟩,
    AList.singleton "orders" ⟨1, AList.singleton 0 ⟨l, 0⟩⟩⟩
  let s : Store := ⟨⟨1, 0, fun b => .ok s!"pyka-{b}", .modulo, Nat.one_pos⟩, topic, .init, true,
    false, []⟩
  let root : Root :=
    Root.empty.setPart "orders" 0 (Log.init (.of lateDir) "data/orders/0" 1024).2.dir
  have hreached : l.Reached (Log.init (.of lateDir) "data/orders/0" 1024).2.dir :=
    .init (Prod.ext hl rfl)
  have hopen : s.HasOpen root "orders" 0 l :=
    ⟨by decide +kernel, ⟨_, _, rfl, Nat.one_pos, rfl, rfl⟩, hreached⟩
  obtain ⟨records, hall, -, hpages, -⟩ :=
    @consume_in_pages _ s root ⟨"orders", 0, 5, false, 0⟩ 0 l hopen rfl 1 le_rfl
  obtain ⟨-, -, -, -, hbefore⟩ :=
    @consume_in_pages _ s root ⟨"orders", 0, 4, false, 0⟩ 0 l hopen rfl 1 le_rfl
  rw [hbase] at hall hpages hbefore
  obtain rfl : records = _ :=
    congrArg Read.records (Except.ok.inj (hall.symm.trans (Except.ok.inj hread)))
  refine ⟨s, root, ?_, hbefore (by decide) 3 (by decide)⟩
  rw [(hpages le_rfl).2 3 (by decide)]
  rfl

end Handler

end Pyka
