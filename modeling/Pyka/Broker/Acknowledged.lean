import Pyka.Broker.Node

/-!
# What a produce stream acknowledges is what it stores

A `ProduceStream` has no error for a single record, so its first refusal ends
it, and all that its client can go by is the responses that came before. They
are enough: `ProduceStream` does what `Produce` does, request after request,
until one is refused (`Handler.produceStream_eq_run`), and of its requests
exactly those with a response are stored, each where its response says
(`Handler.produceStream_acknowledged`).

## Who is told what

The source names it a known limitation that one bad record aborts the whole
stream, and says why it can be lived with: the client has a response for
everything that landed, so it knows how far it got. That is what is shown, for
any list of requests and a broker that has been through anything. The
responses are a front of the requests, in their order, each with its request's
correlation id, and the requests behind the one that was refused have not been
looked at.

The refused request may leave its topic behind, which is created before the
partition and the record are looked at. It leaves no record.

Both directions are needed for a client to go on: that no record is stored
without a response lets it send the rest again, and that none has a response
without being stored lets it leave the others out. A client that hears nothing
of a response because the connection broke is in another position
(`Client.Retries`).
-/

namespace Pyka

open Struct (Bytes)

/-- The record a request comes to at an offset, with the time of the broker's
clock where it has none of its own. -/
def ProduceRequest.stored (request : ProduceRequest) (clock offset : ℤ) : Record :=
  ⟨offset, request.timestamp.getD clock, request.key, request.value⟩

namespace Handler

/-- **The records acknowledged of a partition**: of the requests with their
responses, those that name it, in order. -/
def acknowledged (topic : String) (p : ℕ)
    (pairs : List ((ProduceRequest × ℤ × ℚ) × ProduceResponse)) :
    List Record :=
  pairs.flatMap fun e =>
    if e.1.1.topic = topic ∧ e.2.partition = (p : ℤ) then [e.1.1.stored e.1.2.1 e.2.offset] else []

section Codec

variable [Crc32]

/-- `Produce`, asked again and again, of one store. -/
def producing : Machine (Store × Volume) (ProduceRequest × ℤ × ℚ)
    (Except Failure ProduceResponse) where
  step := fun (s, v) (request, clock, elapsed) => produce s v request clock elapsed

/-- **A stream is produce requests one after the other**, as far as the
first refusal and no further. -/
theorem produceStream_eq_run (s : Store) (v : Volume) (requests : List (ProduceRequest × ℤ × ℚ)) :
    ∃ responses failure s' v', produceStream s v requests = (responses, failure, s', v')
      ∧ (failure = none ↔ responses.length = requests.length)
      ∧ producing.run (s, v) (requests.take (responses.length + 1))
          = (responses.map Except.ok ++ failure.toList.map Except.error, (s', v')) := by
  induction requests generalizing s v with
  | nil => exact ⟨[], none, s, v, rfl, by simp, rfl⟩
  | cons asked requests ih =>
    obtain ⟨request, clock, elapsed⟩ := asked
    have hrun : ∀ is, producing.run (s, v) ((request, clock, elapsed) :: is)
        = ((produce s v request clock elapsed).1
            :: (producing.run (produce s v request clock elapsed).2 is).1,
          (producing.run (produce s v request clock elapsed).2 is).2) := fun _ => rfl
    cases hprod : produce s v request clock elapsed with
    | mk res rest =>
    obtain ⟨s₁, v₁⟩ := rest
    rw [hprod] at hrun
    cases res with
    | error failure =>
      refine ⟨[], some failure, s₁, v₁, by simp only [produceStream, hprod], by simp, ?_⟩
      rw [List.length_nil, List.take_succ_cons, List.take_zero, hrun]
      rfl
    | ok response =>
      obtain ⟨responses, failure, s', v', hstream, hnone, hanswers⟩ := ih s₁ v₁
      refine ⟨response :: responses, failure, s', v',
        by simp only [produceStream, hprod, hstream], ?_, ?_⟩
      · rw [hnone, List.length_cons, List.length_cons, Nat.add_right_cancel_iff]
      · rw [List.length_cons, List.take_succ_cons, hrun, hanswers]
        rfl

/-- A stream gives no more responses than there are requests, and as many
where it does not fail. -/
theorem length_produceStream (s : Store) (v : Volume) (requests : List (ProduceRequest × ℤ × ℚ)) :
    (produceStream s v requests).1.length ≤ requests.length
      ∧ ((produceStream s v requests).2.1 = none →
        (produceStream s v requests).1.length = requests.length) := by
  obtain ⟨responses, failure, s', v', hstream, hnone, hanswers⟩ := produceStream_eq_run s v requests
  rw [hstream]
  refine ⟨?_, hnone.mp⟩
  have hlen := producing.length_run (s, v) (requests.take (responses.length + 1))
  rw [hanswers, List.length_append, List.length_map, List.length_take] at hlen
  show responses.length ≤ requests.length
  omega

variable {s : Store} {v : Volume} {c : Catalog}

/-- **One produce request**: it is refused and no record is added, or it is
answered with the place at which its record has been added. -/
theorem produce_spec (h : s.Rep v c) (request : ProduceRequest) (clock : ℤ) (elapsed : ℚ) :
    ∃ answer s' v' c', produce s v request clock elapsed = (answer, s', v') ∧ s'.Rep v' c'
      ∧ ((∃ failure, answer = .error failure ∧ ∀ name q, c'.records name q = c.records name q)
        ∨ ∃ p : ℕ, answer = .ok ⟨p, (c.records request.topic p).length, request.correlationId⟩
          ∧ ∀ name q, c'.records name q = if name = request.topic ∧ q = p
              then c.records request.topic p
                ++ [request.stored clock (c.records request.topic p).length]
              else c.records name q) := by
  obtain ⟨answer, c', hf, -, hout⟩ := append_spec h request clock elapsed
  refine ⟨answer.map fun placed => ⟨placed.1, placed.2, request.correlationId⟩,
    (append s v request clock elapsed).2.1, (append s v request clock elapsed).2.2, c', ?_,
      hf.rep, ?_⟩
  · rw [← hf.answer]
    rfl
  · rcases hout with ⟨failure, rfl, hset⟩ | ⟨p, r, rfl, -, htimestamp, hkey, hvalue, hadds⟩
    · exact Or.inl ⟨failure, rfl, hset.records⟩
    · have hr : r = request.stored clock (c.records request.topic p).length := by
        obtain ⟨offset, timestamp, key, value⟩ := r
        cases htimestamp
        cases hkey
        cases hvalue
        rw [show offset = _ from hadds.offset]
        rfl
      refine Or.inr ⟨p, ?_, fun name q => ?_⟩
      · rw [hadds.offset]
        rfl
      · rw [hadds.records, hr]

/-- **What a stream adds**: to every partition the records acknowledged of it,
and each of them is at the place its response names. By induction on the
requests. -/
theorem produceStream_spec (h : s.Rep v c) (requests : List (ProduceRequest × ℤ × ℚ)) :
    ∃ responses failure s' v' c', produceStream s v requests = (responses, failure, s', v')
      ∧ s'.Rep v' c'
      ∧ (∀ name q, c'.records name q
          = c.records name q ++ acknowledged name q (requests.zip responses))
      ∧ ∀ e ∈ requests.zip responses, ∃ p offset : ℕ,
          e.2 = ⟨p, offset, e.1.1.correlationId⟩
          ∧ (c'.records e.1.1.topic p)[offset]? = some (e.1.1.stored e.1.2.1 offset) := by
  induction requests generalizing s v c with
  | nil => exact ⟨[], none, s, v, c, rfl, h, fun name q => (List.append_nil _).symm, fun e he => by
    cases he⟩
  | cons asked requests ih =>
    obtain ⟨request, clock, elapsed⟩ := asked
    obtain ⟨answer, s₁, v₁, c₁, hprod, hrep, hout⟩ := produce_spec h request clock elapsed
    rcases hout with ⟨failure, rfl, hsame⟩ | ⟨p, rfl, hadded⟩
    · refine ⟨[], some failure, s₁, v₁, c₁, by simp only [produceStream, hprod], hrep,
        fun name q => ?_, fun e he => by cases he⟩
      rw [hsame]
      exact (List.append_nil _).symm
    · obtain ⟨responses, failure, s', v', c', hstream, hrep', hrecords, hplaced⟩ := ih hrep
      refine ⟨⟨p, (c.records request.topic p).length, request.correlationId⟩ :: responses, failure,
        s', v', c', by simp only [produceStream, hprod, hstream], hrep', fun name q => ?_,
        fun e he => ?_⟩
      · unfold acknowledged at hrecords ⊢
        rw [List.zip_cons_cons, List.flatMap_cons, hrecords, hadded, ← List.append_assoc]
        by_cases hc : name = request.topic ∧ q = p
        · obtain ⟨rfl, rfl⟩ := hc
          rw [if_pos ⟨rfl, rfl⟩, if_pos ⟨rfl, rfl⟩]
        · rw [if_neg hc, if_neg fun hc' => hc ⟨hc'.1.symm, Int.ofNat.inj hc'.2.symm⟩,
            List.append_nil]
      · rw [List.zip_cons_cons, List.mem_cons] at he
        rcases he with rfl | he
        · -- what comes later is behind it
          refine ⟨p, (c.records request.topic p).length, rfl, ?_⟩
          show (c'.records request.topic p)[_]? = _
          rw [hrecords, hadded, if_pos ⟨rfl, rfl⟩, List.append_assoc,
            List.getElem?_append_right le_rfl, Nat.sub_self]
          rfl
        · exact hplaced e he

/-- **A produce stream lands exactly what it acknowledges.** Whatever a
broker has been through, and whatever is sent to it on one stream: the stream
gives a response for each request that `Produce` would have taken, up to the
first it would have refused, and goes no further. Every response carries its
request's correlation id and the place at which the record is stored from
then on; and each partition has the records it had before and, in order,
those of the requests with a response, and no others. -/
theorem produceStream_acknowledged {acts : List Node.Act} {root : Root}
    (hrun : (Node.machine.run .empty acts).2 = ⟨some s, root⟩)
    (requests : List (ProduceRequest × ℤ × ℚ)) :
    ∃ responses failure s' v', produceStream s (.of root) requests = (responses, failure, s', v')
      ∧ (failure = none ↔ responses.length = requests.length)
      ∧ producing.run (s, .of root) (requests.take (responses.length + 1))
          = (responses.map Except.ok ++ failure.toList.map Except.error, (s', v'))
      ∧ (∀ e ∈ requests.zip responses, ∃ p offset : ℕ,
          e.2 = ⟨p, offset, e.1.1.correlationId⟩
          ∧ (v'.root.records e.1.1.topic p)[offset]? = some (e.1.1.stored e.1.2.1 offset))
      ∧ ∀ name q, v'.root.records name q
          = root.records name q ++ acknowledged name q (requests.zip responses) := by
  obtain ⟨c, hgood⟩ := Node.run_good (n := .empty) (c := .empty) stores_empty acts
  rw [hrun] at hgood
  have hrep : s.Rep (.of root) c := hgood.rep rfl
  obtain ⟨responses, failure, s', v', hstream, hnone, hanswers⟩ :=
    produceStream_eq_run s (.of root) requests
  obtain ⟨_, _, _, _, c', hstream', hrep', hrecords, hplaced⟩ := produceStream_spec hrep requests
  cases hstream.symm.trans hstream'
  have hafter : ∀ name q, v'.root.records name q = c'.records name q :=
    hrep'.topic.stores.records_eq
  have hbefore : ∀ name q, root.records name q = c.records name q := hrep.topic.stores.records_eq
  refine ⟨responses, failure, s', v', hstream, hnone, hanswers, fun e he => ?_, fun name q => ?_⟩
  · obtain ⟨p, offset, heq, hget⟩ := hplaced e he
    exact ⟨p, offset, heq, by rw [hafter]; exact hget⟩
  · rw [hafter, hbefore, hrecords]

end Codec

/-! ### A stream with a bad record in it

Of four requests, the third is refused. The fourth would not have been. -/

/-- A stream of four, the third with a name that no topic can have. -/
def badThird : List (ProduceRequest × ℤ × ℚ) :=
  [(⟨"orders", some [107], some [97], none, some 7, none⟩, 10, 0),
   (⟨"clicks", some [107], some [98], none, none, none⟩, 11, 0),
   (⟨"../bad", none, some [99], none, some 8, none⟩, 12, 0),
   (⟨"orders", some [107], some [100], none, some 9, none⟩, 13, 0)]

/-- A broker on its own, just started. -/
def justStarted : List Node.Act :=
  [.start ⟨1, 0, fun b => .ok s!"pyka-{b}", .modulo, Nat.one_pos⟩
    ⟨"data", 1, .never, ⟨2 ^ 30, default_max_segment_bytes⟩, false, Nat.one_pos⟩]

theorem produceStream_acknowledged_bad_third : let _ := Crc32.zlib
    ∃ s root s' v', (Node.machine.run .empty justStarted).2 = ⟨some s, root⟩
      ∧ produceStream s (.of root) badThird = ([⟨0, 0, some 7⟩, ⟨0, 0, none⟩],
          some (.abort .invalidArgument "invalid topic name: '../bad'"), s', v')
      ∧ v'.root.records "orders" 0 = [⟨0, 10, some [107], some [97]⟩]
      ∧ v'.root.records "clicks" 0 = [⟨0, 11, some [107], some [98]⟩] := by
  intro _
  have hout : (Node.machine.run .empty justStarted).2.store.map (fun s =>
      let out := produceStream s (.of (Node.machine.run .empty justStarted).2.root) badThird
      (out.1, out.2.1)) = some ([⟨0, 0, some 7⟩, ⟨0, 0, none⟩],
        some (.abort .invalidArgument "invalid topic name: '../bad'")) := by
    decide +kernel
  have hempty : ∀ name ∈ ["orders", "clicks"],
      (Node.machine.run .empty justStarted).2.root.records name 0 = [] := by
    decide +kernel
  cases hrun : (Node.machine.run .empty justStarted).2 with
  | mk store root =>
  rw [hrun] at hout hempty
  cases store with
  | none => cases hout
  | some s =>
    obtain ⟨responses, failure, s', v', hstream, -, -, -, hrecords⟩ :=
      produceStream_acknowledged hrun badThird
    have hout := Option.some.inj hout
    simp only [hstream, Prod.mk.injEq] at hout
    obtain ⟨rfl, rfl⟩ := hout
    refine ⟨s, root, s', v', rfl, hstream, ?_, ?_⟩
    · rw [hrecords, hempty "orders" (by decide)]
      rfl
    · rw [hrecords, hempty "clicks" (by decide)]
      rfl

end Handler

end Pyka
