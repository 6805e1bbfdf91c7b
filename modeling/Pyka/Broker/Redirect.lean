import Pyka.Broker.Node

/-!
# Where a producer is sent

An append for a partition that another broker owns is refused, and the answer
names the partition, its owner and the owner's address. For a record without a
partition the service works the partition out once more, with another call of
the partitioner. For a key that comes to the same. Without one it is the next
partition in turn, so the answer is about another partition, which this broker
may own (`Handler.redirect_iff`).

## What a redirect is for

The source says why the broker names the owner: a client whose routing is
stale gets on in one round trip. A redirect is right if it serves that
(`Handler.Right`): it names the partition that was refused, the broker that
the ring gives it to, and that broker's address, and it is not the broker that
was asked. Whether it is right can be told from the text alone, since a text
names one partition only; the first section shows that the number can be read
back from it.

## The exact condition

Given a topic that the broker knows, with `n` partitions, a produce request is
never answered with a wrong redirect if it has a partition or a key, or if `n`
is 1. Without these the two calls of the partitioner name two partitions that
follow each other in turn, and the answer is wrong whenever there is one: if
the first is this broker's, there is no redirect, and if the owner of the
second has no address, there is another failure. The address is what the ring
is configured with, and may be missing.
-/

namespace Pyka

open Struct (Bytes)

/-! ## The text of an answer

Which partition a text names. A number stands between two fixed pieces and
ends where the digits end. -/

/-- **A text says one partition only.** -/
theorem partition_of_text {p q : ℕ} {x y : String}
    (h : "partition " ++ toString (p : ℤ) ++ (" of " ++ x)
      = "partition " ++ toString (q : ℤ) ++ (" of " ++ y)) : p = q := by
  have hdigits : ∀ k : ℕ, (toString (k : ℤ)).toList = Nat.toDigits 10 k := fun k => by
    show (Int.repr (Int.ofNat k)).toList = _
    simp [Int.repr, Nat.repr]
  have hlist := congrArg String.toList h
  simp only [String.toList_append, List.append_assoc] at hlist
  have hlist := List.append_cancel_left hlist
  rw [hdigits, hdigits] at hlist
  -- a number ends where the next character is no digit
  have htake : ∀ (k : ℕ) (rest : List Char),
      ((Nat.toDigits 10 k) ++ (" of ".toList ++ rest)).takeWhile Char.isDigit = Nat.toDigits 10 k :=
    fun k rest => by
      rw [List.takeWhile_append_of_pos (TopicJson.isDigit_toDigits k)]
      exact List.append_nil _
  have hsame : Nat.toDigits 10 p = Nat.toDigits 10 q := by
    rw [← htake p x.toList, hlist, htake q y.toList]
  rw [← Nat.ofDigitChars_ten_toDigits (n := p), hsame, Nat.ofDigitChars_ten_toDigits]

/-- A partition is stored on another broker: the text of `PartitionNotLocal`. -/
def notStored (topic : String) (partition : ℤ) : String :=
  s!"partition {partition} of {pyRepr topic} is not stored here"

/-- A partition belongs to another broker: the details of the refusal. -/
def belongsText (topic : String) (partition : ℤ) (owner : ℕ) (address : String) : String :=
  s!"partition {partition} of {pyRepr topic} belongs to broker {owner} "
    ++ s!"at {address} — refresh metadata"

/-- The first text names one partition. -/
theorem notStored_injective {topic : String} {p q : ℕ} (h : notStored topic p = notStored topic q) :
    p = q := by
  refine partition_of_text (x := pyRepr topic ++ " is not stored here")
    (y := pyRepr topic ++ " is not stored here") ?_
  simp only [← String.append_assoc]
  exact h

/-- And so does the second. -/
theorem belongsText_injective {topic : String} {p q owner owner' : ℕ} {address address' : String}
    (h : belongsText topic p owner address = belongsText topic q owner' address') : p = q := by
  have hsplit : ∀ (p owner : ℕ) (rest : String),
      s!"partition {(p : ℤ)} of {pyRepr topic} belongs to broker {owner} " ++ rest
        = "partition " ++ toString (p : ℤ)
          ++ (" of " ++ (pyRepr topic
          ++ (" belongs to broker " ++ (toString owner ++ (" " ++ rest))))) := by
    intro p owner rest
    simp only [← String.append_assoc]
    rfl
  unfold belongsText at h
  rw [hsplit, hsplit] at h
  exact partition_of_text h

/-! ## The refusal

What an append for a partition of another broker comes to, for a catalog and
for the service, and that nothing else comes to it. -/

variable [Crc32]

namespace Catalog

variable {c : Catalog} {h : Holder} {name : String} {n : ℕ} {key value : Option Bytes}
  {timestamp partition : Option ℤ} {clock : ℤ}

/-- **An append for a partition of another broker.** -/
theorem append_notStored (hname : validateName name = .ok ()) (hn : c.counts name = some n) {p : ℕ}
    (htarget : (target c.turn key partition n).1 = p) (hp : p < n) (ho : h.owns name p = false) :
    c.append h name key value timestamp partition clock
      = (.error (.partitionNotLocal (notStored name p)),
        { c.touch h name n with turn := (target c.turn key partition n).2 }) := by
  have hopen : c.openAs h name none = (n, c.touch h name n) := by
    unfold openAs
    rw [hn]
    rfl
  have hcheck : checkPartition h name n (p : ℤ)
      = .error (.partitionNotLocal (notStored name p)) := by
    unfold checkPartition raiseIf
    rw [if_neg (by omega), Int.toNat_natCast, ho]
    rfl
  unfold append
  simp only [hname, hopen, turn_touch, htarget, hcheck]

/-- No other append is refused like this. -/
theorem append_partitionNotLocal (hn : c.counts name = some n) {msg : String}
    (happ : (c.append h name key value timestamp partition clock).1
      = .error (.partitionNotLocal msg)) :
    ∃ p : ℕ, (target c.turn key partition n).1 = p ∧ p < n ∧ h.owns name p = false := by
  cases hc : c.append h name key value timestamp partition clock with
  | mk answer c' =>
  rw [hc] at happ
  obtain rfl : answer = .error (.partitionNotLocal msg) := happ
  rcases append_cases hc with ⟨e, hname, he, -⟩ | ⟨m, c₁, -, hopen, happ⟩
  · cases he
    cases validateName_error hname
  · obtain ⟨rfl, hsame, -⟩ := openAs_spec hopen
    obtain rfl := hsame n hn
    rw [turn_touch] at happ
    rcases happ with ⟨e, hcheck, he, -⟩ | ⟨p, r, -, -, -, -, ⟨e, henc, he, -⟩ | ⟨-, he, -⟩⟩
    · cases he
      generalize (target c.turn key partition n).1 = q at hcheck ⊢
      unfold checkPartition raiseIf at hcheck
      by_cases hr : 0 ≤ q ∧ q < n
      · rw [if_neg (not_not.mpr hr)] at hcheck
        obtain ⟨p, rfl⟩ := Int.eq_ofNat_of_zero_le hr.1
        refine ⟨p, rfl, Int.ofNat_lt.mp hr.2, ?_⟩
        by_contra ho
        rw [Int.toNat_natCast, if_pos (Bool.not_eq_false _ ▸ ho)] at hcheck
        cases hcheck
      · rw [if_pos hr] at hcheck
        cases hcheck
    · cases he
      rcases Record.encode_error henc with he | ⟨_, he⟩ <;> cases he
    · cases he

/-- A topic that is there routes its keys. -/
theorem route_eq_ok (hname : validateName name = .ok ()) (hn : c.counts name = some n) :
    (c.route h name key).1 = .ok (partitionFor c.turn key n).1 := by
  unfold route
  rw [existing_eq_ok hname hn]
  rfl

end Catalog

namespace Handler

variable {s : Store} {v : Volume} {c : Catalog} {request : ProduceRequest} {n : ℕ}

omit [Crc32] in
/-- **The answer that names the owner** of a partition, where the owner has an
address. -/
theorem belongsTo_eq (ring : Ring) (topic : String) (q : ℕ) :
    ∃ owner, ring.brokerFor topic q = .ok owner
      ∧ ((∃ e, ring.addressOf owner = .error e ∧ belongsTo ring topic q = .unhandled e)
        ∨ ∃ address, ring.addressOf owner = .ok address
          ∧ belongsTo ring topic q
            = .abort .failedPrecondition (belongsText topic q owner address)) := by
  obtain ⟨owner, -, hfor⟩ := ring.brokerFor_eq_ok topic (Int.natCast_nonneg q)
  refine ⟨owner, hfor, ?_⟩
  cases haddr : ring.addressOf owner with
  | error e =>
    refine Or.inl ⟨e, rfl, ?_⟩
    simp only [belongsTo, hfor, haddr, bind, Except.bind]
  | ok address =>
    refine Or.inr ⟨address, rfl, ?_⟩
    simp only [belongsTo, hfor, haddr, bind, Except.bind, pure, Except.pure]
    rfl

/-- **The partition that an answer names**: the one of the request, or what
the partitioner says when it is asked once more. -/
def named (turn : ℕ) (request : ProduceRequest) (n : ℕ) : ℤ :=
  match request.partition with
  | some p => p
  | none => (Catalog.partitionFor (Catalog.partitionFor turn request.key n).2 request.key n).1

/-- **A record for a partition of another broker** is refused, and the answer
is about the partition that is named. -/
theorem append_notStored (h : s.Rep v c) (hn : c.counts request.topic = some n) {p : ℕ}
    (htarget : (Catalog.target c.turn request.key request.partition n).1 = p) (hp : p < n)
    (ho : s.ring.ownsPartition request.topic p = false) (clock : ℤ) (elapsed : ℚ) :
    (s.append v request.topic request.key request.value request.timestamp request.partition clock
        elapsed).1 = .error (.partitionNotLocal (notStored request.topic p))
      ∧ (append s v request clock elapsed).1
        = .error (belongsTo s.ring request.topic (named c.turn request n)) := by
  have hname := (h.topic.stores.names hn).1
  have hf := Store.append_follows h request.topic request.key request.value request.timestamp
    request.partition clock elapsed
  have howns : s.topic.holder.owns = s.ring.ownsPartition := h.owns
  rw [Catalog.append_notStored hname hn htarget hp (by rw [howns]; exact ho)] at hf
  refine ⟨hf.answer, ?_⟩
  have hring := hf.ring
  unfold append
  cases happ : s.append v request.topic request.key request.value request.timestamp
      request.partition clock elapsed with
  | mk res rest =>
  obtain ⟨s', v'⟩ := rest
  rw [happ] at hf hring
  obtain rfl : res = .error (.partitionNotLocal (notStored request.topic p)) := hf.answer
  have hring : s'.ring = s.ring := hring
  refine congrArg Except.error ?_
  cases hpart : request.partition with
  | some q =>
    unfold named
    simp only [redirect, hpart, hring]
  | none =>
    have hroute := Store.route_follows hf.rep request.topic request.key
    have hcount : (c.touch s.topic.holder request.topic n).counts request.topic = some n :=
      Function.update_self ..
    have hanswer : (s'.route v' request.topic request.key).1
        = .ok (Catalog.partitionFor (Catalog.target c.turn request.key request.partition n).2
            request.key n).1 :=
      hroute.answer.trans (Catalog.route_eq_ok hname hcount)
    have hring' : (s'.route v' request.topic request.key).2.1.ring = s'.ring := hroute.ring
    unfold redirect named
    rw [hpart] at hanswer ⊢
    cases hr : s'.route v' request.topic request.key with
    | mk res rest =>
      obtain ⟨s'', v''⟩ := rest
      rw [hr] at hanswer hring'
      obtain rfl : res = .ok _ := hanswer
      show belongsTo s''.ring request.topic _ = _
      rw [show s''.ring = s.ring from hring'.trans hring]
      rfl

/-- No other record is answered like this. -/
theorem append_failedPrecondition (h : s.Rep v c) (hn : c.counts request.topic = some n) {clock : ℤ}
    {elapsed : ℚ} {details : String}
    (happ : (append s v request clock elapsed).1 = .error (.abort .failedPrecondition details)) :
    ∃ p : ℕ, (Catalog.target c.turn request.key request.partition n).1 = p ∧ p < n
      ∧ s.ring.ownsPartition request.topic p = false := by
  have hf := Store.append_follows h request.topic request.key request.value request.timestamp
    request.partition clock elapsed
  have hanswer := hf.answer
  unfold append at happ
  cases hr : s.append v request.topic request.key request.value request.timestamp
      request.partition clock elapsed with
  | mk res rest =>
  rw [hr] at hanswer happ
  cases res with
  | ok place => cases happ
  | error e =>
    cases e with
    | partitionNotLocal msg =>
      have hlocal := Catalog.append_partitionNotLocal hn hanswer.symm
      rwa [show s.topic.holder.owns = s.ring.ownsPartition from h.owns] at hlocal
    | _ => cases happ

/-- **A redirect that is right**: it names the partition that was refused, its
owner and the owner's address, and the owner is another broker. -/
def Right (s : Store) (v : Volume) (request : ProduceRequest) (clock : ℤ) (elapsed : ℚ)
    (details : String) : Prop :=
  ∃ (p owner : ℕ) (address : String),
    (s.append v request.topic request.key request.value request.timestamp request.partition clock
        elapsed).1 = .error (.partitionNotLocal (notStored request.topic p))
      ∧ s.ring.brokerFor request.topic p = .ok owner ∧ s.ring.addressOf owner = .ok address
      ∧ owner ≠ s.ring.me ∧ details = belongsText request.topic p owner address

/-- **When a redirect is right.** On a broker that knows a topic with `n`
partitions, whatever the partitioner's turn: for a request with a partition or
a key, or where the topic has only one. Without these it is right where there
is no redirect: this broker owns the partition whose turn it is, or the owner
of the next one has no address. -/
theorem redirect_iff (h : s.Rep v c) (request : ProduceRequest) {n : ℕ}
    (hn : c.counts request.topic = some n) (clock : ℤ) (elapsed : ℚ) :
    (∀ details, (produce s v request clock elapsed).1
        = .error (.abort .failedPrecondition details) →
        Right s v request clock elapsed details)
      ↔ request.partition ≠ none ∨ request.key ≠ none ∨ n = 1
        ∨ s.ring.ownsPartition request.topic (s.topic.partitioner.next % n) = true
        ∨ ∀ owner address, s.ring.brokerFor request.topic ((s.topic.partitioner.next + 1) % n : ℕ)
            = .ok owner → s.ring.addressOf owner ≠ .ok address := by
  have hpos := (h.topic.stores.names hn).2
  have hproduce : ∀ failure, (produce s v request clock elapsed).1 = .error failure
      ↔ (append s v request clock elapsed).1 = .error failure := fun failure => by
    unfold produce
    cases append s v request clock elapsed with
    | mk res rest =>
      cases res with
      | ok place => exact ⟨fun h => (by cases h), fun h => by cases h⟩
      | error failure' => exact ⟨fun h => by cases h; rfl, fun h => by cases h; rfl⟩
  simp only [hproduce, h.topic.turn]
  constructor
  · intro hright
    by_contra hnot
    push Not at hnot
    obtain ⟨hpart, hkey, hone, ho, owner', address', hfor', haddr'⟩ := hnot
    have htarget : (Catalog.target c.turn request.key request.partition n).1
        = (c.turn % n : ℕ) := by
      rw [hpart, hkey]
      rfl
    obtain ⟨hrefused, hanswer⟩ := append_notStored h hn htarget (Nat.mod_lt _ hpos)
      (Bool.eq_false_iff.mpr ho) clock elapsed
    have hnamed : named c.turn request n = ((c.turn + 1) % n : ℕ) := by
      unfold named
      rw [hpart, hkey]
      rfl
    rw [hnamed] at hanswer
    obtain ⟨owner, hfor, ⟨e, haddr, -⟩ | ⟨address, -, hbelongs⟩⟩ :=
      belongsTo_eq s.ring request.topic ((c.turn + 1) % n)
    · rw [hfor'] at hfor
      cases hfor
      rw [haddr'] at haddr
      cases haddr
    · rw [hbelongs] at hanswer
      obtain ⟨p, _, _, happ, -, -, -, hdetails⟩ := hright _ hanswer
      -- the partition that was refused is not the one that is named
      rw [hrefused] at happ
      have hp : c.turn % n = p :=
        notStored_injective (PyError.partitionNotLocal.inj (Except.error.inj happ))
      have hq : (c.turn + 1) % n = p := belongsText_injective hdetails
      have hdvd : (c.turn + 1 - c.turn) % n = 0 := Nat.sub_mod_eq_zero_of_mod_eq (hq.trans hp.symm)
      rw [Nat.add_sub_cancel_left] at hdvd
      exact hone (Nat.dvd_one.mp (Nat.dvd_of_mod_eq_zero hdvd))
  · intro hcond details hanswer
    obtain ⟨p, htarget, hp, ho⟩ := append_failedPrecondition h hn hanswer
    obtain ⟨hrefused, hbelongs⟩ := append_notStored h hn htarget hp ho clock elapsed
    rw [hbelongs] at hanswer
    by_cases hsame : named c.turn request n = p
    · rw [hsame] at hanswer
      obtain ⟨owner, hfor, ⟨e, -, htext⟩ | ⟨address, haddr, htext⟩⟩ :=
        belongsTo_eq s.ring request.topic p
      · rw [htext] at hanswer
        cases hanswer
      · rw [htext] at hanswer
        cases hanswer
        refine ⟨p, owner, address, hrefused, hfor, haddr, fun hme => ?_, rfl⟩
        have howner := s.ring.ownsPartition_eq request.topic p
        unfold Ring.owns at howner
        rw [hfor, ho] at howner
        have hfalse : decide (owner = s.ring.me) = false := Except.ok.inj howner
        exact absurd hme (of_decide_eq_false hfalse)
    · -- the partitioner has been asked twice
      have hpart : request.partition = none := by
        by_contra hsome
        obtain ⟨q, hq⟩ := Option.ne_none_iff_exists'.mp hsome
        unfold named at hsame
        rw [hq] at htarget hsame
        exact hsame htarget
      have hkey : request.key = none := by
        by_contra hsome
        obtain ⟨key, hk⟩ := Option.ne_none_iff_exists'.mp hsome
        unfold named at hsame
        rw [hpart, hk] at htarget hsame
        exact hsame htarget
      unfold named at hsame hanswer
      rw [hpart, hkey] at htarget hsame hanswer
      have hturn : c.turn % n = p := Int.ofNat.inj htarget
      rcases hcond with hsome | hsome | hone | howns | haddr
      · exact absurd hpart hsome
      · exact absurd hkey hsome
      · refine absurd ?_ hsame
        rw [← hturn, hone]
        exact congrArg Nat.cast (show (c.turn + 1) % 1 = c.turn % 1 by omega)
      · rw [hturn, ho] at howns
        cases howns
      · obtain ⟨owner, hfor, ⟨e, -, htext⟩ | ⟨address, haddress, -⟩⟩ :=
          belongsTo_eq s.ring request.topic ((c.turn + 1) % n)
        · have hanswer : Except.error (belongsTo s.ring request.topic ((c.turn + 1) % n : ℕ)) = _ :=
            hanswer
          rw [htext] at hanswer
          cases hanswer
        · exact absurd haddress (haddr owner address hfor)

/-! ## A wrong one

The second of two brokers is asked to store a record without a key, at a turn
that is the first broker's. -/

/-- The second of two brokers, just started, and told to create a topic with
two partitions. -/
def secondBroker : Node :=
  (Node.machine.run .empty
    [.start ⟨2, 1, fun b => .ok s!"pyka-{b}:9092", .modulo, by decide⟩
        ⟨"data", 2, .never, ⟨2 ^ 30, by decide⟩, false, by decide⟩,
      .ask (.create "orders" none)]).2

/-- It stands for a catalog, as every broker does. -/
theorem good_secondBroker : ∃ c, secondBroker.Good c :=
  Node.run_good (show Node.empty.Good .empty from stores_empty) _

/-- A record without a partition, with or without a key. -/
def unrouted (key : Option Bytes) : ProduceRequest := ⟨"orders", key, some [1], none, none, none⟩

omit [Crc32] in
/-- **A broker sends the producer to itself**: the turn is partition 0's,
which is the first broker's, and the answer is about partition 1, which is its
own. -/
theorem redirect_wrong : let _ := Crc32.zlib
    ∃ s, secondBroker.store = some s
      ∧ ∃ details, (produce s (.of secondBroker.root) (unrouted none) 0 0).1
          = .error (.abort .failedPrecondition details)
        ∧ ¬Right s (.of secondBroker.root) (unrouted none) 0 0 details := by
  intro _
  have hrun : (secondBroker.store.map fun s =>
      ((s.append (.of secondBroker.root) "orders" none (some [1]) none none 0 0).1,
        (produce s (.of secondBroker.root) (unrouted none) 0 0).1))
      = some (.error (.partitionNotLocal (notStored "orders" 0)),
          .error (.abort .failedPrecondition (belongsText "orders" 1 1 "pyka-1:9092"))) := by
    decide +kernel
  obtain ⟨s, hs, hanswers⟩ := Option.map_eq_some_iff.mp hrun
  refine ⟨s, hs, _, congrArg Prod.snd hanswers,
    fun ⟨p, owner, address, hrefused, _, _, _, hdetails⟩ => ?_⟩
  have hzero := (congrArg Prod.fst hanswers).symm.trans hrefused
  have hp : 0 = p := notStored_injective (PyError.partitionNotLocal.inj (Except.error.inj hzero))
  have hq : 1 = p := belongsText_injective hdetails
  omega

omit [Crc32] in
theorem redirect_iff_keyed : let _ := Crc32.zlib
    ∃ s, secondBroker.store = some s
      ∧ ∀ details, (produce s (.of secondBroker.root) (unrouted (some [7])) 0 0).1
          = .error (.abort .failedPrecondition details) →
        Right s (.of secondBroker.root) (unrouted (some [7])) 0 0 details := by
  intro _
  obtain ⟨c, hgood⟩ := good_secondBroker
  obtain ⟨s, hs⟩ := Option.isSome_iff_exists.mp
    (show secondBroker.store.isSome = true by decide +kernel)
  have hcount : c.counts "orders" = some 2 := hgood.stores.count_of (by decide +kernel)
  exact ⟨s, hs, (redirect_iff (hgood.rep hs) (unrouted (some [7])) hcount 0 0).mpr
    (Or.inr (Or.inl (Option.some_ne_none _)))⟩

end Handler

end Pyka
