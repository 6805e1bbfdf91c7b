import Pyka.Cluster.Cluster

/-!
# Creating a topic on every broker

Nothing propagates the creation of a topic: every broker has to be told. A
record produced to a name that a broker does not know creates the topic there,
with the broker's own number of partitions, and no number is ever changed. So
what comes to a broker first settles its number (`Cluster.created_counts`):
brokers that are all told the same number agree on it unless a record came
first and the broker's own number is another one (`Cluster.creates_disagree`).

## By design

That topics come into being when they are written to is documented, and so is
that nothing passes between brokers. What follows is that the number a topic
has may differ from broker to broker, and with it the partition of a key: a
client that was told one number sends to a partition that another broker does
not have. The theorem says exactly when the numbers agree, in terms of what
came to each broker first, and of its default.

## How it is stated

A broker may be contacted in two ways about a topic, to create it and with a
record (`Contact`), and the contacts come to the brokers in any order.
`firstAt` finds the first that came to a broker, and `countAt` the number that
comes of it. Every broker is contacted at least once with a creation, since
all are told; what came before that decides. A record that is refused counts
as well: the topic is there after it (`Topic.Refused`).
-/

namespace Pyka

open Struct (Bytes)

namespace Cluster

/-- **What may come to a broker about a topic**: that it is to be created, or
a record, of whatever kind. -/
inductive Contact
  | create
  | produce (key value : Option Bytes) (timestamp correlationId partition : Option ℤ) (clock : ℤ)
      (elapsed : ℚ)

namespace Contact

/-- What the broker is asked by it. -/
def request (name : String) (n : ℕ) : Contact → Node.Request
  | create => .create name (some n)
  | produce key value timestamp correlationId partition clock elapsed =>
    .produce ⟨name, key, value, timestamp, correlationId, partition⟩ clock elapsed

/-- The number of partitions a new topic gets by it. -/
def count (n default : ℕ) : Contact → ℕ
  | create => n
  | produce .. => default

end Contact

variable {cl : Cluster}

/-- What comes to a broker first, of all that comes to any. -/
def firstAt (contacts : List (Fin cl.brokers × Contact)) (i : Fin cl.brokers) : Option Contact :=
  (contacts.find? fun e => e.1 = i).map Prod.snd

/-- The number of partitions that a broker comes to have, by what comes to it
first. -/
def countAt (n : ℕ) (defaults : Fin cl.brokers → ℕ) (contacts : List (Fin cl.brokers × Contact))
    (i : Fin cl.brokers) : ℕ :=
  match firstAt contacts i with
  | some contact => contact.count n (defaults i)
  | none => n

section Codec

variable [Crc32]

/-- All that comes to the brokers, in the order in which it does. -/
def contacted (cl : Cluster) (name : String) (n : ℕ) (contacts : List (Fin cl.brokers × Contact))
    (nodes : State cl) : State cl :=
  (cl.machine.run nodes (contacts.map fun e => .ask e.1 (e.2.request name n))).2

/-- **Every broker is up**, with its own default, and does not know the topic. -/
def Fresh (name : String) (defaults : Fin cl.brokers → ℕ) (nodes : State cl) : Prop :=
  ∀ i, (nodes i).root.metaFile name = none
    ∧ ∃ s, (nodes i).store = some s ∧ s.topic.defaultPartitions = defaults i

/-- A broker that is up, and what it knows of a topic. -/
def Knows (name : String) (default : ℕ) (n : Node) (count : Option ℕ) : Prop :=
  ∃ s c, n.store = some s ∧ n.Good c ∧ s.topic.holder.defaultPartitions = default
    ∧ c.counts name = count

variable {name : String} {default count n : ℕ} {node : Node}

/-- A node's topic has the number of partitions that it gives for it. -/
theorem Knows.of_metaFile {s : Store} {c : Catalog} (hgood : node.Good c) (hs : node.store = some s)
    (hd : s.topic.defaultPartitions = default) (hmeta : node.root.metaFile name = none) :
    Knows name default node none := by
  refine ⟨s, c, hs, hgood, hd, ?_⟩
  rw [hgood.stores.metaFile] at hmeta
  exact Option.map_eq_none_iff.mp hmeta

/-- **The first contact settles the number of partitions**, the others leave
it. -/
theorem Knows.step {known : Option ℕ} (hk : Knows name default node known)
    (hname : validateName name = .ok ()) (hn : 0 < n) (contact : Contact) :
    Knows name default (Node.machine.step node (.ask (contact.request name n))).2
      (known.or (some (contact.count n default))) := by
  obtain ⟨s, c, hs, hgood, hd, hcount⟩ := hk
  obtain ⟨store, root⟩ := node
  cases hs
  obtain ⟨s', v', answer, c', hstep, hgood', hr, -, hholder, -⟩ :=
    Node.ask_spec hgood (contact.request name n)
  refine ⟨s', c', by rw [hstep], by rw [hstep]; exact hgood', by rw [hholder]; exact hd, ?_⟩
  have hor : ∀ k, some (known.getD k) = known.or (some k) := fun k => by cases known <;> rfl
  have hcounted : ∀ partitions, c'.counts = c.counted s.topic.holder name partitions →
      s.topic.holder.countOf partitions = contact.count n default →
      c'.counts name = known.or (some (contact.count n default)) :=
        fun partitions hc' hcontact => by
    rw [hc', Catalog.counted_self hname, hcount, hcontact, hor]
  cases contact with
  | create =>
    have hr : Node.Responds s.ring s.topic.holder c (.create name (some n)) answer c' := hr
    exact hcounted (some n) hr.of_create.1 (if_neg hn.ne')
  | produce key value timestamp correlationId partition clock elapsed =>
    have hr : Node.Responds s.ring s.topic.holder c
      (.produce ⟨name, key, value, timestamp, correlationId, partition⟩
        clock elapsed) answer c' := hr
    refine hcounted none ?_ hd
    cases hr with
    | refused _ hcounts => exact hcounts
    | produced _ _ _ _ _ hcounts => exact hcounts

/-- **What all the contacts come to.** -/
theorem knows_contacted {nodes : State cl} {defaults : Fin cl.brokers → ℕ}
    {known : Fin cl.brokers → Option ℕ} (hk : ∀ i, Knows name (defaults i) (nodes i) (known i))
    (hname : validateName name = .ok ()) (hn : 0 < n) (contacts : List (Fin cl.brokers × Contact))
    (i : Fin cl.brokers) :
    Knows name (defaults i) (contacted cl name n contacts nodes i)
      ((known i).or ((firstAt contacts i).map fun contact => contact.count n (defaults i))) := by
  induction contacts generalizing nodes known with
  | nil =>
    show Knows name (defaults i) (nodes i) ((known i).or none)
    rw [Option.or_none]
    exact hk i
  | cons e contacts ih =>
    obtain ⟨j, contact⟩ := e
    have hstep : ∀ k, Knows name (defaults k)
        (Function.update nodes j (Node.machine.step (nodes j) (.ask (contact.request name n))).2 k)
        (if j = k then (known k).or (some (contact.count n (defaults k))) else known k) := by
      intro k
      by_cases hjk : j = k
      · subst hjk
        rw [Function.update_self, if_pos rfl]
        exact (hk j).step hname hn contact
      · rw [Function.update_of_ne (Ne.symm hjk), if_neg hjk]
        exact hk k
    have hrest := ih hstep
    unfold firstAt at hrest ⊢
    rw [List.find?_cons]
    by_cases hji : j = i
    · rw [if_pos hji, Option.or_assoc] at hrest
      rw [decide_eq_true hji]
      exact hrest
    · rw [if_neg hji] at hrest
      rw [decide_eq_false hji]
      exact hrest

/-- A broker that knows a topic says how many partitions it has, and routes
its keys by that. -/
theorem Knows.answers (hk : Knows name default node (some count))
    (hname : validateName name = .ok ()) :
    (Node.machine.step node (.ask (.partitionsOf name))).1 = .count (.ok count)
      ∧ (∀ key, (Node.machine.step node (.ask (.route name (some key)))).1
        = .routed (.ok (keyPartition key count)))
      ∧ ∀ table, (Node.machine.step node (.ask (.metadata name))).1 = .table (.ok table) →
        table.length = count := by
  obtain ⟨s, c, hs, hgood, hd, hcount⟩ := hk
  obtain ⟨store, root⟩ := node
  cases hs
  have hexisting := Catalog.existing_eq_ok (h := s.topic.holder) hname hcount
  refine ⟨?_, fun key => ?_, fun table htable => ?_⟩
  · obtain ⟨s', v', answer, c', hstep, -, hr, -⟩ := Node.ask_spec hgood (.partitionsOf name)
    rw [hstep]
    cases hr
    rw [hexisting]
  · obtain ⟨s', v', answer, c', hstep, -, hr, -⟩ := Node.ask_spec hgood (.route name (some key))
    rw [hstep]
    cases hr
    unfold Catalog.route
    rw [hexisting]
    rfl
  · obtain ⟨s', v', answer, c', hstep, -, hr, -⟩ := Node.ask_spec hgood (.metadata name)
    rw [hstep] at htable
    cases hr with
    | metadata _ _ hmeta =>
      cases htable
      obtain ⟨m, hm, htable⟩ := hmeta table rfl
      rw [hcount] at hm
      cases hm
      exact Handler.length_partitionMetadata htable

/-- Such a broker knows of no number as yet. -/
theorem Fresh.knows {setup : List (Act cl)} {defaults : Fin cl.brokers → ℕ}
    (hfresh : Fresh name defaults (cl.machine.run State.empty setup).2) (i : Fin cl.brokers) :
    Knows name (defaults i) ((cl.machine.run State.empty setup).2 i) none := by
  obtain ⟨cs, hcluster⟩ := (good_empty cl).run setup
  obtain ⟨hmeta, s, hs, hd⟩ := hfresh i
  exact .of_metaFile (hcluster.owned i).good hs hd hmeta

/-- **What comes to a broker first settles how many partitions it says a
topic has.** Brokers that do not know a topic are each told to create it with
`n` partitions, while records to it come to any of them. Each then says `n`,
unless a record came to it before: then it says its own default. -/
theorem created_counts (cl : Cluster) (setup : List (Act cl)) {name : String}
    {defaults : Fin cl.brokers → ℕ}
    (hfresh : Fresh name defaults (cl.machine.run State.empty setup).2)
    (hname : validateName name = .ok ()) {n : ℕ} (hn : 0 < n)
    (contacts : List (Fin cl.brokers × Contact)) (hall : ∀ i, (i, Contact.create) ∈ contacts) :
    (∀ i, let node := contacted cl name n contacts (cl.machine.run State.empty setup).2 i
      let count := countAt n defaults contacts i
      (Node.machine.step node (.ask (.partitionsOf name))).1 = .count (.ok count)
        ∧ (∀ key, (Node.machine.step node (.ask (.route name (some key)))).1
          = .routed (.ok (keyPartition key count)))
        ∧ ∀ table, (Node.machine.step node (.ask (.metadata name))).1 = .table (.ok table) →
          table.length = count)
      ∧ ((∀ i, countAt n defaults contacts i = n)
        ↔ ∀ i, firstAt contacts i = some .create ∨ defaults i = n) := by
  have hfirst : ∀ i, ∃ contact, firstAt contacts i = some contact := fun i => by
    cases hfind : contacts.find? fun e => e.1 = i with
    | none =>
      have hne := List.find?_eq_none.mp hfind _ (hall i)
      exact absurd (decide_eq_true rfl) hne
    | some e => exact ⟨e.2, by unfold firstAt; rw [hfind]; rfl⟩
  refine ⟨fun i => ?_, forall_congr' fun i => ?_⟩
  · have hk := knows_contacted hfresh.knows hname hn contacts i
    obtain ⟨contact, hcontact⟩ := hfirst i
    have hcount : countAt n defaults contacts i = contact.count n (defaults i) := by
      unfold countAt
      rw [hcontact]
    rw [hcontact, Option.none_or, Option.map_some, ← hcount] at hk
    exact hk.answers hname
  · obtain ⟨contact, hcontact⟩ := hfirst i
    unfold countAt
    rw [hcontact]
    cases contact with
    | create => simp [Contact.count]
    | produce => simp [Contact.count]

end Codec

/-! ## Two brokers

Two brokers whose default is one partition, and a topic that is to have two. -/

/-- Two brokers, by the remainder: partition 0 is the first one's, partition 1
the second one's. -/
abbrev pair : Cluster := ⟨2, fun b => .ok s!"pyka-{b}:9090", .modulo, Nat.two_pos⟩

/-- Who is at an address: the two brokers are where their rings say. -/
def pairHost (address : String) : Option (Fin pair.brokers) :=
  if address = "pyka-0:9090" then some 0 else if address = "pyka-1:9090" then some 1 else none

/-- What both are started with: one partition is the default. -/
def pairSettings : Settings :=
  ⟨"data", 1, .never, ⟨2 ^ 30, default_max_segment_bytes⟩, false, Nat.one_pos⟩

/-- Two brokers that both have a topic with two partitions. -/
def pairSetup : List (Act pair) :=
  [.start 0 pairSettings, .start 1 pairSettings]
    ++ [0, 1].map fun i => .ask i (.create "orders" (some 2))

/-- Both are up, and know of no topic. -/
theorem fresh_pair [Crc32] (name : String) :
    Fresh name (fun _ => 1)
      (pair.machine.run State.empty [.start 0 pairSettings, .start 1 pairSettings]).2 := by
  have hstart : ∀ i : Fin pair.brokers,
      (Node.machine.step .empty (.start (pair.ring i) pairSettings)).2.root.metaFile name = none
        ∧ ∃ s, (Node.machine.step .empty (.start (pair.ring i) pairSettings)).2.store = some s
          ∧ s.topic.defaultPartitions = 1 := by
    intro i
    obtain ⟨s, v', c', hstep, hgood, ⟨-, hholder, -⟩, hcounts, -⟩ :=
      Node.start_spec stores_empty (pair.ring i) pairSettings
    have hstep : Node.machine.step .empty (.start (pair.ring i) pairSettings) = _ := hstep
    rw [hstep]
    refine ⟨?_, s, rfl, congrArg Holder.defaultPartitions hholder⟩
    rw [hgood.stores.metaFile, hcounts]
    rfl
  intro i
  match i with
  | 0 => exact hstart 0
  | 1 => exact hstart 1

/-- One broker is asked to create the topic, the other gets a record for it
before it is asked: the one has the number asked for, the other its default. -/
theorem created_counts_pair : let _ := Crc32.zlib
    let contacts : List (Fin pair.brokers × Contact) :=
      [(1, .create), (0, .produce none (some []) none none none 0 0), (0, .create)]
    let answer (i : Fin pair.brokers) : Node.Answer :=
      (Node.machine.step (contacted pair "orders" 2 contacts
        (pair.machine.run State.empty [.start 0 pairSettings, .start 1 pairSettings]).2 i)
        (.ask (.partitionsOf "orders"))).1
    (∀ i, answer i = .count (.ok (countAt 2 (fun _ => 1) contacts i)))
      ∧ answer 0 = .count (.ok 1) ∧ answer 1 = .count (.ok 2) := by
  intro _ contacts answer
  have hall : ∀ i, (i, Contact.create) ∈ contacts := fun i => match i with
    | 0 => List.mem_cons_of_mem _ (List.mem_cons_of_mem _ List.mem_cons_self)
    | 1 => List.mem_cons_self
  have hname : validateName "orders" = .ok () := by decide +kernel
  obtain ⟨hanswer, -⟩ := created_counts pair [.start 0 pairSettings, .start 1 pairSettings]
    (fresh_pair "orders") hname (show 0 < 2 by decide) contacts hall
  exact ⟨fun i => (hanswer i).1, (hanswer 0).1, (hanswer 1).1⟩

/-- **Brokers told the same number may disagree**: a record came to one of
them first. -/
theorem creates_disagree : let _ := Crc32.zlib
    let contacts : List (Fin pair.brokers × Contact) :=
      [(0, .produce none (some []) none none none 0 0), (0, .create), (1, .create)]
    let answer (i : Fin pair.brokers) : Node.Answer :=
      (Node.machine.step (contacted pair "orders" 2 contacts
        (pair.machine.run State.empty [.start 0 pairSettings, .start 1 pairSettings]).2 i)
        (.ask (.partitionsOf "orders"))).1
    (∀ i, (i, Contact.create) ∈ contacts) ∧ answer 0 = .count (.ok 1)
      ∧ answer 1 = .count (.ok 2) := by
  intro _ contacts answer
  have hname : validateName "orders" = .ok () := by decide +kernel
  have hanswer : ∀ {i contact}, firstAt contacts i = some contact →
      answer i = .count (.ok (contact.count 2 1)) := fun {i contact} hfirst => by
    have hk := knows_contacted (fresh_pair "orders").knows hname (show 0 < 2 by decide) contacts i
    rw [hfirst] at hk
    exact (hk.answers hname).1
  exact ⟨fun i => match i with
    | 0 => List.mem_cons_of_mem _ List.mem_cons_self
    | 1 => List.mem_cons_of_mem _ (List.mem_cons_of_mem _ List.mem_cons_self),
    hanswer (i := 0) rfl, hanswer (i := 1) rfl⟩

end Cluster

end Pyka
