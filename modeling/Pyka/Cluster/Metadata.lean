import Pyka.Cluster.Creation
import Pyka.Topic.Refused

/-!
# Every broker answers alike

`Metadata` for any topics, or for all that a broker knows. What it says of a
topic comes from the ring, which brokers share, and from the topic's partition
count, which they do not: a create is told to each of them, or is not. So two
brokers answer alike just when the same topics are on their disks
(`Cluster.metadata_agrees_iff`), whatever else they have been through and
whichever topics they have open.

## An honest gap

The docstring of `Metadata` says that every broker answers it identically, and
goes on to name a gap: a broker only knows the topics it has been asked about.
The theorem has the gap as its condition. Two brokers agree on all topics if
and only if every `topic.json` is the same on both, its absence included.
Nothing else counts: not which records they have, not which topics are open,
not how often they were started again.

## The order of the loop

The names are gone through one by one, and the first that cannot be answered
ends the call, unless all topics were asked for, where one that has gone in
the meantime is passed over. Asking for the count of a topic opens it, so the
store changes on the way; what is said does not depend on that, since opening
changes no count. So the answer is a function of the ring and the counts
(`Handler.tell`), which is compared between brokers.
-/

namespace Pyka

/-- What `Metadata` says of a topic: each partition with its owner and the
owner's address. -/
structure TopicMetadata where
  name : String
  partitions : List (ℕ × ℕ × String)

/-- The topics, and the cluster as the broker that answers sees it. -/
structure MetadataResponse where
  topics : List TopicMetadata
  brokerCount : ℕ
  brokerId : ℕ

/-- What it says of the cluster, and not of who says it. -/
def MetadataResponse.said (r : MetadataResponse) : List TopicMetadata × ℕ :=
    (r.topics, r.brokerCount)

namespace Handler

section Codec

variable [Crc32]

/-- The loop of `Metadata`. What was asked for by name must be there; of all
topics, one that is not is passed over. -/
def topicsMetadata (asked : Bool) :
    List String → Store → Volume → Except Failure (List TopicMetadata) × Store × Volume
  | [], s, v => (.ok [], s, v)
  | name :: names, s, v =>
    match s.partitionsOf v name with
    | (.error (.unknownTopic _), s, v) =>
      if asked then (.error (.abort .notFound s!"no topic {pyRepr name} on this broker"), s, v)
      else topicsMetadata asked names s v
    | (.error e, s, v) =>
      (.error (if e.isValueError then .abort .invalidArgument e.text else .unhandled e), s, v)
    | (.ok partitions, s, v) =>
      match partitionMetadata s.ring name partitions with
      | .error e => (.error (.unhandled e), s, v)
      | .ok table =>
        let (res, s, v) := topicsMetadata asked names s v
        (res.map (⟨name, table⟩ :: ·), s, v)

/-- **`Metadata`**, of the topics asked for or else of all. -/
def metadataOf (s : Store) (v : Volume) (topics : List String) :
    Except Failure MetadataResponse × Store × Volume :=
  let names := if topics.isEmpty then Topic.names v else topics
  let (res, s, v) := topicsMetadata (!topics.isEmpty) names s v
  (res.map (⟨·, s.ring.brokers, s.ring.me⟩), s, v)

/-- For one topic it is what a client asks for. -/
theorem metadataOf_single (s : Store) (v : Volume) (topic : String) :
    (metadataOf s v [topic]).1.map MetadataResponse.topics
        = (metadata s v topic).1.map (fun table => [⟨topic, table⟩])
      ∧ (metadataOf s v [topic]).2 = (metadata s v topic).2 := by
  unfold metadataOf metadata
  simp only [List.isEmpty_cons, Bool.false_eq_true, if_false, Bool.not_false, topicsMetadata,
    if_true]
  cases s.partitionsOf v topic with
  | mk res rest =>
  obtain ⟨s', v'⟩ := rest
  cases res with
  | error e => cases e <;> exact ⟨rfl, rfl⟩
  | ok n =>
    simp only
    cases partitionMetadata s'.ring topic n with
    | error e => exact ⟨rfl, rfl⟩
    | ok table => exact ⟨rfl, rfl⟩

end Codec

/-! ## What the answer depends on

The answer without a store: by a ring, and the partition counts that there
are. -/

/-- The partition count of a topic, from those that there are. -/
def countIn (counts : String → Option ℕ) (name : String) : Except PyError ℕ := do
  validateName name
  match counts name with
  | none => .error (.unknownTopic name)
  | some n => return n

/-- **What `Metadata` has to say**, by a ring and the partition counts. -/
def tell (ring : Ring) (counts : String → Option ℕ) (asked : Bool) :
    List String → Except Failure (List TopicMetadata)
  | [] => .ok []
  | name :: names =>
    match countIn counts name with
    | .error (.unknownTopic _) =>
      if asked then .error (.abort .notFound s!"no topic {pyRepr name} on this broker")
      else tell ring counts asked names
    | .error e => .error (if e.isValueError then .abort .invalidArgument e.text else .unhandled e)
    | .ok partitions =>
      match partitionMetadata ring name partitions with
      | .error e => .error (.unhandled e)
      | .ok table => (tell ring counts asked names).map (⟨name, table⟩ :: ·)

/-- Asking a catalog for a topic is asking for its count. -/
theorem existing_fst (c : Catalog) (h : Holder) (name : String) :
    (c.existing h name).1 = countIn c.counts name := by
  unfold Catalog.existing countIn
  cases validateName name with
  | error e => rfl
  | ok u =>
    simp only
    cases c.counts name <;> rfl

/-- Brokers of one cluster have the same to say of a topic with so many
partitions. -/
theorem partitionMetadata_congr {r r' : Ring} (hb : r.brokers = r'.brokers)
    (hp : r.placement = r'.placement) (ha : r.address = r'.address) (name : String) (n : ℕ) :
    partitionMetadata r name n = partitionMetadata r' name n := by
  obtain ⟨brokers, me, address, placement, hme⟩ := r
  obtain ⟨brokers', me', address', placement', hme'⟩ := r'
  subst hb hp ha
  rfl

/-- Where every broker has an address, so has every partition. -/
theorem exists_partitionMetadata {ring : Ring}
    (haddr : ∀ b < ring.brokers, ∃ a, ring.address b = .ok a)
    (name : String) (n : ℕ) : ∃ table, partitionMetadata ring name n = .ok table := by
  cases hmap : partitionMetadata ring name n with
  | ok table => exact ⟨table, rfl⟩
  | error e =>
    exfalso
    obtain ⟨p, -, herr⟩ := mapM_eq_error hmap
    obtain ⟨b, hb, hfor⟩ := ring.brokerFor_eq_ok name (Int.natCast_nonneg p)
    obtain ⟨a, ha⟩ := haddr b hb
    have hto : ring.addressOf b = .ok a := by
      unfold Ring.addressOf raiseIf
      rw [if_neg (not_not.mpr ⟨Int.natCast_nonneg b, Int.ofNat_lt.mpr hb⟩)]
      exact ha
    rw [hfor] at herr
    have herr : (do return (p, b, ← ring.addressOf b) : Except PyError (ℕ × ℕ × String))
        = .error e :=
      herr
    rw [hto] at herr
    cases herr

/-- And so of any topics, if they have the same counts. -/
theorem tell_congr {r r' : Ring} (hb : r.brokers = r'.brokers) (hp : r.placement = r'.placement)
    (ha : r.address = r'.address) (counts : String → Option ℕ) (asked : Bool)
    (names : List String) :
    tell r counts asked names = tell r' counts asked names := by
  induction names with
  | nil => rfl
  | cons name names ih =>
    unfold tell
    rw [ih]
    simp only [partitionMetadata_congr hb hp ha]

/-- **The answer for one topic asked for** tells whether it is there, and how many
partitions it has. -/
theorem tell_single {ring : Ring} (haddr : ∀ b < ring.brokers, ∃ a, ring.address b = .ok a)
    (counts : String → Option ℕ) {name : String} (hname : validateName name = .ok ()) :
    (counts name = none ∧ ∃ f, tell ring counts true [name] = .error f)
      ∨ ∃ table : List (ℕ × ℕ × String), counts name = some table.length
        ∧ tell ring counts true [name] = .ok [⟨name, table⟩] := by
  have hcount : countIn counts name
      = match counts name with | none => .error (.unknownTopic name) | some n => .ok n := by
    unfold countIn
    rw [hname]
    rfl
  unfold tell
  rw [hcount]
  cases hc : counts name with
  | none => exact Or.inl ⟨rfl, _, rfl⟩
  | some n =>
    obtain ⟨table, htable⟩ := exists_partitionMetadata haddr name n
    refine Or.inr ⟨table, by rw [length_partitionMetadata htable], ?_⟩
    simp only [htable]
    rfl

variable [Crc32]

/-- **`Metadata` says what the ring and the counts say.** -/
theorem topicsMetadata_spec {s : Store} {v : Volume} {c : Catalog} (h : s.Rep v c) (asked : Bool)
    (names : List String) : (topicsMetadata asked names s v).1 = tell s.ring c.counts asked names
      ∧ (topicsMetadata asked names s v).2.1.ring = s.ring := by
  induction names generalizing s v c with
  | nil => exact ⟨rfl, rfl⟩
  | cons name names ih =>
    have hf := Store.partitionsOf_follows h name
    have hcounts : (c.existing s.topic.holder name).2.counts = c.counts :=
      Catalog.existing_counts (show c.existing s.topic.holder name
        = ((c.existing s.topic.holder name).1, (c.existing s.topic.holder name).2) from rfl)
    have hanswer := hf.answer.trans (existing_fst c s.topic.holder name)
    have hring := hf.ring
    have hrest := ih hf.rep
    unfold topicsMetadata tell
    cases hparts : s.partitionsOf v name with
    | mk res rest =>
    obtain ⟨s', v'⟩ := rest
    rw [hparts] at hanswer hring hrest
    simp only at hanswer hring hrest
    rw [hring, hcounts] at hrest
    rw [← hanswer]
    cases res with
    | error e =>
      cases e with
      | unknownTopic message =>
        cases asked with
        | true => exact ⟨rfl, hring⟩
        | false => exact hrest
      | _ => exact ⟨rfl, hring⟩
    | ok n =>
      simp only [hring]
      cases partitionMetadata s.ring name n with
      | error e => exact ⟨rfl, hring⟩
      | ok table => exact ⟨congrArg (Except.map _) hrest.1, hrest.2⟩

/-- So does the whole call, with names or without. -/
theorem metadataOf_spec {s : Store} {v : Volume} {c : Catalog} (h : s.Rep v c)
    (topics : List String) :
    (metadataOf s v topics).1.map MetadataResponse.said
      = (tell s.ring c.counts (!topics.isEmpty)
        (if topics.isEmpty then Topic.names v else topics)).map
        (·, s.ring.brokers) := by
  obtain ⟨htell, hring⟩ := topicsMetadata_spec h (!topics.isEmpty)
    (if topics.isEmpty then Topic.names v else topics)
  unfold metadataOf
  rw [← htell]
  simp only [hring]
  cases (topicsMetadata (!topics.isEmpty) (if topics.isEmpty then Topic.names v else topics) s v).1
    <;> rfl

end Handler

namespace Cluster

variable [Crc32] {cl : Cluster}

/-- **Brokers answer alike just when the same topics are on their disks.** Whatever
the brokers of a cluster have been asked, however often they were started again
and whatever they have open: what two of them say of any topics, and of all,
differs exactly if a `topic.json` does. -/
theorem metadata_agrees_iff (acts : List (Act cl))
    (haddr : ∀ b < cl.brokers, ∃ a, cl.address b = .ok a)
    {i j : Fin cl.brokers} {s s' : Store}
    (hi : ((cl.machine.run State.empty acts).2 i).store = some s)
    (hj : ((cl.machine.run State.empty acts).2 j).store = some s') :
    (∀ topics, (Handler.metadataOf s (.of ((cl.machine.run State.empty acts).2 i).root)
          topics).1.map
          MetadataResponse.said
        = (Handler.metadataOf s' (.of ((cl.machine.run State.empty acts).2 j).root) topics).1.map
          MetadataResponse.said)
      ↔ ∀ name, ((cl.machine.run State.empty acts).2 i).root.metaFile name
        = ((cl.machine.run State.empty acts).2 j).root.metaFile name := by
  obtain ⟨cs, hgood⟩ := (good_empty cl).run acts
  generalize (cl.machine.run State.empty acts).2 = nodes at hi hj hgood ⊢
  have hrep := (hgood.owned i).good.rep hi
  have hrep' := (hgood.owned j).good.rep hj
  have hring : s.ring = cl.ring i := (hgood.owned i).sameRing s hi
  have hring' : s'.ring = cl.ring j := (hgood.owned j).sameRing s' hj
  have hstores := (hgood.owned i).good.stores
  have hstores' := (hgood.owned j).good.stores
  constructor
  · intro h name
    rw [hstores.metaFile, hstores'.metaFile]
    congr 1
    cases hname : validateName name with
    | error e =>
      -- no topic has such a name
      have hnone : ∀ {root : Root} {c : Catalog}, root.Stores c → c.counts name = none :=
          fun hs => by
        by_contra hsome
        obtain ⟨n, hn⟩ := Option.ne_none_iff_exists'.mp hsome
        rw [(hs.names hn).1] at hname
        cases hname
      rw [hnone hstores, hnone hstores']
    | ok u =>
      have hsaid := h [name]
      rw [Handler.metadataOf_spec hrep, Handler.metadataOf_spec hrep', hring, hring'] at hsaid
      simp only [List.isEmpty_cons, Bool.not_false, Bool.false_eq_true, if_false] at hsaid
      have htell : ∀ k : Fin cl.brokers, _ := fun k =>
        Handler.tell_single (show ∀ b < (cl.ring k).brokers, ∃ a, (cl.ring k).address b = .ok a
          from haddr) (cs k).counts hname
      rcases htell i with ⟨hc, f, ht⟩ | ⟨table, hc, ht⟩
      · rcases htell j with ⟨hc', f', ht'⟩ | ⟨table', hc', ht'⟩
        · rw [hc, hc']
        · rw [ht, ht'] at hsaid
          cases hsaid
      · rcases htell j with ⟨hc', f', ht'⟩ | ⟨table', hc', ht'⟩
        · rw [ht, ht'] at hsaid
          cases hsaid
        · rw [ht, ht'] at hsaid
          cases hsaid
          rw [hc, hc']
  · intro h topics
    have hcounts : (cs i).counts = (cs j).counts := by
      funext name
      have hmeta := h name
      rw [hstores.metaFile, hstores'.metaFile] at hmeta
      exact Option.map_injective TopicJson.dumps_injective hmeta
    have hnames : Topic.names (.of (nodes i).root) = Topic.names (.of (nodes j).root) :=
      Topic.names_congr h
    have htell := fun names => Handler.tell_congr
      (show (cl.ring i).brokers = (cl.ring j).brokers from
        rfl) rfl rfl (cs j).counts (!topics.isEmpty) names
    rw [Handler.metadataOf_spec hrep, Handler.metadataOf_spec hrep', hring, hring', hcounts, hnames,
      htell]
    rfl

omit [Crc32] in
/-- A create that only one of two brokers was told. -/
theorem metadata_agrees_pair : let _ := Crc32.zlib
    let i : Fin pair.brokers := ⟨0, pair.brokers_pos⟩
    let j : Fin pair.brokers := ⟨1, Nat.lt_succ_self 1⟩
    let nodes := (pair.machine.run State.empty
      [.start i pairSettings, .start j pairSettings, .ask i (.create "orders" (some 2))]).2
    ∃ s s', (nodes i).store = some s ∧ (nodes j).store = some s'
      ∧ ∃ topics, (Handler.metadataOf s (.of (nodes i).root) topics).1.map MetadataResponse.said
        ≠ (Handler.metadataOf s' (.of (nodes j).root) topics).1.map MetadataResponse.said := by
  intro _ i j nodes
  have hi : (nodes i).store.isSome = true := by decide +kernel
  have hj : (nodes j).store.isSome = true := by decide +kernel
  have hmeta : (nodes i).root.metaFile "orders" ≠ (nodes j).root.metaFile "orders" := by
    decide +kernel
  obtain ⟨s, hs⟩ := Option.isSome_iff_exists.mp hi
  obtain ⟨s', hs'⟩ := Option.isSome_iff_exists.mp hj
  have haddr : ∀ b < pair.brokers, ∃ a, pair.address b = .ok a := fun b _ => ⟨_, rfl⟩
  exact ⟨s, s', hs, hs', not_forall.mp fun h =>
    hmeta ((metadata_agrees_iff _ haddr hs hs').mp h "orders")⟩

end Cluster

end Pyka
