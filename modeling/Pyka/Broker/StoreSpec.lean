import Pyka.Broker.Handler
import Pyka.Topic.TopicSpec

/-!
# The store and the service do what the catalog does

`Store.Rep` is `Topic.Rep` of a store's registry, whose partitions are those
the ring gives to this broker. What the registry follows the store follows
(`Rep.lift`), so the lemmas of `Topic.TopicSpec` carry over one by one; of the
store itself only the registry and the tail ever change.

## Opening

To open a store is to create every topic on disk, which opens those that are
there, and then to look for orphans. `open_spec` says what comes of it: the
catalog has the topics and records it had, the orphans are the directories
that the ring gives to others, and the store is ready unless there are some
and they are not allowed. It raises nothing: over a root that stores a catalog
there is no file to fail on.

## The service

The requests of the service that are refused settle the catalog: no record is
added, and a partition that gets a directory is one of this broker's
(`Handler.append_spec`, `Handler.read_spec`). What is answered is what the
catalog answers. The other direction is `append_answers` and `read_answers`: a
request that nothing speaks against is answered, so a client that has waited
in vain has not been overlooked.

Whether a record can be stored is said without carrying out the append
(`Store.Takes`). That is the condition which theorems about streams and
clients have in their statements, where a condition on what `append` returns
would say nothing.
-/

namespace Pyka

open Struct (Bytes)

variable [Crc32]

namespace Store

/-- **A store over a data root that stands for a catalog.** Its registry
stores what the ring gives to this broker, which is how it was made. -/
structure Rep (s : Store) (v : Volume) (c : Catalog) : Prop where
  topic : s.topic.Rep v c
  owns : s.topic.owns = s.ring.ownsPartition

/-- **An operation after which the store stands for a catalog**; of the
store only the registry and the tail have changed. -/
structure Follows {α : Type} (s : Store) (v : Volume) (out : α × Store × Volume)
    (answer : α) (c : Catalog) : Prop where
  answer : out.1 = answer
  rep : out.2.1.Rep out.2.2 c
  same : out.2.1 = { s with topic := out.2.1.topic, tail := out.2.1.tail }
  holder : out.2.1.topic.holder = s.topic.holder
  always : ∀ {P}, Root.Stable P → v.Always P → out.2.2.Always P

variable {s : Store} {v : Volume} {c c' : Catalog}

/-- An operation that changes nothing keeps the relation. -/
theorem Rep.follows {α : Type} (h : s.Rep v c) (answer : α) :
    Follows s v (answer, s, v) answer c :=
  ⟨rfl, h, rfl, rfl, fun _ hv => hv⟩

/-- What holds after one operation holds after one more. -/
theorem Follows.trans {α β : Type} {out : α × Store × Volume} {answer : α}
    (h : Follows s v out answer c) {out' : β × Store × Volume} {answer' : β}
    (h' : Follows out.2.1 out.2.2 out' answer' c') : Follows s v out' answer' c' where
  answer := h'.answer
  rep := h'.rep
  same := by
    have h₁ := h.same
    have h₂ := h'.same
    rw [h₁] at h₂
    exact h₂
  holder := h'.holder.trans h.holder
  always hP hv := h'.always hP (h.always hP hv)

/-- The ring is settled when the process starts. -/
theorem Follows.ring {α : Type} {out : α × Store × Volume} {answer : α}
    (h : Follows s v out answer c) : out.2.1.ring = s.ring := by
  rw [h.same]

/-- The orphans are found when the store opens, and not looked for again. -/
theorem Follows.orphans {α : Type} {out : α × Store × Volume} {answer : α}
    (h : Follows s v out answer c) : out.2.1.orphans = s.orphans := by
  rw [h.same]

/-- No request makes a store ready that is not. -/
theorem Follows.ready {α : Type} {out : α × Store × Volume} {answer : α}
    (h : Follows s v out answer c) : out.2.1.ready = s.ready := by
  rw [h.same]

/-- What the registry follows, the store follows, with whatever tail: no event
is on disk. -/
theorem Rep.lift {α : Type} (h : s.Rep v c) {out : Except PyError α × Topic × Volume}
    {answer : Except PyError α} (hf : Topic.Follows s.topic v out answer c') (tail : Tail) :
    Follows s v (out.1, { s with topic := out.2.1, tail }, out.2.2) answer c' where
  answer := hf.answer
  rep := ⟨hf.rep, by
    have : out.2.1.owns = s.topic.owns := congrArg Holder.owns hf.holder
    exact this.trans h.owns⟩
  same := rfl
  holder := hf.holder
  always := hf.always

/-- Creating a topic is the catalog's creating. -/
theorem create_follows (h : s.Rep v c) (name : String) (partitions : Option ℕ) :
    Follows s v (s.create v name partitions) (c.create s.topic.holder name partitions).1
      (c.create s.topic.holder name partitions).2 :=
  h.lift (Topic.create_follows h.topic name partitions) s.tail

/-- So is asking how many partitions it has. -/
theorem partitionsOf_follows (h : s.Rep v c) (name : String) :
    Follows s v (s.partitionsOf v name) (c.existing s.topic.holder name).1
      (c.existing s.topic.holder name).2 :=
  h.lift (Topic.partitionsOf_follows h.topic name) s.tail

/-- And asking where a key belongs. -/
theorem route_follows (h : s.Rep v c) (name : String) (key : Option Bytes) :
    Follows s v (s.route v name key) (c.route s.topic.holder name key).1
      (c.route s.topic.holder name key).2 :=
  h.lift (Topic.route_follows h.topic name key) s.tail

/-- An append as well, whether somebody is woken or not. -/
theorem append_follows (h : s.Rep v c) (name : String) (key value : Option Bytes)
    (timestamp partition : Option ℤ) (clock : ℤ) (elapsed : ℚ) :
    Follows s v (s.append v name key value timestamp partition clock elapsed)
      (c.append s.topic.holder name key value timestamp partition clock).1
      (c.append s.topic.holder name key value timestamp partition clock).2 := by
  have hf := Topic.append_follows h.topic name key value timestamp partition clock elapsed
  unfold append
  cases happ : s.topic.append v name key value timestamp partition clock elapsed with
  | mk res rest =>
    obtain ⟨topic, v'⟩ := rest
    rw [happ] at hf
    cases res with
    | error e => exact h.lift hf s.tail
    | ok placed => exact h.lift hf (s.tail.notify name placed.1)

/-- The records read, as many as asked for. A limit that is not positive is
none. -/
theorem read_follows (h : s.Rep v c) (name : String) (offset partition limit : ℤ) :
    Follows s v (s.read v name offset partition limit)
      ((c.readFrom s.topic.holder name offset partition).1.map fun rs =>
        if 0 < limit ∧ limit ≤ rs.length then rs.take limit.toNat else rs)
      (c.readFrom s.topic.holder name offset partition).2 := by
  have hf := Topic.readFrom_follows h.topic name offset partition
  have hlift := h.lift hf s.tail
  refine ⟨?_, hlift.rep, rfl, hlift.holder, hlift.always⟩
  unfold read
  simp only [hf.answer]
  cases (c.readFrom s.topic.holder name offset partition).1 with
  | error e => rfl
  | ok rs =>
    simp only [Except.map, Except.bind, Read.upTo]
    split_ifs <;> rfl

/-! ## What is stored

Whether a record can be stored is decided by what the caller asks for and by
what the broker was before: nothing that the append itself computes. -/

/-- **A record that can be stored**: its topic has a valid name, its partition
is one that the topic has and the ring gives to this broker, and it can be
encoded. -/
def Takes (s : Store) (root : Root) (request : ProduceRequest) (clock : ℤ) : Prop :=
  validateName request.topic = .ok ()
    ∧ ∃ p : ℕ, (Catalog.target s.topic.partitioner.next request.key request.partition
        (s.topic.countOn root request.topic)).1 = p
      ∧ p < s.topic.countOn root request.topic ∧ s.ring.ownsPartition request.topic p = true
      ∧ Record.Encodable ⟨(root.records request.topic p).length, request.timestamp.getD clock,
          request.key, request.value⟩

/-- The records read back from the disk are those of the catalog. -/
theorem Rep.records_eq {root : Root} (h : s.Rep (.of root) c) (topic : String) (p : ℕ) :
    root.records topic p = c.records topic p := h.topic.stores.records_eq topic p

/-- **The registry appends exactly the records that can be stored.** -/
theorem Rep.takes_iff {root : Root} (h : s.Rep (.of root) c) (request : ProduceRequest) (clock : ℤ)
    (elapsed : ℚ) :
    (∃ place, (s.topic.append (.of root) request.topic request.key request.value request.timestamp
        request.partition clock elapsed).1 = .ok place) ↔ s.Takes root request clock := by
  have hf := Topic.append_follows h.topic request.topic request.key request.value request.timestamp
    request.partition clock elapsed
  rw [hf.answer, Catalog.append_isOk_iff]
  unfold Takes
  simp only [show s.topic.countOn root request.topic = _ from h.topic.countOn_eq _, h.records_eq,
    h.topic.turn]
  rw [show s.topic.holder.owns = s.ring.ownsPartition from h.owns]

/-! ## Opening and closing

What the beginning and the end of a process come to, for a process that has
its time to end. -/

omit [Crc32] in
/-- The topics on disk are those with a `topic.json`. -/
theorem mem_names_iff (v : Volume) (name : String) :
    name ∈ Topic.names v ↔ validateName name = .ok () ∧ (v.root.metaFile name).isSome := by
  unfold Topic.names
  rw [(List.perm_insertionSort _ _).mem_iff, List.mem_filter, Bool.and_eq_true, isValidName_iff]
  refine ⟨fun hn => hn.2, fun hn => ⟨?_, hn⟩⟩
  rw [← AList.mem_keys, ← AList.lookup_isSome]
  have hsome := hn.2
  unfold Root.metaFile at hsome
  cases hl : v.root.lookup name with
  | none => rw [hl] at hsome; cases hsome
  | some dir => rfl

/-- So they are the topics of the catalog that is stored. -/
theorem mem_names {root : Root} (hv : v.root = root) (h : root.Stores c) (name : String) :
    name ∈ Topic.names v ↔ (c.counts name).isSome := by
  subst hv
  rw [mem_names_iff, h.metaFile, Option.isSome_map]
  refine ⟨fun hn => hn.2, fun hn => ⟨?_, hn⟩⟩
  obtain ⟨n, hn'⟩ := Option.isSome_iff_exists.mp hn
  exact (h.names hn').1

/-- **Opening what is there** adds no topic and no record. By induction on the
list of names, each of which is a topic's. -/
theorem createAll_spec (names : List String) {t : Topic} (h : t.Rep v c)
    (hnames : ∀ name ∈ names, (c.counts name).isSome) :
    ∃ t' v' c', createAll names t v = (.ok (), t', v') ∧ t'.Rep v' c' ∧ t'.holder = t.holder
      ∧ c.Settles t.holder c' ∧ c'.counts = c.counts
      ∧ ∀ {P}, Root.Stable P → v.Always P → v'.Always P := by
  induction names generalizing t v c with
  | nil => exact ⟨t, v, c, rfl, h, rfl, .refl _ _ c.turn, rfl, fun _ hv => hv⟩
  | cons name names ih =>
    obtain ⟨n, hn⟩ := Option.isSome_iff_exists.mp (hnames name List.mem_cons_self)
    obtain ⟨hname, -⟩ := h.stores.names hn
    have hf := Topic.create_follows h name none
    have hcreate : c.create t.holder name none = (.ok n, c.touch t.holder name n) := by
      unfold Catalog.create Catalog.openAs
      rw [hname, hn]
      rfl
    rw [hcreate] at hf
    have hcounts : (c.touch t.holder name n).counts = c.counts := by
      rw [Catalog.counts_touch, ← hn, Function.update_eq_self]
    cases ht : t.create v name none with
    | mk res rest =>
    obtain ⟨t₁, v₁⟩ := rest
    rw [ht] at hf
    have hres : res = .ok n := hf.answer
    subst hres
    obtain ⟨t', v', c', hgo, hrep, hholder, hset, hcounts', halways⟩ := ih hf.rep (by
      rw [hcounts]
      exact fun name' hn' => hnames name' (List.mem_cons_of_mem _ hn'))
    have hholder₁ : t₁.holder = t.holder := hf.holder
    refine ⟨t', v', c', ?_, hrep, hholder.trans hholder₁,
      (Catalog.Settles.touch fun m hm => Option.some.inj (hm.symm.trans hn)).trans ?_,
      hcounts'.trans hcounts, fun hP hv => halways hP (hf.always hP hv)⟩
    · simp only [createAll, ht, hgo]
    · have hset : Catalog.Settles t₁.holder (c.touch t.holder name n) c' := hset
      rw [hholder₁] at hset
      exact hset

omit [Crc32] in
/-- No topic is among the orphans without a partition. -/
theorem ne_nil_of_mem_findOrphans {names : List String} {e : String × List ℕ}
    (h : e ∈ s.findOrphans v names) : e.2 ≠ [] := by
  unfold findOrphans at h
  obtain ⟨name, -, hsome⟩ := List.mem_filterMap.mp h
  cases hf : s.topic.foreignPartitions v name with
  | nil => rw [hf] at hsome; cases hsome
  | cons q qs =>
    rw [hf] at hsome
    cases hsome
    exact List.cons_ne_nil _ _

/-- The orphans found are the directories that the ring gives to others, of
the topics that are in the list of names. -/
theorem mem_findOrphans {root : Root} (hv : v.root = root) (h : root.Stores c)
    (howns : s.topic.owns = s.ring.ownsPartition) (v₀ : Volume)
    (hnames : ∀ name, name ∈ Topic.names v₀ ↔ (c.counts name).isSome) (name : String) (p : ℕ) :
    (∃ ps, (name, ps) ∈ s.findOrphans v (Topic.names v₀) ∧ p ∈ ps)
      ↔ (root.part name p).isSome ∧ s.ring.owns name p = .ok false := by
  subst hv
  have hforeign : ∀ name p, p ∈ s.topic.foreignPartitions v name
      ↔ (v.root.part name p).isSome ∧ s.ring.owns name p = .ok false := by
    intro name p
    rw [Topic.foreignPartitions, List.mem_filter, Root.mem_partsOf, Ring.ownsPartition_eq, howns]
    simp
  have hmem : ∀ ps, (name, ps) ∈ s.findOrphans v (Topic.names v₀)
      ↔ name ∈ Topic.names v₀ ∧ ps = s.topic.foreignPartitions v name ∧ ps ≠ [] := by
    intro ps
    unfold findOrphans
    rw [List.mem_filterMap]
    constructor
    · rintro ⟨name', hmem, hsome⟩
      cases hf : s.topic.foreignPartitions v name' with
      | nil => rw [hf] at hsome; cases hsome
      | cons q qs =>
        rw [hf] at hsome
        cases hsome
        exact ⟨hmem, hf.symm, List.cons_ne_nil _ _⟩
    · rintro ⟨hmem, rfl, hne⟩
      refine ⟨name, hmem, ?_⟩
      cases hf : s.topic.foreignPartitions v name with
      | nil => exact absurd hf hne
      | cons q qs => rfl
  rw [← hforeign]
  constructor
  · rintro ⟨ps, hps, hp⟩
    obtain ⟨-, rfl, -⟩ := (hmem ps).mp hps
    exact hp
  · intro hp
    refine ⟨_, (hmem _).mpr ⟨(hnames name).mpr ?_, rfl, List.ne_nil_of_mem hp⟩, hp⟩
    -- a directory is one of a topic's
    have hsome := ((hforeign name p).mp hp).1
    rw [h.isSome_part] at hsome
    obtain ⟨rs, hrs⟩ := Option.isSome_iff_exists.mp hsome
    obtain ⟨n, hn, -⟩ := h.counted hrs
    exact Option.isSome_of_eq_some hn

/-- **A new store** over a data root, with nothing open yet; it is not ready. -/
theorem init_rep {root : Root} (hroot : root.Stores c) (path : String) {partitions : ℕ}
    (syncPolicy : SyncPolicy) {maxSegmentBytes : ℤ} (ring : Ring) (allowOrphans : Bool)
    (hpos : 0 < partitions) (hlimit : 0 < maxSegmentBytes ∧ maxSegmentBytes ≤ maxU32 + 1) :
    ∃ t, init path partitions syncPolicy maxSegmentBytes ring allowOrphans
        = .ok ⟨ring, t, .init, false, allowOrphans, []⟩
      ∧ Rep ⟨ring, t, .init, false, allowOrphans, []⟩ (.of root) { c with turn := 0 }
      ∧ t.holder = ⟨ring.ownsPartition, partitions⟩ := by
  obtain ⟨t, htopic, hrep, hholder⟩ := Topic.rep_init path syncPolicy ring.ownsPartition
    (v := .of root) hpos hlimit hroot
  have howns : t.owns = ring.ownsPartition := congrArg Holder.owns hholder
  refine ⟨t, ?_, ⟨hrep, howns⟩, hholder⟩
  unfold init
  rw [htopic]
  rfl

/-- **Opening a store** raises nothing and adds no topic and no record. Its
orphans are the partition directories that the ring gives to others, and it
is ready unless there are some and they are not allowed. -/
theorem open_spec (h : s.Rep v c) (hready : s.ready = false) :
    ∃ s' v' c', s.open v = (.ok (), s', v') ∧ s'.Rep v' c'
      ∧ c.Settles s.topic.holder c' ∧ c'.counts = c.counts
      ∧ s'.ring = s.ring ∧ s'.topic.holder = s.topic.holder ∧ s'.tail = s.tail
      ∧ (∀ name p, (∃ ps, (name, ps) ∈ s'.orphans ∧ p ∈ ps)
          ↔ (v'.root.part name p).isSome ∧ s.ring.owns name p = .ok false)
      ∧ (∀ e ∈ s'.orphans, e.2 ≠ [])
      ∧ (s'.ready = true ↔ s'.orphans = [] ∨ s.allowOrphans = true)
      ∧ ∀ {P}, Root.Stable P → v.Always P → v'.Always P := by
  have hnames := mem_names rfl h.topic.stores
  obtain ⟨t', v', c', hgo, hrep, hholder, hset, hcounts, halways⟩ :=
    createAll_spec (Topic.names v) h.topic fun name hn => (hnames name).mp hn
  have howns : t'.owns = s.ring.ownsPartition :=
    (congrArg Holder.owns hholder).trans h.owns
  obtain ⟨orphans, horphans⟩ : ∃ orphans,
      orphans = findOrphans { s with topic := t' } v' (Topic.names v) := ⟨_, rfl⟩
  have hchar := mem_findOrphans (s := { s with topic := t' }) rfl hrep.stores howns
    v (fun name => by rw [hcounts]; exact hnames name)
  rw [← horphans] at hchar
  have hopen : s.open v = (.ok (), { s with
      topic := t', orphans, ready := decide (orphans = [] ∨ s.allowOrphans = true) }, v') := by
    unfold Store.open
    simp only [hgo, ← horphans]
    by_cases hbad : orphans ≠ [] ∧ s.allowOrphans = false
    · have : ¬(orphans = [] ∨ s.allowOrphans = true) := by
        rintro (hnil | hallow)
        · exact hbad.1 hnil
        · rw [hbad.2] at hallow
          cases hallow
      rw [if_pos hbad, decide_eq_false this, ← hready]
    · have : orphans = [] ∨ s.allowOrphans = true := by
        by_cases hnil : orphans = []
        · exact Or.inl hnil
        · exact Or.inr (by simpa using fun hf => hbad ⟨hnil, hf⟩)
      rw [if_neg hbad, decide_eq_true this]
  exact ⟨_, v', c', hopen, ⟨hrep, howns⟩, hset, hcounts, rfl, hholder, rfl, hchar,
    fun e he => ne_nil_of_mem_findOrphans (horphans ▸ he), decide_eq_true_iff, halways⟩

/-- **Closing a store** raises nothing and changes no record. -/
theorem close_spec (h : s.Rep v c) :
    ∃ s' v', s.close v = (.ok (), s', v') ∧ v'.root.Stores c
      ∧ ∀ {P}, Root.Stable P → v.Always P → v'.Always P := by
  obtain ⟨hf, -⟩ := Topic.close_follows h.topic
  exact ⟨(s.close v).2.1, (s.topic.close v).2.2, Prod.ext hf.answer rfl, hf.rep.stores, hf.always⟩

end Store

/-! ## The service

The methods of the service, each with all it can answer, and with what it does
to the catalog in each case. -/

namespace Handler

open Store (Follows)

variable {s : Store} {v : Volume} {c : Catalog}

/-- **A redirect** adds no record. It may take a turn of the partitioner, and
it may open the topic. -/
theorem redirect_spec (h : s.Rep v c) (topic : String) (partition : Option ℤ)
    (key : Option Bytes) : ∃ failure c', Follows s v (redirect s v topic partition key) failure c'
      ∧ c.Settles s.topic.holder c' ∧ c'.counts = c.counts := by
  unfold redirect
  cases partition with
  | some p => exact ⟨_, c, h.follows _, .refl _ _ c.turn, rfl⟩
  | none =>
    have hf := Store.route_follows h topic key
    have hset : c.Settles s.topic.holder (c.route s.topic.holder topic key).2 :=
      .route (show c.route s.topic.holder topic key = (_, _) from rfl)
    have hcounts := Catalog.route_counts (show c.route s.topic.holder topic key = (_, _) from rfl)
    cases hroute : s.route v topic key with
    | mk res rest =>
      obtain ⟨s', v'⟩ := rest
      rw [hroute] at hf
      cases res with
      | error e => exact ⟨_, _, ⟨rfl, hf.rep, hf.same, hf.holder, hf.always⟩, hset, hcounts⟩
      | ok p => exact ⟨_, _, ⟨rfl, hf.rep, hf.same, hf.holder, hf.always⟩, hset, hcounts⟩

/-- **A produce request** adds its record to a partition of this broker, and
answers where, or it is refused and adds none. Either way the topic is
there from then on. -/
theorem append_spec (h : s.Rep v c) (request : ProduceRequest) (clock : ℤ) (elapsed : ℚ) :
    ∃ answer c', Follows s v (append s v request clock elapsed) answer c'
      ∧ c'.counts = c.counted s.topic.holder request.topic none
      ∧ ((∃ failure, answer = .error failure ∧ c.Settles s.topic.holder c')
        ∨ ∃ (p : ℕ) (r : Record), answer = .ok (p, r.offset)
            ∧ (∃ n, c'.counts request.topic = some n
              ∧ (Catalog.target c.turn request.key request.partition n).1 = p)
            ∧ r.timestamp = request.timestamp.getD clock ∧ r.key = request.key
            ∧ r.value = request.value ∧ c.Adds s.topic.holder c' request.topic p r) := by
  have hf := Store.append_follows h request.topic request.key request.value request.timestamp
    request.partition clock elapsed
  cases hc : c.append s.topic.holder request.topic request.key request.value request.timestamp
      request.partition clock with
  | mk res c' =>
  rw [hc] at hf
  unfold append
  cases happ : s.append v request.topic request.key request.value request.timestamp
      request.partition clock elapsed with
  | mk res' rest =>
  obtain ⟨s', v'⟩ := rest
  rw [happ] at hf
  have hres : res' = res := hf.answer
  subst hres
  have hcounts := Catalog.append_counts hc
  rcases Catalog.append_outcome hc with ⟨e, rfl, hset⟩ | ⟨p, r, rfl, hp, hts, hkey, hvalue, hadds⟩
  · have hcaught : ∀ failure, ∃ answer c'',
        Follows s v ((.error failure, s', v') : Except Failure (ℤ × ℤ) × Store × Volume) answer c''
          ∧ c''.counts = c.counted s.topic.holder request.topic none
          ∧ ∃ failure, answer = .error failure ∧ c.Settles s.topic.holder c'' := fun failure =>
      ⟨.error failure, c', ⟨rfl, hf.rep, hf.same, hf.holder, hf.always⟩, hcounts, failure,
        rfl, hset⟩
    cases e with
    | partitionNotLocal msg =>
      obtain ⟨failure, c'', hred, hset', hcounts'⟩ :=
        redirect_spec (s := s') (v := v') hf.rep request.topic request.partition request.key
      refine ⟨.error failure, c'', ?_, hcounts'.trans hcounts,
        Or.inl ⟨failure, rfl, hset.trans ?_⟩⟩
      · have htrans := hf.trans hred
        exact ⟨congrArg Except.error hred.answer, htrans.rep, htrans.same, htrans.holder,
          htrans.always⟩
      · have hholder : s'.topic.holder = s.topic.holder := hf.holder
        rw [← hholder]
        exact hset'
    | _ =>
      obtain ⟨answer, c'', hfol, hcounts, herr⟩ := hcaught _
      exact ⟨answer, c'', hfol, hcounts, Or.inl herr⟩
  · exact ⟨.ok (p, r.offset), c', ⟨rfl, hf.rep, hf.same, hf.holder, hf.always⟩, hcounts,
      Or.inr ⟨p, r, rfl, hp, hts, hkey, hvalue, hadds⟩⟩

/-- **A read** adds no record. It answers with the records of a partition of
this broker from the offset on, or is refused. -/
theorem read_spec (h : s.Rep v c) (request : ConsumeRequest) (offset limit : ℤ) :
    ∃ answer c', Follows s v (read s v request offset limit) answer c'
      ∧ c.Settles s.topic.holder c' ∧ c'.counts = c.counts
      ∧ ∀ records, answer = .ok records → 0 ≤ offset
        ∧ ∃ p : ℕ, request.partition = p ∧ s.topic.holder.owns request.topic p = true
          ∧ (∃ n, c.counts request.topic = some n ∧ p < n)
          ∧ records = (if 0 < limit ∧ limit ≤ ((c.records request.topic p).drop offset.toNat).length
              then ((c.records request.topic p).drop offset.toNat).take limit.toNat
              else (c.records request.topic p).drop offset.toNat) := by
  have hf := Store.read_follows h request.topic offset request.partition limit
  have hset : c.Settles s.topic.holder
      (c.readFrom s.topic.holder request.topic offset request.partition).2 :=
    .readFrom (show c.readFrom s.topic.holder request.topic offset request.partition
      = (_, _) from rfl)
  have hcounts := Catalog.readFrom_counts
    (show c.readFrom s.topic.holder request.topic offset request.partition = (_, _) from rfl)
  unfold read
  cases hread : s.read v request.topic offset request.partition limit with
  | mk res rest =>
  obtain ⟨s', v'⟩ := rest
  rw [hread] at hf
  have hres := hf.answer
  simp only at hres
  cases res with
  | error e =>
    cases e <;> exact ⟨_, _, ⟨rfl, hf.rep, hf.same, hf.holder, hf.always⟩, hset, hcounts,
      fun _ h => by cases h⟩
  | ok records =>
    refine ⟨_, _, ⟨rfl, hf.rep, hf.same, hf.holder, hf.always⟩, hset, hcounts,
      fun records' hrec => ?_⟩
    cases hrec
    unfold Catalog.readFrom at hres
    cases he : c.existing s.topic.holder request.topic with
    | mk ex c₁ =>
    rcases Catalog.existing_cases he with ⟨e, rfl, -, -⟩ | ⟨n, -, hn, rfl, rfl⟩
    · rw [he] at hres
      cases hres
    · rw [he] at hres
      simp only [Except.bind] at hres
      cases hcheck : Catalog.checkPartition s.topic.holder request.topic n request.partition with
      | error e => rw [hcheck] at hres; cases hres
      | ok p =>
        obtain ⟨hp, hlt, ho⟩ := Catalog.checkPartition_eq_ok.mp hcheck
        rw [hcheck] at hres
        simp only [Catalog.records_touch] at hres
        by_cases hoff : offset < 0
        · rw [if_pos hoff] at hres
          cases hres
        · rw [if_neg hoff] at hres
          exact ⟨not_lt.mp hoff, p, hp, ho, ⟨n, hn, hlt⟩, Except.ok.inj hres⟩

/-- **A read that nothing speaks against** is answered, with the records from
the offset on, up to the limit. -/
theorem read_answers (h : s.Rep v c) (request : ConsumeRequest) (offset limit : ℤ) {n p : ℕ}
    (hname : validateName request.topic = .ok ()) (hn : c.counts request.topic = some n)
    (hpart : request.partition = p) (hp : p < n)
    (ho : s.topic.holder.owns request.topic p = true) (hoff : 0 ≤ offset) :
    ∃ records, (read s v request offset limit).1 = .ok records := by
  have hres := (Store.read_follows h request.topic offset request.partition limit).answer
  rw [Catalog.readFrom_eq_ok hname hn hpart hp ho hoff] at hres
  unfold read
  cases hread : s.read v request.topic offset request.partition limit with
  | mk res rest =>
    obtain ⟨s', v'⟩ := rest
    rw [hread] at hres
    simp only at hres
    subst hres
    exact ⟨_, rfl⟩

/-- **An append that nothing speaks against** is answered, with the place that
is next. -/
theorem append_answers (h : s.Rep v c) {request : ProduceRequest} {clock : ℤ} {elapsed : ℚ}
    {n p : ℕ} (hname : validateName request.topic = .ok ()) (hn : c.counts request.topic = some n)
    (htarget : (Catalog.target c.turn request.key request.partition n).1 = p) (hp : p < n)
    (ho : s.topic.holder.owns request.topic p = true)
    (henc : Record.Encodable ⟨(c.records request.topic p).length, request.timestamp.getD clock,
      request.key, request.value⟩) :
    (append s v request clock elapsed).1 = .ok (p, ((c.records request.topic p).length : ℤ)) := by
  have hres := (Store.append_follows h request.topic request.key request.value request.timestamp
    request.partition clock elapsed).answer
  rw [Catalog.append_eq_ok hname hn htarget hp ho henc] at hres
  unfold append
  cases happ : s.append v request.topic request.key request.value request.timestamp
      request.partition clock elapsed with
  | mk res rest =>
    obtain ⟨s', v'⟩ := rest
    rw [happ] at hres
    simp only at hres
    subst hres
    rfl

omit [Crc32] in
/-- A table of owners has an entry for each partition. -/
theorem length_partitionMetadata {ring : Ring} {topic : String} {n : ℕ}
    {table : List (ℕ × ℕ × String)} (h : partitionMetadata ring topic n = .ok table) :
    table.length = n := by
  rw [← (mapM_eq_ok h).length_eq, List.length_range]

/-- **`Metadata`** adds no record; it answers with the owners of all
partitions of a topic that is there. -/
theorem metadata_spec (h : s.Rep v c) (topic : String) :
    ∃ answer c', Follows s v (metadata s v topic) answer c' ∧ c.Settles s.topic.holder c'
      ∧ c'.counts = c.counts ∧ ∀ table, answer = .ok table →
        ∃ n, c.counts topic = some n ∧ partitionMetadata s.ring topic n = .ok table := by
  have hf := Store.partitionsOf_follows h topic
  have hset : c.Settles s.topic.holder (c.existing s.topic.holder topic).2 :=
    .existing (show c.existing s.topic.holder topic = (_, _) from rfl)
  have hcounts := Catalog.existing_counts
    (show c.existing s.topic.holder topic = (_, _) from rfl)
  unfold metadata
  cases hparts : s.partitionsOf v topic with
  | mk res rest =>
  obtain ⟨s', v'⟩ := rest
  rw [hparts] at hf
  have hres := hf.answer
  simp only at hres
  cases res with
  | error e =>
    cases e <;> exact ⟨_, _, ⟨rfl, hf.rep, hf.same, hf.holder, hf.always⟩, hset, hcounts,
      fun _ h => by cases h⟩
  | ok n =>
    refine ⟨_, _, ⟨rfl, hf.rep, hf.same, hf.holder, hf.always⟩, hset, hcounts,
      fun table htable => ?_⟩
    rcases Catalog.existing_cases (show c.existing s.topic.holder topic = (.ok n, _) from
      Prod.ext hres.symm rfl) with ⟨e, he, -⟩ | ⟨m, -, hm, hn, -⟩
    · cases he
    · cases hn
      have hring : s'.ring = s.ring := hf.ring
      refine ⟨n, hm, ?_⟩
      rw [← hring]
      cases hmap : partitionMetadata s'.ring topic n with
      | error e =>
        simp only [hmap] at htable
        cases htable
      | ok table' =>
        simp only [hmap] at htable
        cases htable
        rfl

end Handler

end Pyka
