import Pyka.Broker.StoreSpec

/-!
# What a refused append leaves behind

`Topic.append` opens its topic, creating it where need be, before it finds out
whether the record can be stored. So an append that raises has stored nothing,
but its topic is there from then on, with the partitions that are stored here
(`Topic.append_raises`). Nothing at all has changed where the name is refused,
or where the topic was there already with all of these partitions.

## Whether that is meant

That an append creates its topic is meant: the source says that a producer
which writes to a new name is the usual way for a topic to come into being.
That the topic is also made for a record that is then refused, because it
names a partition out of range, or one that is stored elsewhere, or has a key
too large to be framed, follows from the order of the checks: the number of
partitions has to be known before a partition can be checked, and it is known
when the topic has been opened.

## What is compared

Of the registry, the open logs and their next offsets; of the data root, the
records of every partition, the names of the topics, their `topic.json`, and
which of their directories exist (`SameTopics`). A directory that is new is
empty. The turn of the partitioner is not compared: a record without a key
takes its turn before it is refused.
-/

namespace Pyka

open Struct (Bytes)

namespace Topic

/-- The open log of a partition, of a topic that is in the cache. -/
def logOf (t : Topic) (name : String) (p : ℕ) : Option Log :=
  ((t.opened.lookup name).bind fun topic => topic.stored.lookup p).map Partition.log

/-- **The same topics on disk**: their names, their `topic.json`, and which of
their partitions have a directory. What is in the directories is said apart. -/
structure SameTopics (v v' : Volume) : Prop where
  names : names v' = names v
  metaFile : ∀ name, v'.root.metaFile name = v.root.metaFile name
  parts : ∀ name p, (v'.root.part name p).isSome = (v.root.part name p).isSome

/-- The names are those of the `topic.json` files, so the same files give the
same names. -/
theorem names_congr {v v' : Volume} (h : ∀ name, v'.root.metaFile name = v.root.metaFile name) :
    names v' = names v := by
  have hmem : ∀ name, name ∈ names v' ↔ name ∈ names v := fun name => by
    rw [Store.mem_names_iff, Store.mem_names_iff, h]
  have hnodup : ∀ v : Volume, (names v).Nodup := fun v =>
    (List.perm_insertionSort _ _).nodup_iff.mpr (v.root.keys_nodup.filter _)
  exact ((List.perm_ext_iff_of_nodup (hnodup v') (hnodup v)).mpr hmem).eq_of_pairwise'
    (List.pairwise_insertionSort _ _) (List.pairwise_insertionSort _ _)

end Topic

variable [Crc32]

/-- **What a refused append comes to**: nothing where the name is refused, and
else its topic is opened. -/
theorem Catalog.append_refused {c c' : Catalog} {h : Holder} {name : String}
    {key value : Option Bytes} {timestamp partition : Option ℤ} {clock : ℤ} {e : PyError}
    (hc : c.append h name key value timestamp partition clock = (.error e, c')) :
    (validateName name = .error e ∧ c' = c)
      ∨ validateName name = .ok ()
        ∧ ∃ turn, c' = { c.touch h name ((c.counts name).getD h.defaultPartitions) with turn } := by
  rcases append_cases hc with ⟨e', hname, he, rfl⟩ | ⟨n, c₁, hname, hopen, happ⟩
  · cases he
    exact Or.inl ⟨hname, rfl⟩
  · have hn : (c.counts name).getD h.defaultPartitions = n := congrArg Prod.fst hopen
    obtain ⟨hc₁, -, -⟩ := openAs_spec hopen
    rw [hn, ← hc₁]
    rcases happ with ⟨_, -, -, rfl⟩ | ⟨p, r, -, -, -, -, ⟨_, -, -, rfl⟩ | ⟨-, he, -⟩⟩
    · exact Or.inr ⟨hname, _, rfl⟩
    · exact Or.inr ⟨hname, _, rfl⟩
    · cases he

namespace Topic

variable {t : Topic} {v : Volume} {c : Catalog}

/-- **What is open stays open**, however an append ends; only `close` takes a
topic out of the cache. -/
theorem append_opened (t : Topic) (v : Volume) (name : String) (key value : Option Bytes)
    (timestamp partition : Option ℤ) (clock : ℤ) (elapsed : ℚ) {name' : String}
    (hopen : name' ∈ t.opened) :
    name' ∈ (t.append v name key value timestamp partition clock elapsed).2.1.opened := by
  have hcached : ∀ partitions, name' ∈ (t.openCached v name partitions).2.1.opened :=
    fun partitions => by
      unfold openCached openLocked
      cases t.opened.lookup name with
      | some topic => exact hopen
      | none =>
        cases v.readMeta name with
        | error e => exact hopen
        | ok found =>
          simp only
          generalize t.openLogs name _ _ = opened
          obtain ⟨res, v'⟩ := opened
          cases res with
          | error e => exact hopen
          | ok stored => exact (AList.mem_insert _).mpr (Or.inr hopen)
  unfold append
  cases validateName name with
  | error e => exact hopen
  | ok u =>
    have hopened := hcached none
    simp only
    generalize t.openCached v name none = out at hopened ⊢
    obtain ⟨res, t', v'⟩ := out
    cases res with
    | error e => exact hopened
    | ok topic =>
      simp only
      generalize t'.partitioner.choose key partition topic.partitions = chosen
      obtain ⟨routed, partitioner⟩ := chosen
      cases routed with
      | error e => exact hopened
      | ok q =>
        simp only
        cases checkPartition name topic q with
        | error e => exact hopened
        | ok entry =>
          have hset : ∀ entry',
              name' ∈ (({ t' with partitioner } : Topic).setEntry name topic q.toNat
              entry').opened := fun entry' => (AList.mem_insert _).mpr (Or.inr hopened)
          simp only [appendTo]
          split
          · exact hset _
          · split_ifs
            · split <;> exact hset _
            · exact hset _

/-- The open logs of a registry are those of the partitions stored here. -/
theorem Rep.logOf_isSome (h : t.Rep v c) {name : String} {n p : ℕ} (hopen : name ∈ t.opened)
    (hn : c.counts name = some n) (hp : p < n) (ho : t.owns name p = true) :
    ∃ log, t.logOf name p = some log := by
  obtain ⟨topic, hlook⟩ := Option.isSome_iff_exists.mp (AList.lookup_isSome.mpr hopen)
  have hopens := h.opened hlook
  obtain rfl : topic.partitions = n := Option.some.inj (hopens.count.symm.trans hn)
  obtain ⟨entry, hentry⟩ := Option.isSome_iff_exists.mp (hopens.isSome p hp ho)
  refine ⟨entry.log, ?_⟩
  unfold logOf
  rw [hlook, Option.bind_some, hentry]
  rfl

/-- **An open log** is that of a partition stored here, and its next offset is
the number of its records. -/
theorem Rep.logOf_spec (h : t.Rep v c) {name : String} {p : ℕ} {log : Log}
    (hlog : t.logOf name p = some log) :
    name ∈ t.opened ∧ (∃ n, c.counts name = some n ∧ p < n) ∧ t.owns name p = true
      ∧ log.nextOffset = (c.records name p).length := by
  unfold logOf at hlog
  obtain ⟨entry, hentry, rfl⟩ := Option.map_eq_some_iff.mp hlog
  obtain ⟨topic, hlook, hentry⟩ := Option.bind_eq_some_iff.mp hentry
  have hopens := h.opened hlook
  obtain ⟨hp, ho, d, rs, -, hrs, hrep⟩ := hopens.stored hentry
  refine ⟨AList.lookup_isSome.mp (by rw [hlook]; rfl), ⟨_, hopens.count, hp⟩, ho, ?_⟩
  have hrep : entry.log.Represents (Disk.of d).view rs 0 := hrep
  rw [hrep.nextOffset_eq, Catalog.records, hrs]
  rfl

/-- **What a refused append leaves behind.** Whatever the registry has done
before, an append that raises adds no record: every log has its records and
its next offset. Other topics are as they were. Its own topic, unless the name
is refused, is there afterwards with the partitions it had or by default gets,
and has a directory for each that is stored here. So nothing has changed
exactly where the name is refused, or the topic was there with all these
directories. -/
theorem append_raises (h : t.Rep v c) (name : String) (key value : Option Bytes)
    (timestamp partition : Option ℤ) (clock : ℤ) (elapsed : ℚ) {e : PyError} {t' : Topic}
    {v' : Volume}
    (hraise : t.append v name key value timestamp partition clock elapsed = (.error e, t', v')) :
    (∀ name' p, v'.root.records name' p = v.root.records name' p)
      ∧ (∀ name' p log, t.logOf name' p = some log →
        ∃ log', t'.logOf name' p = some log' ∧ log'.nextOffset = log.nextOffset)
      ∧ (∀ name', name' ≠ name → v'.root.metaFile name' = v.root.metaFile name'
        ∧ ∀ p, (v'.root.part name' p).isSome = (v.root.part name' p).isSome)
      ∧ (validateName name = .ok () →
        v'.root.metaFile name = some (TopicJson.dumps (t.countOn v.root name))
          ∧ ∀ p, (v'.root.part name p).isSome = true
            ↔ (v.root.part name p).isSome = true ∨ p < t.countOn v.root name ∧ t.owns name p = true)
      ∧ (SameTopics v v' ↔ validateName name ≠ .ok ()
        ∨ (v.root.metaFile name).isSome = true
          ∧ ∀ p < t.countOn v.root name, t.owns name p = true
            → (v.root.part name p).isSome = true) := by
  have hf := append_follows h name key value timestamp partition clock elapsed
  have hopened : ∀ name', name' ∈ t.opened → name' ∈ t'.opened := fun name' hopen => by
    have hkept := append_opened t v name key value timestamp partition clock elapsed hopen
    rwa [hraise] at hkept
  rw [hraise] at hf
  cases hc : c.append t.holder name key value timestamp partition clock with
  | mk answer c' =>
  rw [hc] at hf
  obtain rfl : Except.error e = answer := hf.answer
  have hrep : t'.Rep v' c' := hf.rep
  have hset : c.Settles t.holder c' := by
    rcases Catalog.append_outcome hc with ⟨_, -, hset⟩ | ⟨p, r, he, -⟩
    · exact hset
    · cases he
  have howns : t'.owns = t.owns := congrArg Holder.owns hf.holder
  have hlogs : ∀ name' p log, t.logOf name' p = some log →
      ∃ log', t'.logOf name' p = some log' ∧ log'.nextOffset = log.nextOffset :=
    fun name' p log hlog => by
      obtain ⟨hopen, ⟨n, hn, hp⟩, ho, hnext⟩ := h.logOf_spec hlog
      obtain ⟨log', hlog'⟩ := hrep.logOf_isSome (hopened name' hopen) (hset.counts hn) hp (by
        rw [howns, ho])
      obtain ⟨-, -, -, hnext'⟩ := hrep.logOf_spec hlog'
      exact ⟨log', hlog', by rw [hnext', hnext, hset.records]⟩
  refine ⟨fun name' p => ?_, hlogs, ?_⟩
  · rw [hrep.stores.records_eq, h.stores.records_eq, hset.records]
  rcases Catalog.append_refused hc with ⟨hname, rfl⟩ | ⟨hname, turn, rfl⟩
  · -- the name is refused
    have hno : validateName name ≠ .ok () := fun hok => by rw [hok] at hname; cases hname
    have hmeta : ∀ name', v'.root.metaFile name' = v.root.metaFile name' := fun name' => by
      rw [hrep.stores.metaFile, h.stores.metaFile]
    have hparts : ∀ name' p, (v'.root.part name' p).isSome = (v.root.part name' p).isSome :=
      fun name' p => by rw [hrep.stores.isSome_part, h.stores.isSome_part]
    exact ⟨fun name' _ => ⟨hmeta name', hparts name'⟩, fun hok => absurd hok hno,
      fun _ => Or.inl hno, fun _ => ⟨names_congr hmeta, hmeta, hparts⟩⟩
  · -- the topic is opened
    rw [h.countOn_eq]
    generalize hn : (c.counts name).getD t.holder.defaultPartitions = n at hrep ⊢
    have hmeta : ∀ name', v'.root.metaFile name'
        = if name' = name then some (TopicJson.dumps n) else v.root.metaFile name' :=
          fun name' => by
      rw [hrep.stores.metaFile, h.stores.metaFile]
      show ((c.touch t.holder name n).counts name').map TopicJson.dumps = _
      rw [Catalog.counts_touch]
      split_ifs with hsame
      · rw [hsame, Function.update_self]
        rfl
      · rw [Function.update_of_ne hsame]
    have hparts : ∀ name' p, (v'.root.part name' p).isSome = true
        ↔ (v.root.part name' p).isSome = true ∨ name' = name ∧ p < n ∧ t.owns name p = true :=
      fun name' p => by
        rw [hrep.stores.isSome_part, h.stores.isSome_part]
        show ((c.touch t.holder name n).logs name' p).isSome = true ↔ _
        unfold Catalog.touch
        simp only
        by_cases hstored : name' = name ∧ p < n ∧ t.holder.owns name p = true
        · rw [if_pos hstored]
          exact ⟨fun _ => Or.inr hstored, fun _ => rfl⟩
        · rw [if_neg hstored]
          exact ⟨Or.inl, fun hor => hor.resolve_right hstored⟩
    refine ⟨fun name' hne => ⟨by rw [hmeta, if_neg hne], fun p => Bool.eq_iff_iff.mpr ?_⟩,
      fun _ => ⟨by rw [hmeta, if_pos rfl], fun p => ?_⟩, fun hsame =>
        Or.inr ⟨?_, fun p hp ho => ?_⟩,
      fun hcond => ?_⟩
    · rw [hparts]
      exact ⟨fun hor => hor.resolve_right fun h => hne h.1, Or.inl⟩
    · rw [hparts]
      exact ⟨fun hor => hor.imp_right And.right, fun hor => hor.imp_right fun h => ⟨rfl, h⟩⟩
    · rw [← hsame.metaFile, hmeta, if_pos rfl]
      rfl
    · rw [← hsame.parts]
      exact (hparts name p).mpr (Or.inr ⟨rfl, hp, ho⟩)
    · obtain ⟨hthere, hall⟩ := hcond.resolve_left fun hno => hno hname
      have hsame : ∀ name', v'.root.metaFile name' = v.root.metaFile name' := fun name' => by
        rw [hmeta]
        split_ifs with heq
        · rw [heq, h.stores.metaFile]
          rw [h.stores.metaFile, Option.isSome_map] at hthere
          obtain ⟨m, hm⟩ := Option.isSome_iff_exists.mp hthere
          rw [hm] at hn ⊢
          exact congrArg (fun k => some (TopicJson.dumps k)) hn.symm
        · rfl
      refine ⟨names_congr hsame, hsame, fun name' p => Bool.eq_iff_iff.mpr ?_⟩
      rw [hparts]
      exact ⟨fun hor => hor.elim id fun ⟨heq, hp, ho⟩ => heq ▸ hall p hp ho, Or.inl⟩

/-! ## A topic that nobody wanted

The smallest case: one record for a partition out of range, sent to a topic
that is not there. -/

/-- A registry just made, with nothing on disk; new topics get two partitions. -/
def fresh : Topic := ⟨"data", 2, .never, 2 ^ 30, fun _ _ => true, ⟨0⟩, ∅⟩

/-- It stands for the catalog with nothing in it. -/
theorem rep_fresh : fresh.Rep (.of .empty) .empty where
  stores := stores_empty
  opened hlook := by cases hlook
  turn := rfl
  limit := by decide
  default_pos := by decide

/-- What a record for partition 5 of a topic that is not there comes to. -/
def unwanted : Except PyError (ℤ × ℤ) × Topic × Volume :=
  fresh.append (.of .empty) "orders" none none none (some 5) 0 0

omit [Crc32] in
/-- **A refused append creates a topic**, with as many partitions as topics
get by default. -/
theorem append_creates : let _ := Crc32.zlib
    unwanted.1 = .error (.valueError "topic 'orders' has 2 partition(s), asked for 5")
      ∧ names (.of .empty) = [] ∧ names unwanted.2.2 = ["orders"] := by
  decide +kernel

omit [Crc32] in
theorem append_raises_unwanted : let _ := Crc32.zlib
    unwanted.2.2.root.metaFile "orders" = some (TopicJson.dumps 2)
      ∧ ¬SameTopics (.of .empty) unwanted.2.2 := by
  intro _
  have hraise : unwanted
      = (.error (.valueError "topic 'orders' has 2 partition(s), asked for 5"), unwanted.2) :=
    Prod.ext (by decide +kernel) rfl
  obtain ⟨-, -, -, hthere, hsame⟩ :=
    append_raises rep_fresh "orders" none none none (some 5) 0 0 hraise
  have hname : validateName "orders" = .ok () := by decide +kernel
  refine ⟨(hthere hname).1, fun hall => ?_⟩
  rcases hsame.mp hall with hno | ⟨hsome, -⟩
  · exact hno hname
  · cases hsome

end Topic

end Pyka
