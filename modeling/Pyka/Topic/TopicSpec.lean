import Mathlib.Data.Option.Basic
import Pyka.Topic.Catalog

/-!
# The registry does what the catalog does

`Topic.Rep t v c` relates a registry over its data root to a catalog: every
`topic.json` has the topic's number of partitions, every partition directory
keeps the partition's records, and what is open stands for what is on disk.
Each operation of `Topic` gives the answer of the catalog's operation and
keeps the relation (`Topic.Follows`), so that what is to be said of topics can
be said of the catalog. None of the operations fails where the catalog's does
not: over a root that stores a catalog there is no file that cannot be read
and no directory that a log refuses.

## Two relations

`Root.Stores` speaks of the disk alone, and is what survives the end of a
process: a new registry over a root that stores a catalog stands for it with
nothing open (`rep_init`). `Rep` adds what the process knows. An entry of the
cache stands for a directory by `Log.Represents`, the relation between a log
and its files from `Storage.LogSpec`, with as many of the records synced as
one cares to know; here that is none, and `Topic.Durable` counts them.

## States in between

`Root.Stable` are the properties of a data root that operations keep in every
state they go through, given only that what a log writes keeps some records at
each moment. It is stated once for an arbitrary property, and each `_spec` and
`_follows` lemma carries it along; a crash in the middle of an operation is
then a matter of choosing the property.

## The shape of the proofs

An operation of the source is a chain of smaller ones, each of which can
raise. The proofs follow that chain: there is a lemma for taking a topic from
the cache or opening it, one for checking a partition, and one for the append
itself, and `Follows.trans` and the equations between catalogs put them
together.
-/

namespace Pyka

open Struct (Bytes)

variable [Crc32]

/-- Fewer records count as durable, too: the relation asks for no less than
was synced. -/
theorem Log.Represents.mono {l : Log} {v : ℤ → Option File} {records : List Record}
    {synced synced' : ℕ} (h : l.Represents v records synced) (hle : synced' ≤ synced) :
    l.Represents v records synced' := by
  obtain ⟨rss, rs, d, h, hrec, hs⟩ := h
  exact ⟨rss, rs, d, h, hrec, hle.trans hs⟩

/-- The chain of a log begins with the file of offset `0`, so a read from `0`
sees all. -/
theorem Log.Represents.firstBase_eq {l : Log} {v : ℤ → Option File} {records : List Record}
    {synced : ℕ} (h : l.Represents v records synced) : l.firstBase = 0 := by
  obtain ⟨rss, rs, d, h, -, -⟩ := h
  exact h.serves.firstBase_eq

/-- `.log` files that keep some records: whatever log is opened on them, it
opens, and has a list of records. -/
def KeepsSome (v : ℤ → Option File) : Prop := ∃ records, Keeps v records 0

theorem Keeps.some {v : ℤ → Option File} {records : List Record} {synced : ℕ}
    (h : Keeps v records synced) : KeepsSome v := ⟨records, h.mono (Nat.zero_le _)⟩

/-- A directory with nothing in it keeps no records. -/
theorem keeps_empty : Keeps Dir.empty.logs.view [] 0 :=
  ⟨[], [], [], none, stored_empty fun _ => rfl, rfl, Nat.zero_le _⟩

/-- **A property of a data root that operations keep**, whatever they write
into the directory of one of a topic's partitions as long as it keeps some
records. -/
structure Root.Stable (P : Root → Prop) : Prop where
  setMeta : ∀ {r : Root} {name : String} {n : ℕ}, P r → r.metaFile name = none →
    validateName name = .ok () → 0 < n →
    P (r.setMeta name []) ∧ P (r.setMeta name (TopicJson.dumps n))
  setPart : ∀ {r : Root} {name : String} {n p : ℕ} {d : Dir}, P r →
    r.metaFile name = some (TopicJson.dumps n) → p < n → KeepsSome d.logs.view →
    P (r.setPart name p d)

omit [Crc32] in
/-- A property of a data root that held throughout, now and in every state
before. -/
def Volume.Always (P : Root → Prop) (v : Volume) : Prop := P v.root ∧ ∀ r ∈ v.past, P r

/-- What a log did to its directory leaves a stable property standing, in each
of the states it went through. -/
theorem Volume.Always.onPart {P : Root → Prop} (hP : Root.Stable P) {v : Volume}
    (h : v.Always P) {disk : Disk} (hdisk : disk.Always KeepsSome) {name : String} {n p : ℕ}
    (hn : v.root.metaFile name = some (TopicJson.dumps n)) (hp : p < n) :
    (v.onPart name p disk).Always P := by
  refine ⟨hP.setPart h.1 hn hp hdisk.1, fun r hr => ?_⟩
  rcases List.mem_append.mp hr with hr | hr
  · obtain ⟨dir, hdir, rfl⟩ := List.mem_map.mp hr
    exact hP.setPart h.1 hn hp (hdisk.2 dir hdir)
  · rcases List.mem_cons.mp hr with rfl | hr
    · exact h.1
    · exact h.2 r hr

/-- So does the writing of a new `topic.json`, the moment included at which
the file is there and empty. -/
theorem Volume.Always.writeMeta {P : Root → Prop} (hP : Root.Stable P) {v : Volume}
    (h : v.Always P) {name : String} (hnone : v.root.metaFile name = none)
    (hname : validateName name = .ok ()) {n : ℕ} (hn : 0 < n) : (v.writeMeta name n).Always P := by
  obtain ⟨hempty, hwhole⟩ := hP.setMeta (n := n) h.1 hnone hname hn
  refine ⟨hwhole, fun r hr => ?_⟩
  rcases List.mem_cons.mp hr with rfl | hr
  · exact hempty
  · rcases List.mem_cons.mp hr with rfl | hr
    · exact h.1
    · exact h.2 r hr

/-- **A data root that stores a catalog.** Nothing is on it but what the
catalog has: where there is no count there is no `topic.json`, and no
directory where there is no list of records. -/
structure Root.Stores (root : Root) (c : Catalog) : Prop where
  metaFile : ∀ name, root.metaFile name = (c.counts name).map TopicJson.dumps
  part : ∀ name p,
    Option.Rel (fun d rs => Keeps d.logs.view rs 0) (root.part name p) (c.logs name p)
  names : ∀ {name n}, c.counts name = some n → validateName name = .ok () ∧ 0 < n
  /-- A partition's directory is one of a topic's. -/
  counted : ∀ {name p rs}, c.logs name p = some rs → ∃ n, c.counts name = some n ∧ p < n

/-- The records a directory keeps: what a log opened on it reads. -/
def Dir.records (dir : Dir) : List Record :=
  match Log.init (.of dir) "" (2 ^ 30) with
  | (.error _, _) => []
  | (.ok log, disk) =>
    match log.readFrom disk.dir log.firstBase with
    | .error _ => []
    | .ok read => read.records

theorem Keeps.records_eq {dir : Dir} {records : List Record} {synced : ℕ}
    (h : Keeps dir.logs.view records synced) : dir.records = records := by
  obtain ⟨log, disk, hinit, hrep, -⟩ := Log.init_of_keeps (.of dir) ""
    default_max_segment_bytes h
  unfold Dir.records
  simp only [hinit, hrep.firstBase_eq, hrep.readFrom le_rfl, Int.toNat_zero, List.drop_zero]

/-- The records of a partition, as its directory keeps them; computed from a
root alone, so that what a broker keeps can be evaluated. -/
def Root.records (root : Root) (name : String) (p : ℕ) : List Record :=
  match root.part name p with
  | none => []
  | some dir => dir.records

/-- What a data root stores can be read back from it. -/
theorem Root.Stores.records_eq {root : Root} {c : Catalog} (h : root.Stores c) (name : String)
    (p : ℕ) : root.records name p = c.records name p := by
  have hrel := h.part name p
  unfold Root.records Catalog.records
  generalize root.part name p = o at hrel ⊢
  generalize c.logs name p = rs at hrel ⊢
  cases hrel with
  | none => rfl
  | some hkeeps => exact hkeeps.records_eq

/-- The number of partitions is the one on disk. -/
theorem Root.Stores.count_of {root : Root} {c : Catalog} (h : root.Stores c) {name : String} {n : ℕ}
    (hmeta : root.metaFile name = some (TopicJson.dumps n)) : c.counts name = some n := by
  rw [h.metaFile, Option.map_eq_some_iff] at hmeta
  obtain ⟨m, hm, hdumps⟩ := hmeta
  rw [hm, TopicJson.dumps_injective hdumps]

/-- A partition has a directory where the catalog has a log. -/
theorem Root.Stores.isSome_part {root : Root} {c : Catalog} (h : root.Stores c) (name : String)
    (p : ℕ) : (root.part name p).isSome = (c.logs name p).isSome := by
  have hrel := h.part name p
  generalize root.part name p = o at hrel ⊢
  generalize c.logs name p = rs at hrel ⊢
  cases hrel <;> rfl

/-- A root with nothing in it stores the catalog with nothing in it. -/
theorem stores_empty : Root.empty.Stores .empty where
  metaFile _ := rfl
  part _ _ := .none
  names hn := by cases hn
  counted hl := by cases hl

namespace Topic

/-- What the catalog goes by: of a process's settings, those that its answers
depend on. -/
def holder (t : Topic) : Holder := ⟨t.owns, t.defaultPartitions⟩

/-- **An open topic that stands for what is on disk.** -/
structure Opens (topic : OpenTopic) (owns : ℕ → Bool) (root : Root) (c : Catalog) (name : String) :
    Prop where
  count : c.counts name = some topic.partitions
  stored : ∀ {p entry}, topic.stored.lookup p = some entry → p < topic.partitions ∧ owns p = true
    ∧ ∃ d rs, root.part name p = some d ∧ c.logs name p = some rs
      ∧ entry.log.Represents d.logs.view rs 0
  isSome : ∀ p < topic.partitions, owns p = true → (topic.stored.lookup p).isSome

/-- **A registry over a data root that stands for a catalog.** What is not in
the cache stands on disk alone. -/
structure Rep (t : Topic) (v : Volume) (c : Catalog) : Prop where
  stores : v.root.Stores c
  opened : ∀ {name topic}, t.opened.lookup name = some topic →
    Opens topic (t.owns name) v.root c name
  turn : t.partitioner.next = c.turn
  limit : 0 < t.maxSegmentBytes ∧ t.maxSegmentBytes ≤ maxU32 + 1
  default_pos : 0 < t.defaultPartitions

/-- How many partitions a topic has, or would get if it were created without a
number: what the catalog says, read off the disk. -/
def countOn (t : Topic) (root : Root) (name : String) : ℕ :=
  ((root.metaFile name).bind TopicJson.loads).getD t.defaultPartitions

/-- The two ways to ask for it agree, over a root that stores a catalog. -/
theorem Rep.countOn_eq {t : Topic} {v : Volume} {c : Catalog} (h : t.Rep v c) (name : String) :
    t.countOn v.root name = (c.counts name).getD t.holder.defaultPartitions := by
  unfold countOn
  rw [h.stores.metaFile]
  cases c.counts name with
  | none => rfl
  | some n => exact congrArg (Option.getD · _) (TopicJson.loads_dumps n)

/-- **An operation that does what the catalog's does**: the same answer, and
the relation after it. -/
structure Follows {α : Type} (t : Topic) (v : Volume) (out : Except PyError α × Topic × Volume)
    (answer : Except PyError α) (c : Catalog) : Prop where
  answer : out.1 = answer
  rep : out.2.1.Rep out.2.2 c
  holder : out.2.1.holder = t.holder
  always : ∀ {P}, Root.Stable P → v.Always P → out.2.2.Always P

variable {t : Topic} {v : Volume} {c : Catalog} {name : String}

/-- An operation that changes nothing keeps the relation, whatever it answers. -/
theorem Rep.follows {α : Type} (h : t.Rep v c) (answer : Except PyError α) :
    Follows t v (answer, t, v) answer c :=
  ⟨rfl, h, rfl, fun _ hv => hv⟩

/-- What holds after one operation holds after one more: the answer is that of
the last, and the settings are still those of the first. -/
theorem Follows.trans {α β : Type} {out : Except PyError α × Topic × Volume}
    {answer : Except PyError α} (h : Follows t v out answer c)
    {out' : Except PyError β × Topic × Volume} {answer' : Except PyError β} {c' : Catalog}
    (h' : Follows out.2.1 out.2.2 out' answer' c') : Follows t v out' answer' c' :=
  ⟨h'.answer, h'.rep, h'.holder.trans h.holder, fun hP hv => h'.always hP (h.always hP hv)⟩

/-- **The turn moves on.** Nothing else speaks of it, so the rest of the
relation is as it was. -/
theorem Rep.setTurn (h : t.Rep v c) {partitioner : Partitioner} {turn : ℕ}
    (hturn : partitioner.next = turn) : Rep { t with partitioner } v { c with turn } where
  stores := ⟨h.stores.metaFile, h.stores.part, h.stores.names, h.stores.counted⟩
  opened hlook :=
    let hopen := h.opened hlook
    ⟨hopen.count, hopen.stored, hopen.isSome⟩
  turn := hturn
  limit := h.limit
  default_pos := h.default_pos

/-- The partitioner takes its turns as the catalog does. -/
theorem partitionFor_eq {partitioner : Partitioner} {turn n : ℕ} (hturn : partitioner.next = turn)
    (hn : 0 < n) (key : Option Bytes) :
    (partitioner.partitionFor key n).1 = .ok (Catalog.partitionFor turn key n).1
      ∧ (partitioner.partitionFor key n).2.next = (Catalog.partitionFor turn key n).2 := by
  unfold Partitioner.partitionFor Catalog.partitionFor
  rw [if_neg (by omega), ← hturn]
  cases key with
  | none => exact ⟨rfl, rfl⟩
  | some key => exact ⟨rfl, rfl⟩

/-- The partitioner sends a record where the catalog does. -/
theorem choose_eq {partitioner : Partitioner} {turn n : ℕ} (hturn : partitioner.next = turn)
    (hn : 0 < n) (key : Option Bytes) (partition : Option ℤ) :
    ∃ partitioner', partitioner.choose key partition n
        = (.ok (Catalog.target turn key partition n).1, partitioner')
      ∧ partitioner'.next = (Catalog.target turn key partition n).2 := by
  cases partition with
  | some p => exact ⟨partitioner, rfl, hturn⟩
  | none =>
    obtain ⟨hanswer, hturn⟩ := partitionFor_eq hturn hn key
    refine ⟨(partitioner.partitionFor key n).2, ?_, hturn⟩
    show ((partitioner.partitionFor key n).1.map Int.ofNat, _) = _
    rw [hanswer]
    rfl

/-! ## Opening

The larger part of an operation: what is on disk is recovered, and what is
missing is made. Each lemma says, besides, that stable properties of the root
hold throughout. -/

/-- The directory of a partition, as an operation finds it, keeps the
partition's records. -/
theorem keeps_disk (h : v.root.Stores c) (name : String) (p : ℕ) :
    Keeps (v.disk name p).view (c.records name p) 0 := by
  have hrel := h.part name p
  unfold Volume.disk Catalog.records
  rw [Disk.view_of]
  cases hd : v.root.part name p with
  | none =>
    cases hl : c.logs name p with
    | none => exact keeps_empty
    | some rs => rw [hd, hl] at hrel; cases hrel
  | some d =>
    cases hl : c.logs name p with
    | none => rw [hd, hl] at hrel; cases hrel
    | some rs =>
      rw [hd, hl] at hrel
      cases hrel with
      | some hkeeps => exact hkeeps

/-- Opening the log of a partition: it stands for what its directory keeps,
and the directory keeps it in every state it goes through. -/
theorem openLog_spec (hlimit : 0 < t.maxSegmentBytes ∧ t.maxSegmentBytes ≤ maxU32 + 1) {p : ℕ}
    {rs : List Record} (h : Keeps (v.disk name p).view rs 0) :
    ∃ log disk, t.openLog name p v = (.ok log, v.onPart name p disk)
      ∧ log.Represents disk.view rs 0
      ∧ ∀ {P n}, Root.Stable P → v.root.metaFile name = some (TopicJson.dumps n) → p < n →
          v.Always P → (v.onPart name p disk).Always P := by
  obtain ⟨log, disk, hinit, hrep, halways⟩ :=
    Log.init_of_keeps _ (s!"{t.path}/{name}/{p}") hlimit h
  refine ⟨log, disk, ?_, hrep, fun hP hn hp hv =>
    hv.onPart hP (halways _ (fun w hw => hw.some) ?_) hn hp⟩
  · unfold openLog
    rw [hinit]
  · exact (Disk.always_of _).mpr h.some

/-- **Opening partitions**: each gets a log that stands for what its directory
keeps. The induction is on the list of partitions; no two are the same, so
that opening one leaves the others' directories alone. -/
theorem openLogs_spec (hlimit : 0 < t.maxSegmentBytes ∧ t.maxSegmentBytes ≤ maxU32 + 1)
    {ps : List ℕ} (hps : ps.Nodup) {rss : ℕ → List Record} {v : Volume}
    (h : ∀ p ∈ ps, Keeps (v.disk name p).view (rss p) 0) :
    ∃ stored v', t.openLogs name ps v = (.ok stored, v')
      ∧ (∀ name', v'.root.metaFile name' = v.root.metaFile name')
      ∧ (∀ name' p, ¬(name' = name ∧ p ∈ ps) → v'.root.part name' p = v.root.part name' p)
      ∧ (∀ p ∈ ps, ∃ entry d, stored.lookup p = some entry ∧ v'.root.part name p = some d
        ∧ entry.log.Represents d.logs.view (rss p) 0)
      ∧ (∀ p, p ∉ ps → stored.lookup p = none)
      ∧ ∀ {P n}, Root.Stable P → v.root.metaFile name = some (TopicJson.dumps n) →
          (∀ p ∈ ps, p < n) → v.Always P → v'.Always P := by
  induction ps generalizing v with
  | nil =>
    exact ⟨∅, v, rfl, fun _ => rfl, fun _ _ _ => rfl, by simp, fun _ _ => rfl, fun _ _ _ hv => hv⟩
  | cons p ps ih =>
    obtain ⟨hp, hnd⟩ := List.nodup_cons.mp hps
    obtain ⟨log, disk, hopen, hrep, halways⟩ := openLog_spec hlimit (h p List.mem_cons_self)
    have hrest : ∀ q ∈ ps, Keeps ((v.onPart name p disk).disk name q).view (rss q) 0 := by
      intro q hq
      have hne : ¬(name = name ∧ q = p) := fun heq => hp (heq.2 ▸ hq)
      have := h q (List.mem_cons_of_mem _ hq)
      unfold Volume.disk at this ⊢
      rwa [Volume.root_onPart, Root.part_setPart, if_neg hne]
    obtain ⟨stored, v', hlogs, hmeta, hpart, hstored, hnone, halways'⟩ := ih hnd hrest
    refine ⟨stored.insert p { log, appends := 0 }, v', ?_, fun name' => ?_, fun name' q hq => ?_,
      fun q hq => ?_, fun q hq => ?_, fun hP hn hlt hv => halways' hP ?_
        (fun q hq => hlt q (List.mem_cons_of_mem _ hq))
          (halways hP hn (hlt p List.mem_cons_self) hv)⟩
    · simp only [openLogs, hopen, hlogs]
    · rw [hmeta, Volume.root_onPart, Root.metaFile_setPart]
    · have hne : ¬(name' = name ∧ q = p) := fun hq' => hq ⟨hq'.1, hq'.2 ▸ List.mem_cons_self⟩
      rw [hpart name' q (fun hq' => hq ⟨hq'.1, List.mem_cons_of_mem _ hq'.2⟩), Volume.root_onPart,
        Root.part_setPart, if_neg hne]
    · rcases List.mem_cons.mp hq with rfl | hq
      · refine ⟨{ log, appends := 0 }, disk.dir, AList.lookup_insert _, ?_, hrep⟩
        rw [hpart name q (fun hq' => hp hq'.2), Volume.root_onPart, Root.part_setPart,
          if_pos ⟨rfl, rfl⟩]
      · obtain ⟨entry, d, hlook, hd, hrep'⟩ := hstored q hq
        refine ⟨entry, d, ?_, hd, hrep'⟩
        have hne : q ≠ p := fun heq => hp (heq ▸ hq)
        rw [AList.lookup_insert_ne hne, hlook]
    · have hne : q ≠ p := fun heq => hq (heq ▸ List.mem_cons_self)
      rw [AList.lookup_insert_ne hne, hnone q (fun hq' => hq (List.mem_cons_of_mem _ hq'))]
    · rwa [Volume.root_onPart, Root.metaFile_setPart]

/-- **A topic on disk**: `topic.json` is there, and its logs are open. That is
what `Catalog.touch` says, with the new entry of the cache put beside it. -/
theorem Rep.touch (h : t.Rep v c) (hname : validateName name = .ok ()) {n : ℕ} (hpos : 0 < n)
    (hsame : ∀ m, c.counts name = some m → n = m)
    {stored : AList (fun _ : ℕ => Partition)} {v' : Volume}
    (hmeta : ∀ name', v'.root.metaFile name'
      = if name' = name then some (TopicJson.dumps n) else v.root.metaFile name')
    (hpart : ∀ name' p, ¬(name' = name ∧ p < n ∧ t.owns name p = true) →
      v'.root.part name' p = v.root.part name' p)
    (hstored : ∀ p, p < n → t.owns name p = true → ∃ entry d, stored.lookup p = some entry
      ∧ v'.root.part name p = some d ∧ entry.log.Represents d.logs.view (c.records name p) 0)
    (hnone : ∀ p, ¬(p < n ∧ t.owns name p = true) → stored.lookup p = none) :
    Rep { t with opened := t.opened.insert name ⟨n, stored⟩ } v' (c.touch t.holder name n) := by
  have hlogs : ∀ name' p, ¬(name' = name ∧ p < n ∧ t.owns name p = true) →
      (c.touch t.holder name n).logs name' p = c.logs name' p := fun _ _ hp => if_neg hp
  have hlogs' : ∀ p, p < n → t.owns name p = true →
      (c.touch t.holder name n).logs name p = some (c.records name p) := fun _ hp ho =>
    Catalog.logs_touch_of_owns hp ho
  refine ⟨⟨fun name' => ?_, fun name' p => ?_, fun {name' m} hm => ?_, fun {name' p rs} hl => ?_⟩,
    fun {name' topic} hlook => ?_, h.turn, h.limit, h.default_pos⟩
  · rw [hmeta, Catalog.counts_touch]
    by_cases hnn : name' = name
    · rw [if_pos hnn, hnn, Function.update_self]
      rfl
    · rw [if_neg hnn, Function.update_of_ne hnn, h.stores.metaFile]
  · by_cases hp : name' = name ∧ p < n ∧ t.owns name p = true
    · obtain ⟨rfl, hp, ho⟩ := hp
      obtain ⟨entry, d, -, hd, hrep⟩ := hstored p hp ho
      rw [hd, hlogs' p hp ho]
      exact .some hrep.keeps
    · rw [hpart name' p hp, hlogs name' p hp]
      exact h.stores.part name' p
  · rw [Catalog.counts_touch] at hm
    by_cases hnn : name' = name
    · rw [hnn, Function.update_self] at hm
      cases hm
      exact ⟨hnn ▸ hname, hpos⟩
    · rw [Function.update_of_ne hnn] at hm
      exact h.stores.names hm
  · rw [Catalog.counts_touch]
    by_cases hp : name' = name ∧ p < n ∧ t.owns name p = true
    · rw [hp.1, Function.update_self]
      exact ⟨n, rfl, hp.2.1⟩
    · rw [hlogs name' p hp] at hl
      obtain ⟨m, hm, hpm⟩ := h.stores.counted hl
      by_cases hnn : name' = name
      · rw [hnn, Function.update_self]
        exact ⟨n, rfl, by rw [hsame m (hnn ▸ hm)]; exact hpm⟩
      · rw [Function.update_of_ne hnn]
        exact ⟨m, hm, hpm⟩
  · by_cases hnn : name' = name
    · subst hnn
      rw [AList.lookup_insert] at hlook
      cases hlook
      refine ⟨Function.update_self .., fun {p entry} hlook => ?_, fun p hp ho => ?_⟩
      · have hp : p < n ∧ t.owns name' p = true := by
          by_contra hp
          rw [hnone p hp] at hlook
          cases hlook
        obtain ⟨entry', d, hlook', hd, hrep⟩ := hstored p hp.1 hp.2
        cases hlook.symm.trans hlook'
        exact ⟨hp.1, hp.2, d, _, hd, hlogs' p hp.1 hp.2, hrep⟩
      · obtain ⟨entry, d, hlook, -, -⟩ := hstored p hp ho
        exact Option.isSome_of_eq_some hlook
    · rw [AList.lookup_insert_ne hnn] at hlook
      obtain ⟨hcount, hst, hsome⟩ := h.opened hlook
      refine ⟨?_, fun {p entry} hl => ?_, hsome⟩
      · rw [Catalog.counts_touch, Function.update_of_ne hnn]
        exact hcount
      · obtain ⟨hp, ho, d, rs, hd, hl, hrep⟩ := hst hl
        refine ⟨hp, ho, d, rs, ?_, ?_, hrep⟩
        · rw [hpart name' p (fun h' => hnn h'.1), hd]
        · rw [hlogs name' p (fun h' => hnn h'.1), hl]

/-- **Opening a topic that is not open**, in the two cases of the source: the
file with its number is there, or it is written first. -/
theorem openLocked_spec (h : t.Rep v c) (hname : validateName name = .ok ())
    (partitions : Option ℕ) :
    ∃ topic t' v', t.openLocked v name partitions = (.ok topic, t', v')
      ∧ topic.partitions = (c.openAs t.holder name partitions).1
      ∧ t'.opened.lookup name = some topic
      ∧ Follows t v (.ok topic, t', v') (.ok topic) (c.openAs t.holder name partitions).2 := by
  obtain ⟨n, hn⟩ : ∃ n, n = (c.counts name).getD (t.countOf partitions) := ⟨_, rfl⟩
  have hopenAs : c.openAs t.holder name partitions = (n, c.touch t.holder name n) := by
    rw [hn]
    rfl
  have hpos : 0 < n := by
    rw [hn]
    cases hc : c.counts name with
    | some m => exact (h.stores.names hc).2
    | none => exact Holder.countOf_pos (h := t.holder) h.default_pos partitions
  -- after `topic.json` is there
  obtain ⟨v₁, hv₁⟩ : ∃ v₁, v₁ = if (c.counts name).isNone then v.writeMeta name n else v := ⟨_, rfl⟩
  have hmeta₁ : ∀ name', v₁.root.metaFile name'
      = if name' = name then some (TopicJson.dumps n) else v.root.metaFile name' := by
    intro name'
    rw [hv₁]
    split_ifs with hnone hnn hnn
    · rw [Volume.root_writeMeta, Root.metaFile_setMeta, if_pos hnn]
    · rw [Volume.root_writeMeta, Root.metaFile_setMeta, if_neg hnn]
    · cases hm : c.counts name with
      | none => exact absurd (by rw [hm]; rfl) hnone
      | some m =>
        rw [hnn, h.stores.metaFile, hn, hm]
        rfl
    · rfl
  have hpart₁ : ∀ name' p, v₁.root.part name' p = v.root.part name' p := by
    intro name' p
    rw [hv₁]
    split_ifs
    · rw [Volume.root_writeMeta, Root.part_setMeta]
    · rfl
  have halways₁ : ∀ {P}, Root.Stable P → v.Always P → v₁.Always P := by
    intro P hP hv
    rw [hv₁]
    split_ifs with hc
    · refine hv.writeMeta hP ?_ hname hpos
      rw [h.stores.metaFile, Option.isNone_iff_eq_none.mp hc]
      rfl
    · exact hv
  have hmem : ∀ p, p ∈ (List.range n).filter (t.owns name) ↔ p < n ∧ t.owns name p = true := by
    intro p
    rw [List.mem_filter, List.mem_range]
  obtain ⟨stored, v₂, hlogs, hmeta₂, hpart₂, hstored, hnone, halways₂⟩ :=
    openLogs_spec (t := t) h.limit (List.nodup_range.filter (t.owns name)) (v := v₁)
      (fun p _ => (by
        have := keeps_disk h.stores name p
        unfold Volume.disk at this ⊢
        rwa [hpart₁] : Keeps (v₁.disk name p).view (c.records name p) 0))
  have hrep : Rep { t with opened := t.opened.insert name ⟨n, stored⟩ } v₂
      (c.touch t.holder name n) := by
    refine h.touch hname hpos (fun m hm => by rw [hn, hm]; rfl) (fun name' => ?_)
      (fun name' p hp => ?_) (fun p hp ho => hstored p ((hmem p).mpr ⟨hp, ho⟩))
      (fun p hp => hnone p fun hp' => hp ((hmem p).mp hp'))
    · rw [hmeta₂, hmeta₁]
    · rw [hpart₂ name' p (fun hp' => hp ⟨hp'.1, (hmem p).mp hp'.2⟩), hpart₁]
  rw [hopenAs]
  refine ⟨⟨n, stored⟩, { t with opened := t.opened.insert name ⟨n, stored⟩ }, v₂, ?_, rfl,
    AList.lookup_insert _, rfl, hrep, rfl, fun hP hv => halways₂ hP ?_
      (fun p hp => ((hmem p).mp hp).1) (halways₁ hP hv)⟩
  case refine_2 => rw [hmeta₁, if_pos rfl]
  unfold openLocked
  rw [Volume.readMeta_eq (h.stores.metaFile name)]
  simp only [← hn, ← hv₁, hlogs]

/-- A topic that is open is there, with its directories; opening it in the
catalog as well changes nothing. -/
theorem Rep.touch_eq_self (h : t.Rep v c) {topic : OpenTopic}
    (hlook : t.opened.lookup name = some topic) :
    c.touch t.holder name topic.partitions = c := by
  obtain ⟨hcount, hstored, hsome⟩ := h.opened hlook
  refine Catalog.touch_eq_self hcount fun p hp ho => ?_
  obtain ⟨entry, hentry⟩ := Option.isSome_iff_exists.mp (hsome p hp ho)
  obtain ⟨-, -, d, rs, -, hl, -⟩ := hstored hentry
  exact Option.isSome_of_eq_some hl

/-- **Taking a topic from the cache, or opening it.** -/
theorem openCached_spec (h : t.Rep v c) (hname : validateName name = .ok ())
    (partitions : Option ℕ) :
    ∃ topic t' v', t.openCached v name partitions = (.ok topic, t', v')
      ∧ topic.partitions = (c.openAs t.holder name partitions).1
      ∧ t'.opened.lookup name = some topic
      ∧ Follows t v (.ok topic, t', v') (.ok topic) (c.openAs t.holder name partitions).2 := by
  unfold openCached
  cases hlook : t.opened.lookup name with
  | none => exact openLocked_spec h hname partitions
  | some topic =>
    have hopenAs : c.openAs t.holder name partitions = (topic.partitions, c) := by
      unfold Catalog.openAs
      simp only [(h.opened hlook).count, Option.getD_some, h.touch_eq_self hlook]
    rw [hopenAs]
    exact ⟨topic, t, v, rfl, rfl, hlook, h.follows _⟩

/-- **`create` does what the catalog's does.** -/
theorem create_follows (h : t.Rep v c) (name : String) (partitions : Option ℕ) :
    Follows t v (t.create v name partitions) (c.create t.holder name partitions).1
      (c.create t.holder name partitions).2 := by
  unfold create Catalog.create
  cases hname : validateName name with
  | error e => exact h.follows _
  | ok u =>
    obtain ⟨topic, t', v', hopen, hn, -, hf⟩ := openCached_spec h hname partitions
    simp only [hopen]
    refine hf.trans ⟨?_, hf.rep, rfl, fun _ hv => hv⟩
    show Except.ok topic.partitions = _
    rw [hn]

/-- A topic that is open is found as it is. -/
theorem existing_of_opened {topic : OpenTopic} (hname : validateName name = .ok ())
    (hlook : t.opened.lookup name = some topic) : t.existing v name = (.ok topic, t, v) := by
  unfold existing
  rw [hname]
  simp only [hlook]

/-- **A topic that exists, open**, or the reason why not. In the second case
the entry of the cache comes with it, since that is what every caller goes on
to use. -/
theorem existing_spec (h : t.Rep v c) (name : String) :
    (∃ e, t.existing v name = (.error e, t, v) ∧ c.existing t.holder name = (.error e, c))
    ∨ ∃ topic t' v', t.existing v name = (.ok topic, t', v')
        ∧ c.existing t.holder name = (.ok topic.partitions, c.touch t.holder name topic.partitions)
        ∧ t'.opened.lookup name = some topic
        ∧ Follows t v (.ok topic, t', v') (.ok topic)
            (c.touch t.holder name topic.partitions) := by
  unfold existing Catalog.existing
  cases hname : validateName name with
  | error e => exact Or.inl ⟨e, rfl, rfl⟩
  | ok u =>
    cases hlook : t.opened.lookup name with
    | some topic =>
      refine Or.inr ⟨topic, t, v, rfl, ?_, hlook, ?_⟩
      · simp only [(h.opened hlook).count]
      · rw [h.touch_eq_self hlook]
        exact h.follows _
    | none =>
      simp only [Volume.readMeta_eq (h.stores.metaFile name)]
      cases hc : c.counts name with
      | none => exact Or.inl ⟨_, rfl, rfl⟩
      | some n =>
        obtain ⟨topic, t', v', hopen, hn, hlook', hf⟩ := openLocked_spec h hname none
        have hopenAs : c.openAs t.holder name none = (n, c.touch t.holder name n) := by
          unfold Catalog.openAs
          rw [hc]
          rfl
        rw [hopenAs] at hn hf
        have hn : topic.partitions = n := hn
        refine Or.inr ⟨topic, t', v', hopen, ?_, hlook', ?_⟩
        · simp only [hn]
        · rw [hn]
          exact hf

/-! ## Reading

A read looks at the directory through the log. Both stand for the same list of
records, so what it yields is that list from the offset on, and no error. -/

/-- The number of partitions is answered as the catalog answers it. -/
theorem partitionsOf_follows (h : t.Rep v c) (name : String) :
    Follows t v (t.partitionsOf v name) (c.existing t.holder name).1
      (c.existing t.holder name).2 := by
  unfold partitionsOf
  rcases existing_spec h name with ⟨e, ht, hc⟩ | ⟨topic, t', v', ht, hc, -, hf⟩
  · rw [ht, hc]
    exact h.follows _
  · rw [ht, hc]
    exact hf.trans ⟨rfl, hf.rep, rfl, fun _ hv => hv⟩

/-- **Checking a partition** of an open topic answers as the catalog does,
and gives a log that stands for the partition's records. -/
theorem checkPartition_spec {topic : OpenTopic} {root : Root} {owns : ℕ → Bool} {h' : Holder}
    (hown : h'.owns name = owns) (h : Opens topic owns root c name) (partition : ℤ) :
    (∃ e, checkPartition name topic partition = .error e
      ∧ Catalog.checkPartition h' name topic.partitions partition = .error e)
    ∨ ∃ entry p d rs, checkPartition name topic partition = .ok entry
        ∧ Catalog.checkPartition h' name topic.partitions partition = .ok p
        ∧ partition = p ∧ topic.stored.lookup p = some entry ∧ root.part name p = some d
        ∧ c.logs name p = some rs ∧ entry.log.Represents d.logs.view rs 0 := by
  unfold checkPartition Catalog.checkPartition raiseIf
  by_cases hr : 0 ≤ partition ∧ partition < topic.partitions
  · rw [if_neg (not_not.mpr hr), hown]
    cases hlook : topic.stored.lookup partition.toNat with
    | none =>
      refine Or.inl ⟨_, rfl, ?_⟩
      rw [if_neg]
      · rfl
      · intro ho
        have := h.isSome partition.toNat (by omega) ho
        rw [hlook] at this
        cases this
    | some entry =>
      obtain ⟨hp, ho, d, rs, hd, hl, hrep⟩ := h.stored hlook
      refine Or.inr ⟨entry, partition.toNat, d, rs, rfl, ?_, by omega, hlook, hd, hl, hrep⟩
      rw [if_pos ho]
      rfl
  · rw [if_pos hr]
    exact Or.inl ⟨_, rfl, rfl⟩

/-- **`read_from` does what the catalog's does**: it reads the records from
the offset on. -/
theorem readFrom_follows (h : t.Rep v c) (name : String) (offset partition : ℤ) :
    Follows t v (t.readFrom v name offset partition)
      ((c.readFrom t.holder name offset partition).1.map fun rs => ⟨rs, none⟩)
      (c.readFrom t.holder name offset partition).2 := by
  unfold readFrom get Catalog.readFrom
  rcases existing_spec h name with ⟨e, ht, hc⟩ | ⟨topic, t', v', ht, hc, hlook, hf⟩
  · rw [ht, hc]
    exact h.follows _
  · rw [ht, hc]
    refine hf.trans ⟨?_, hf.rep, rfl, fun _ hv => hv⟩
    have hown : t.holder.owns name = t'.owns name :=
      congrArg (fun hd : Holder => hd.owns name) hf.holder.symm
    rcases checkPartition_spec hown (hf.rep.opened hlook) partition with
      ⟨e, ht', hc'⟩ | ⟨entry, p, d, rs, ht', hc', rfl, hentry, hd, hl, hrep⟩
    · simp only [Except.bind, ht', hc', Except.map]
    · have hdisk : (v'.disk name p).dir = d := by
        rw [Volume.disk, hd]
        rfl
      have hrecs : (c.touch t.holder name topic.partitions).records name p = rs := by
        rw [Catalog.records, hl]
        rfl
      simp only [Except.bind, ht', hc', Except.map, Int.toNat_natCast, hdisk, hrecs]
      by_cases hoff : offset < 0
      · rw [if_pos hoff]
        unfold Log.readFrom
        rw [hrep.firstBase_eq, if_pos hoff]
      · rw [if_neg hoff, hrep.readFrom (not_lt.mp hoff)]

/-- **`route` does what the catalog's does.** -/
theorem route_follows (h : t.Rep v c) (name : String) (key : Option Bytes) :
    Follows t v (t.route v name key) (c.route t.holder name key).1
      (c.route t.holder name key).2 := by
  unfold route Catalog.route
  rcases existing_spec h name with ⟨e, ht, hc⟩ | ⟨topic, t', v', ht, hc, hlook, hf⟩
  · rw [ht, hc]
    exact h.follows _
  · simp only [ht, hc]
    have hpos := (hf.rep.stores.names (hf.rep.opened hlook).count).2
    obtain ⟨hanswer, hturn⟩ := partitionFor_eq hf.rep.turn hpos key
    exact hf.trans ⟨hanswer, hf.rep.setTurn hturn, rfl, fun _ hv => hv⟩

/-! ## Writing

An append changes one entry of the cache and one directory. That the others
stand as they did is the longer part of each proof. -/

/-- **A partition changes**: its log stands for other records now, and so does
its directory; every other partition of every topic is as it was. -/
theorem Rep.setEntry (h : t.Rep v c) {topic : OpenTopic}
    (hlook : t.opened.lookup name = some topic) {p : ℕ} {entry : Partition}
    (hentry : topic.stored.lookup p = some entry) {entry' : Partition} {disk : Disk}
    {rs : List Record} (hrep : entry'.log.Represents disk.view rs 0) {c' : Catalog}
    (hcounts : c'.counts = c.counts) (hturn : c'.turn = c.turn)
    (hlogs : ∀ name' p',
      c'.logs name' p' = if name' = name ∧ p' = p then some rs else c.logs name' p') :
    (t.setEntry name topic p entry').Rep (v.onPart name p disk) c' := by
  have hopen := h.opened hlook
  obtain ⟨hp, ho, -⟩ := hopen.stored hentry
  have hpart : ∀ name' p', (v.onPart name p disk).root.part name' p'
      = if name' = name ∧ p' = p then some disk.dir else v.root.part name' p' := fun _ _ =>
    Root.part_setPart ..
  refine ⟨⟨fun name' => ?_, fun name' p' => ?_, fun {name' n} hn => ?_,
    fun {name' p' rs'} hl => ?_⟩,
    fun {name' topic'} hlook' => ?_, h.turn.trans hturn.symm, h.limit, h.default_pos⟩
  · rw [Volume.root_onPart, Root.metaFile_setPart, hcounts]
    exact h.stores.metaFile name'
  · rw [hpart, hlogs]
    split_ifs with hc
    · exact .some hrep.keeps
    · exact h.stores.part name' p'
  · rw [hcounts] at hn
    exact h.stores.names hn
  · rw [hlogs] at hl
    rw [hcounts]
    split_ifs at hl with hc
    · rw [hc.1, hc.2]
      exact ⟨_, hopen.count, hp⟩
    · exact h.stores.counted hl
  · have hold : ∀ {topic' : OpenTopic} {name' : String},
        Opens topic' (t.owns name') v.root c name' →
        ∀ {p' entry'}, topic'.stored.lookup p' = some entry' → ¬(name' = name ∧ p' = p) →
        p' < topic'.partitions ∧ t.owns name' p' = true
          ∧ ∃ d rs, (v.onPart name p disk).root.part name' p' = some d ∧ c'.logs name' p' = some rs
            ∧ entry'.log.Represents d.logs.view rs 0 := by
      intro topic' name' hopen' p' entry' hlook' hne
      obtain ⟨hp', ho', d, rs', hd, hl, hrep'⟩ := hopen'.stored hlook'
      exact ⟨hp', ho', d, rs', by rw [hpart, if_neg hne, hd], by rw [hlogs, if_neg hne, hl], hrep'⟩
    by_cases hnn : name' = name
    · subst hnn
      have hlook' : some { topic with stored := topic.stored.insert p entry' } = some topic' := by
        rw [← hlook']
        exact (AList.lookup_insert t.opened).symm
      cases hlook'
      refine ⟨by rw [hcounts]; exact hopen.count, fun {p' entry''} hl => ?_, fun p' hp' ho' => ?_⟩
      · by_cases hpp : p' = p
        · subst hpp
          have hl : some entry' = some entry'' := by
            rw [← hl]
            exact (AList.lookup_insert topic.stored).symm
          cases hl
          exact ⟨hp, ho, disk.dir, rs, by rw [hpart, if_pos ⟨rfl, rfl⟩],
            by rw [hlogs, if_pos ⟨rfl, rfl⟩], hrep⟩
        · have hl : topic.stored.lookup p' = some entry'' := by
            rw [← hl]
            exact (AList.lookup_insert_ne hpp).symm
          exact hold hopen hl fun hc => hpp hc.2
      · show ((topic.stored.insert p entry').lookup p').isSome
        by_cases hpp : p' = p
        · rw [hpp, AList.lookup_insert]
          rfl
        · rw [AList.lookup_insert_ne hpp]
          exact hopen.isSome p' hp' ho'
    · have hlook' : t.opened.lookup name' = some topic' := by
        rw [← hlook']
        exact (AList.lookup_insert_ne hnn).symm
      have hopen' := h.opened hlook'
      exact ⟨by rw [hcounts]; exact hopen'.count, fun hl => hold hopen' hl fun hc => hnn hc.1,
        hopen'.isSome⟩

omit [Crc32] in
/-- The logs of a catalog, one of them written out. -/
theorem logs_eq_ite {p : ℕ} {rs : List Record} (hl : c.logs name p = some rs) (name' : String)
    (p' : ℕ) : c.logs name' p' = if name' = name ∧ p' = p then some rs else c.logs name' p' := by
  split_ifs with hc
  · rw [hc.1, hc.2, hl]
  · rfl

/-- **An append to a partition stored here** does what the catalog's does;
a sync behind it changes no record. -/
theorem appendTo_follows (h : t.Rep v c) {topic : OpenTopic}
    (hlook : t.opened.lookup name = some topic) {p : ℕ} {entry : Partition}
    (hentry : topic.stored.lookup p = some entry) (key value : Option Bytes)
    (timestamp : Option ℤ) (clock : ℤ) (elapsed : ℚ) :
    Follows t v (t.appendTo v name topic p entry key value timestamp clock elapsed)
      (c.appendTo name p key value timestamp clock).1
      (c.appendTo name p key value timestamp clock).2 := by
  obtain ⟨hp, ho, d, rs, hd, hl, hrep⟩ := (h.opened hlook).stored hentry
  have hdisk : v.disk name p = .of d := by rw [Volume.disk, hd]; rfl
  have hrep : entry.log.Represents (v.disk name p).view rs 0 := by rwa [hdisk]
  have hsome : (v.disk name p).Always KeepsSome := by
    rw [hdisk]
    exact (Disk.always_of _).mpr (by rw [hdisk] at hrep; exact hrep.keeps.some)
  have hrecs : c.records name p = rs := by rw [Catalog.records, hl]; rfl
  have hmeta : v.root.metaFile name = some (TopicJson.dumps topic.partitions) := by
    rw [h.stores.metaFile, (h.opened hlook).count]
    rfl
  obtain ⟨r, hr⟩ : ∃ r : Record, r = ⟨rs.length, timestamp.getD clock, key, value⟩ := ⟨_, rfl⟩
  unfold appendTo Catalog.appendTo
  simp only [Int.toNat_natCast, hrecs, ← hr]
  cases hencode : r.encode with
  | error e =>
    obtain ⟨log, disk, happ, hrep', halways⟩ := hrep.append_refused hr hencode
    simp only [happ]
    exact ⟨rfl, h.setEntry hlook hentry hrep' rfl rfl (logs_eq_ite hl), rfl,
      fun hP hv => hv.onPart hP (halways _ (fun w hw => hw.some) hsome) hmeta hp⟩
  | ok bs =>
    obtain ⟨log, disk, happ, hrep', halways⟩ :=
      hrep.append hr ((Record.encode_eq_ok_iff _ _).mp hencode).1
    have hkept : disk.Always KeepsSome :=
      halways _ (fun w hw => hw.some) (fun w hw => hw.some) hsome
    have hpush : ∀ name' p', (c.push name p r).logs name' p'
        = if name' = name ∧ p' = p then some (rs ++ [r]) else c.logs name' p' := by
      intro name' p'
      unfold Catalog.push
      rw [hrecs]
    simp only [happ]
    split_ifs with hsync
    · -- the records are there already when they are synced
      have hdisk' : (v.onPart name p disk).disk name p = .of disk.dir := by
        rw [Volume.disk, Volume.root_onPart, Root.part_setPart, if_pos ⟨rfl, rfl⟩]
        rfl
      have hthere : log.Represents (Disk.of disk.dir).view (rs ++ [r]) 0 := hrep'
      obtain ⟨log', disk', hsync, hrep'', halways'⟩ := hthere.sync
      have hmid : (t.setEntry name topic p ⟨log, entry.appends + 1⟩).Rep (v.onPart name p disk)
          (c.push name p r) := h.setEntry hlook hentry hrep' rfl rfl hpush
      have hpart : Root.setPart (v.root.setPart name p disk.dir) name p disk'.dir
          = (v.onPart name p disk).root.setPart name p disk'.dir := rfl
      simp only [hdisk', hsync]
      have hmeta' : (v.onPart name p disk).root.metaFile name
          = some (TopicJson.dumps topic.partitions) := by
        rw [Volume.root_onPart, Root.metaFile_setPart, hmeta]
      refine ⟨rfl, ?_, rfl, fun hP hv => (hv.onPart hP hkept hmeta hp).onPart hP
        (halways' _ (fun w hw => hw.some) ((Disk.always_of _).mpr hkept.1)) hmeta' hp⟩
      have hrep₀ : log'.Represents disk'.view (rs ++ [r]) 0 := hrep''.mono (Nat.zero_le _)
      have hgo : ((t.setEntry name topic p ⟨log, entry.appends + 1⟩).setEntry name _ p
          ⟨log', 0⟩).Rep ((v.onPart name p disk).onPart name p disk') (c.push name p r) :=
        hmid.setEntry (AList.lookup_insert _) (AList.lookup_insert _) hrep₀ rfl rfl
          (logs_eq_ite (by rw [hpush, if_pos ⟨rfl, rfl⟩]))
      unfold setEntry at hgo ⊢
      simpa [AList.insert_insert] using hgo
    · exact ⟨rfl, h.setEntry hlook hentry hrep' rfl rfl hpush, rfl,
        fun hP hv => hv.onPart hP hkept hmeta hp⟩

/-- **`append` does what the catalog's does**, whichever way it ends: the
name, the partition, its holder and the record can each be refused, and what
is not refused may be synced or not. -/
theorem append_follows (h : t.Rep v c) (name : String) (key value : Option Bytes)
    (timestamp : Option ℤ) (partition : Option ℤ) (clock : ℤ) (elapsed : ℚ) :
    Follows t v (t.append v name key value timestamp partition clock elapsed)
      (c.append t.holder name key value timestamp partition clock).1
      (c.append t.holder name key value timestamp partition clock).2 := by
  unfold append Catalog.append
  cases hname : validateName name with
  | error e => exact h.follows _
  | ok u =>
    obtain ⟨topic, t', v', hopen, hn, hlook, hf⟩ := openCached_spec h hname none
    cases hopenAs : c.openAs t.holder name none with
    | mk n c' =>
    rw [hopenAs] at hn hf
    have hn : topic.partitions = n := hn
    subst hn
    have hrep : t'.Rep v' c' := hf.rep
    have hpos := (hrep.stores.names (hrep.opened hlook).count).2
    obtain ⟨partitioner, hchoose, hturn⟩ := choose_eq hrep.turn hpos key partition
    have hmoved := hrep.setTurn hturn
    have hlook' : ({ t' with partitioner } : Topic).opened.lookup name = some topic := hlook
    have hf' : Follows t v (.ok topic, { t' with partitioner }, v') (.ok topic)
        { c' with turn := (Catalog.target c'.turn key partition topic.partitions).2 } :=
      ⟨rfl, hmoved, hf.holder, hf.always⟩
    simp only [hopen, hchoose]
    have hown : t.holder.owns name = ({ t' with partitioner } : Topic).owns name :=
      congrArg (fun hd : Holder => hd.owns name) hf'.holder.symm
    rcases checkPartition_spec hown (hmoved.opened hlook')
        (Catalog.target c'.turn key partition topic.partitions).1 with
      ⟨e, ht, hc⟩ | ⟨entry, p, d, rs, ht, hc, hp, hentry, -, -, -⟩
    · simp only [ht, hc]
      exact hf'.trans (hmoved.follows _)
    · rw [hp] at ht hc
      simp only [hp, ht, hc]
      exact hf'.trans (appendTo_follows hmoved hlook' hentry key value timestamp clock elapsed)

/-! ## Lives

The two ends of a process that goes well: it begins with nothing open, over
whatever root stores a catalog, and ends with every log closed. -/

/-- **A new registry** over a data root, with nothing open yet. It stands for
the catalog that the root stores, and no file has been looked at. -/
theorem rep_init (path : String) {partitions : ℕ} (syncPolicy : SyncPolicy) {maxSegmentBytes : ℤ}
    (owns : String → ℕ → Bool) (hpos : 0 < partitions)
    (hlimit : 0 < maxSegmentBytes ∧ maxSegmentBytes ≤ maxU32 + 1) (h : v.root.Stores c) :
    ∃ t, Topic.init path partitions syncPolicy maxSegmentBytes owns = .ok t
      ∧ t.Rep v { c with turn := 0 } ∧ t.holder = ⟨owns, partitions⟩ := by
  refine ⟨⟨path, partitions, syncPolicy, maxSegmentBytes, owns, ⟨0⟩, ∅⟩, ?_, ?_, rfl⟩
  · unfold Topic.init raiseIf
    rw [if_neg (by omega)]
    rfl
  · refine ⟨⟨h.metaFile, h.part, h.names, h.counted⟩, fun hlook => ?_, rfl, hlimit, hpos⟩
    cases hlook

/-- Where a registry is in a volume does not depend on how the volume got
there. -/
theorem Rep.of (h : t.Rep v c) : t.Rep (.of v.root) c :=
  ⟨h.stores, h.opened, h.turn, h.limit, h.default_pos⟩

/-- What a data root stores does not depend on its partitions' bytes, as
long as each keeps its records. -/
theorem stores_onPart (h : v.root.Stores c) {p : ℕ} {rs : List Record} {disk : Disk}
    (hl : c.logs name p = some rs) (hkeeps : Keeps disk.view rs 0) :
    (v.onPart name p disk).root.Stores c := by
  refine ⟨fun name' => ?_, fun name' p' => ?_, h.names, h.counted⟩
  · rw [Volume.root_onPart, Root.metaFile_setPart]
    exact h.metaFile name'
  · rw [Volume.root_onPart, Root.part_setPart]
    split_ifs with hc
    · rw [hc.1, hc.2, hl]
      exact .some hkeeps
    · exact h.part name' p'

/-- **Closing partitions** changes no record. Each directory keeps the list
that its log stood for. -/
theorem closeParts_spec {parts : List (ℕ × Partition)} (hnd : (parts.map Prod.fst).Nodup)
    {v : Volume} (h : v.root.Stores c)
    (hparts : ∀ e ∈ parts, ∃ d rs, v.root.part name e.1 = some d ∧ c.logs name e.1 = some rs
      ∧ e.2.log.Represents d.logs.view rs 0) :
    ∃ v', closeParts name parts v = ([], v') ∧ v'.root.Stores c
      ∧ (∀ name' p, ¬(name' = name ∧ p ∈ parts.map Prod.fst) →
          v'.root.part name' p = v.root.part name' p)
      ∧ ∀ {P}, Root.Stable P → v.Always P → v'.Always P := by
  induction parts generalizing v with
  | nil => exact ⟨v, rfl, h, fun _ _ _ => rfl, fun _ hv => hv⟩
  | cons e parts ih =>
    obtain ⟨p, entry⟩ := e
    obtain ⟨hp, hnd⟩ := List.nodup_cons.mp hnd
    obtain ⟨d, rs, hd, hl, hrep⟩ := hparts (p, entry) List.mem_cons_self
    have hdisk : v.disk name p = .of d := by
      have hd : v.root.part name p = some d := hd
      rw [Volume.disk, hd]
      rfl
    have hrep : entry.log.Represents (v.disk name p).view rs 0 := by rwa [hdisk]
    obtain ⟨log, disk, hclose, hkeeps, halways⟩ := hrep.close
    have hstores := stores_onPart h hl (hkeeps.mono (Nat.zero_le _))
    have hrest : ∀ e ∈ parts, ∃ d rs, (v.onPart name p disk).root.part name e.1 = some d
        ∧ c.logs name e.1 = some rs ∧ e.2.log.Represents d.logs.view rs 0 := by
      intro e he
      obtain ⟨d, rs, hd, hl, hrep⟩ := hparts e (List.mem_cons_of_mem _ he)
      have hmem : e.1 ∈ parts.map Prod.fst := List.mem_map_of_mem he
      have hne : ¬(name = name ∧ e.1 = p) := fun heq => hp (heq.2 ▸ hmem)
      exact ⟨d, rs, by rw [Volume.root_onPart, Root.part_setPart, if_neg hne, hd], hl, hrep⟩
    obtain ⟨v', hgo, hstores', hpart, halways'⟩ := ih hnd hstores hrest
    obtain ⟨n, hn, hpn⟩ := h.counted hl
    have hmeta : v.root.metaFile name = some (TopicJson.dumps n) := by
      rw [h.metaFile, hn]
      rfl
    refine ⟨v', ?_, hstores', fun name' q hq => ?_, fun hP hv => halways' hP
      (hv.onPart hP (halways _ (fun w hw => hw.some) ?_) hmeta hpn)⟩
    · simp only [closeParts, hclose, hgo]
    · have hne : ¬(name' = name ∧ q = p) := fun heq =>
        hq ⟨heq.1, by rw [heq.2]; exact List.mem_cons_self⟩
      rw [hpart name' q (fun hq' => hq ⟨hq'.1, List.mem_cons_of_mem _ hq'.2⟩), Volume.root_onPart,
        Root.part_setPart, if_neg hne]
    · rw [hdisk] at hrep ⊢
      exact (Disk.always_of _).mpr hrep.keeps.some

/-- **Closing topics** changes no record, and no log refuses to close. -/
theorem closeTopics_spec (owns : String → ℕ → Bool) {topics : List (String × OpenTopic)}
    (hnd : (topics.map Prod.fst).Nodup) {v : Volume} (h : v.root.Stores c)
    (htopics : ∀ e ∈ topics, Opens e.2 (owns e.1) v.root c e.1) :
    ∃ v', closeTopics topics v = ([], v') ∧ v'.root.Stores c
      ∧ ∀ {P}, Root.Stable P → v.Always P → v'.Always P := by
  induction topics generalizing v with
  | nil => exact ⟨v, rfl, h, fun _ hv => hv⟩
  | cons e topics ih =>
    obtain ⟨name, topic⟩ := e
    obtain ⟨hname, hnd⟩ := List.nodup_cons.mp hnd
    have hopen : Opens topic (owns name) v.root c name := htopics (name, topic) List.mem_cons_self
    have hnodup : ((topic.stored.entries.map fun e => (e.1, e.2)).map Prod.fst).Nodup := by
      rw [List.map_map]
      exact topic.stored.nodupKeys
    obtain ⟨v₁, hparts, hstores, hpart, halways⟩ := closeParts_spec hnodup h (fun e he => by
      obtain ⟨⟨p, entry⟩, hmem, rfl⟩ := List.mem_map.mp he
      have hlook : topic.stored.lookup p = some entry :=
        AList.mem_lookup_iff.mpr hmem
      obtain ⟨-, -, d, rs, hd, hl, hrep⟩ := hopen.stored hlook
      exact ⟨d, rs, hd, hl, hrep⟩)
    obtain ⟨v', hgo, hstores', halways'⟩ := ih hnd hstores (fun e he => by
      have hmem : e.1 ∈ topics.map Prod.fst := List.mem_map_of_mem he
      have hne : e.1 ≠ name := fun heq => hname (heq ▸ hmem)
      obtain ⟨hcount, hst, hsome⟩ := htopics e (List.mem_cons_of_mem _ he)
      refine ⟨hcount, fun hl => ?_, hsome⟩
      obtain ⟨hp, ho, d, rs, hd, hl, hrep⟩ := hst hl
      exact ⟨hp, ho, d, rs, by rw [hpart _ _ (fun h' => hne h'.1), hd], hl, hrep⟩)
    refine ⟨v', ?_, hstores', fun hP hv => halways' hP (halways hP hv)⟩
    simp only [closeTopics, hparts, hgo, List.nil_append]

/-- **`close` changes no record**, raises nothing, and forgets what was
open. -/
theorem close_follows (h : t.Rep v c) : Follows t v (t.close v) (.ok ()) c
    ∧ (t.close v).2.1.opened = ∅ := by
  have hnodup : ((t.opened.entries.map fun e => (e.1, e.2)).map Prod.fst).Nodup := by
    rw [List.map_map]
    exact t.opened.nodupKeys
  obtain ⟨v', hclose, hstores, halways⟩ := closeTopics_spec t.owns hnodup h.stores
    (fun e he => by
      obtain ⟨⟨name, topic⟩, hmem, rfl⟩ := List.mem_map.mp he
      exact h.opened (AList.mem_lookup_iff.mpr hmem))
  unfold close
  simp only [hclose]
  have hopened : ∀ {name : String} {topic : OpenTopic},
      AList.lookup name (∅ : AList (fun _ : String => OpenTopic)) = some topic →
      Opens topic (t.owns name) v'.root c name := fun hlook => by
    rw [AList.lookup_empty] at hlook
    cases hlook
  exact ⟨⟨rfl, ⟨hstores, hopened, h.turn, h.limit, h.default_pos⟩, rfl, halways⟩, trivial⟩

end Topic

end Pyka
