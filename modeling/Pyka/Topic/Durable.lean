import Pyka.Topic.TopicSpec

/-!
# What of a registry is durable

`Topic.Rep` says which records a data root keeps, and leaves open how many of
them the disk would still have after the power has failed. That is followed
here: `Root.Kept` has for every partition a number of records that are
durable, `Topic.Durable` a registry whose open logs agree with it, and that
counts for each of them the appends since its last sync.

## Two numbers for a partition

An append that is answered has either left the first number as it was and
added 1 to the second, or made everything durable and set the second to `0`
(`Topic.append_durable`). The policy bounds the second number, and as long as
nobody else touches the log the two together make up the records that there
are; so what a crash can cost is bounded by the policy. That last step needs
one request at a time, and is made in `Broker.PowerLoss`; with two appends at
once the count may forget one (`Topic.Syncing`).

An operation that adds no record leaves both numbers as they are
(`Topic.Calm`). Closing makes durable what is open (`Topic.close_durable`).

## Why the records are given from outside

`Root.Kept` and the relations above it have the records and the numbers as
functions of a topic's name and a partition, given from outside, and not a
catalog. A power failure takes records away from under a topic, and what is
left need not be what any catalog had; so the disk is described alone, and
every directory there might be has its entry, an empty one where it does not
exist (`Root.dirOf`). Whether `topic.json` survived is another question
(`Broker.Outage`).
-/

namespace Pyka

open Struct (Bytes)

variable [Crc32]

/-! ## A data root

What every directory keeps, and how that changes when one directory does. One
that is not there counts as one with no files. -/

/-- The directory of a partition, one with no files in it where there is
none. -/
def Root.dirOf (root : Root) (name : String) (p : ℕ) : Dir := (root.part name p).getD .empty

omit [Crc32] in
/-- Writing a `topic.json` is none of the directories' business. -/
@[simp] theorem Root.dirOf_setMeta (root : Root) (name : String) (text : List Char)
    (name' : String) (p : ℕ) : (root.setMeta name text).dirOf name' p = root.dirOf name' p := by
  unfold Root.dirOf
  rw [Root.part_setMeta]

omit [Crc32] in
/-- A directory that is put somewhere is found there, and nowhere else. -/
@[simp] theorem Root.dirOf_setPart (root : Root) (name : String) (p : ℕ) (dir : Dir)
    (name' : String) (p' : ℕ) : (root.setPart name p dir).dirOf name' p'
      = if name' = name ∧ p' = p then dir else root.dirOf name' p' := by
  unfold Root.dirOf
  rw [Root.part_setPart]
  split_ifs <;> rfl

/-- **What a data root keeps**: the records of every partition, and that the
first so many of them are durable. -/
def Root.Kept (records : String → ℕ → List Record) (synced : String → ℕ → ℕ) (root : Root) :
    Prop :=
  ∀ name p, Keeps (root.dirOf name p).logs.view (records name p) (synced name p)

/-- One partition's list, or number, with another in its place. -/
def setAt {α : Type} (f : String → ℕ → α) (name : String) (p : ℕ) (a : α) : String → ℕ → α :=
  fun name' p' => if name' = name ∧ p' = p then a else f name' p'

omit [Crc32] in
@[simp] theorem setAt_self {α : Type} (f : String → ℕ → α) (name : String) (p : ℕ) (a : α) :
    setAt f name p a name p = a := if_pos ⟨rfl, rfl⟩

omit [Crc32] in
theorem setAt_of_ne {α : Type} (f : String → ℕ → α) {name name' : String} {p p' : ℕ} (a : α)
    (h : ¬(name' = name ∧ p' = p)) : setAt f name p a name' p' = f name' p' := if_neg h

omit [Crc32] in
@[simp] theorem setAt_eq_self {α : Type} (f : String → ℕ → α) (name : String) (p : ℕ) :
    setAt f name p (f name p) = f := by
  funext name' p'
  unfold setAt
  split_ifs with h
  · rw [h.1, h.2]
  · rfl

namespace Root.Kept

variable {root : Root} {records : String → ℕ → List Record} {synced : String → ℕ → ℕ}

/-- What is kept can be read back: the records are those that a log on each
directory reads. -/
theorem records_eq (h : root.Kept records synced) : root.records = records := by
  funext name p
  have hkeeps := h name p
  unfold Root.dirOf at hkeeps
  unfold Root.records
  cases hd : root.part name p with
  | none =>
    rw [hd] at hkeeps
    exact keeps_empty.records_eq.symm.trans hkeeps.records_eq
  | some d =>
    rw [hd] at hkeeps
    exact hkeeps.records_eq

/-- Nothing that is kept depends on the metadata. -/
theorem setMeta (h : root.Kept records synced) (name : String) (text : List Char) :
    (root.setMeta name text).Kept records synced := fun name' p => by
  rw [Root.dirOf_setMeta]
  exact h name' p

/-- **One directory changes.** It keeps other records now, or more of them for
good, and all others keep what they kept. -/
theorem setPart (h : root.Kept records synced) (name : String) (p : ℕ) {n : ℕ} {dir : Dir}
    {rs : List Record} (hdir : Keeps dir.logs.view rs n) :
    (root.setPart name p dir).Kept (setAt records name p rs) (setAt synced name p n) := by
  intro name' p'
  rw [Root.dirOf_setPart]
  unfold setAt
  split_ifs
  · exact hdir
  · exact h name' p'

/-- One directory changes, and keeps what it kept. -/
theorem setPart_same (h : root.Kept records synced) {name : String} {p : ℕ} {dir : Dir}
    (hdir : Keeps dir.logs.view (records name p) (synced name p)) :
    (root.setPart name p dir).Kept records synced := by
  have := h.setPart name p hdir
  rwa [setAt_eq_self, setAt_eq_self] at this

end Root.Kept

omit [Crc32] in
/-- What an operation finds of a partition is its directory, or an empty one. -/
theorem Volume.disk_eq (v : Volume) (name : String) (p : ℕ) :
    v.disk name p = .of (v.root.dirOf name p) := rfl

omit [Crc32] in
/-- **A data root over what is done to one directory.** -/
theorem Volume.Always.part {P : Root → Prop} {v : Volume} (h : v.Always P) {name : String} {p : ℕ}
    {disk : Disk} {K : (ℤ → Option File) → Prop} (hdisk : disk.Always K)
    (hP : ∀ dir : Dir, K dir.logs.view → P (v.root.setPart name p dir)) :
    (v.onPart name p disk).Always P := by
  refine ⟨hP _ hdisk.1, fun r hr => ?_⟩
  rcases List.mem_append.mp hr with hr | hr
  · obtain ⟨dir, hdir, rfl⟩ := List.mem_map.mp hr
    exact hP dir (hdisk.2 dir hdir)
  · rcases List.mem_cons.mp hr with rfl | hr
    · exact h.1
    · exact h.2 r hr

namespace Topic

/-! ## A registry

Of a registry it matters what its open logs stand for, and how many appends
each counts. -/

/-- How many records a partition that is open took since it was last synced,
and none for one that is not open. -/
def unsynced (t : Topic) (name : String) (p : ℕ) : ℕ :=
  (((t.opened.lookup name).bind fun topic => topic.stored.lookup p).map Partition.appends).getD 0

/-- **A registry over a data root that keeps records**: its logs stand for
them, and no more appends wait for a sync than its policy has. -/
structure Durable (t : Topic) (root : Root) (records : String → ℕ → List Record)
    (synced : String → ℕ → ℕ) : Prop where
  kept : root.Kept records synced
  opened : ∀ {name topic p entry}, t.opened.lookup name = some topic →
    topic.stored.lookup p = some entry → t.owns name p = true
      ∧ entry.log.Represents (root.dirOf name p).logs.view (records name p) (synced name p)
  waiting : ∀ {k}, t.syncPolicy.records = some k → ∀ name p, t.unsynced name p ≤ (k - 1).toNat
  limit : 0 < t.maxSegmentBytes ∧ t.maxSegmentBytes ≤ maxU32 + 1

/-- Every topic on disk is open. A broker that is ready has gone through all
topics, so this is so of it; closing then leaves nothing behind that waits for
a sync. -/
def AllOpen (t : Topic) (root : Root) : Prop :=
  ∀ name, (root.metaFile name).isSome → (t.opened.lookup name).isSome

/-- **An operation that adds no record**: what is durable is so afterwards,
what waits for a sync still does, and all along the directories kept what they
keep. -/
structure Calm (records : String → ℕ → List Record) (synced : String → ℕ → ℕ) (t : Topic)
    (v : Volume) (t' : Topic) (v' : Volume) : Prop where
  same : t' = { t with partitioner := t'.partitioner, opened := t'.opened }
  durable : t'.Durable v'.root records synced
  unsynced : t'.unsynced = t.unsynced
  stays : ∀ {name}, (t.opened.lookup name).isSome → (t'.opened.lookup name).isSome
  /-- A topic that is new is open. -/
  metaFile : ∀ name, v'.root.metaFile name = v.root.metaFile name ∨ (t'.opened.lookup name).isSome
  always : ∀ {P}, (∀ root, Root.Kept records synced root → P root) → v.Always P → v'.Always P

variable {t t' t'' : Topic} {v v' v'' : Volume} {records : String → ℕ → List Record}
  {synced : String → ℕ → ℕ}

/-- Doing nothing is calm. -/
theorem Durable.calm (h : t.Durable v.root records synced) : Calm records synced t v t v :=
  ⟨rfl, h, rfl, id, fun _ => Or.inl rfl, fun _ hv => hv⟩

/-- Two calm operations after each other are one. -/
theorem Calm.trans (h : Calm records synced t v t' v') (h' : Calm records synced t' v' t'' v'') :
    Calm records synced t v t'' v'' where
  same := by
    have h₁ := h.same
    have h₂ := h'.same
    rw [h₁] at h₂
    exact h₂
  durable := h'.durable
  unsynced := h'.unsynced.trans h.unsynced
  stays hlook := h'.stays (h.stays hlook)
  metaFile name := by
    rcases h'.metaFile name with hsame | hopen
    · rcases h.metaFile name with hsame' | hopen
      · exact Or.inl (hsame.trans hsame')
      · exact Or.inr (h'.stays hopen)
    · exact Or.inr hopen
  always hP hv := h'.always hP (h.always hP hv)

/-- A calm operation closes no topic, and a topic that it makes is open. -/
theorem Calm.allOpen (h : Calm records synced t v t' v') (hall : t.AllOpen v.root) :
    t'.AllOpen v'.root := by
  intro name hsome
  rcases h.metaFile name with hsame | hopen
  · rw [hsame] at hsome
    exact h.stays (hall name hsome)
  · exact hopen

/-- Which partitions are stored here is settled for the life of the process. -/
theorem Calm.owns (h : Calm records synced t v t' v') : t'.owns = t.owns := by rw [h.same]

/-- And so is when it syncs. -/
theorem Calm.syncPolicy (h : Calm records synced t v t' v') : t'.syncPolicy = t.syncPolicy := by
  rw [h.same]

/-- The turn of a record without a key is none of it: neither number depends
on it. -/
theorem Durable.setTurn (h : t.Durable v.root records synced) (partitioner : Partitioner) :
    Calm records synced t v { t with partitioner } v :=
  ⟨rfl, ⟨h.kept, h.opened, h.waiting, h.limit⟩, rfl, id, fun _ => Or.inl rfl, fun _ hv => hv⟩

/-! ## Opening

Opening recovers the logs of a topic, so it may cut off what is torn; of the
records that are kept it takes none, and counts of appends begin at `0`. -/

/-- **Opening a log** makes nothing durable and loses nothing that is. -/
theorem openLog_durable (hlimit : 0 < t.maxSegmentBytes ∧ t.maxSegmentBytes ≤ maxU32 + 1)
    (h : v.root.Kept records synced) (name : String) (p : ℕ) :
    ∃ log disk, t.openLog name p v = (.ok log, v.onPart name p disk)
      ∧ log.Represents disk.view (records name p) (synced name p)
      ∧ (v.onPart name p disk).root.Kept records synced
      ∧ ∀ {P}, (∀ root, Root.Kept records synced root → P root) → v.Always P →
          (v.onPart name p disk).Always P := by
  obtain ⟨log, disk, hinit, hrep, halways⟩ :=
    Log.init_of_keeps (v.disk name p) (s!"{t.path}/{name}/{p}") hlimit (h name p)
  refine ⟨log, disk, ?_, hrep, h.setPart_same hrep.keeps, fun hP hv => ?_⟩
  · unfold openLog
    rw [hinit]
  · exact hv.part (halways _ (fun w hw => hw) ((Disk.always_of _).mpr (h name p)))
      fun dir hdir => hP _ (h.setPart_same hdir)

/-- **Opening partitions**: the logs stand for what is kept, and none of them
has taken a record yet. -/
theorem openLogs_durable (hlimit : 0 < t.maxSegmentBytes ∧ t.maxSegmentBytes ≤ maxU32 + 1)
    (name : String) {ps : List ℕ} (hps : ps.Nodup) (h : v.root.Kept records synced) :
    ∃ stored v', t.openLogs name ps v = (.ok stored, v')
      ∧ v'.root.Kept records synced
      ∧ (∀ name', v'.root.metaFile name' = v.root.metaFile name')
      ∧ (∀ name' p, ¬(name' = name ∧ p ∈ ps) → v'.root.dirOf name' p = v.root.dirOf name' p)
      ∧ (∀ {p entry}, stored.lookup p = some entry → p ∈ ps ∧ entry.appends = 0
        ∧ entry.log.Represents (v'.root.dirOf name p).logs.view (records name p) (synced name p))
      ∧ ∀ {P}, (∀ root, Root.Kept records synced root → P root) → v.Always P → v'.Always P := by
  induction ps generalizing v with
  | nil =>
    exact ⟨∅, v, rfl, h, fun _ => rfl, fun _ _ _ => rfl, fun hl => (by cases hl),
      fun _ hv => hv⟩
  | cons p ps ih =>
    obtain ⟨hp, hnd⟩ := List.nodup_cons.mp hps
    obtain ⟨log, disk, hopen, hrep, hkept, halways⟩ := openLog_durable (t := t) hlimit h name p
    obtain ⟨stored, v', hlogs, hkept', hmeta, hdirs, hstored, halways'⟩ := ih hnd hkept
    refine ⟨stored.insert p { log, appends := 0 }, v', ?_, hkept', fun name' => ?_,
      fun name' q hq => ?_, fun {q entry} hq => ?_, fun hP hv => halways' hP (halways hP hv)⟩
    · simp only [openLogs, hopen, hlogs]
    · rw [hmeta, Volume.root_onPart, Root.metaFile_setPart]
    · have hne : ¬(name' = name ∧ q = p) := fun hq' => hq ⟨hq'.1, hq'.2 ▸ List.mem_cons_self⟩
      rw [hdirs name' q (fun hq' => hq ⟨hq'.1, List.mem_cons_of_mem _ hq'.2⟩), Volume.root_onPart,
        Root.dirOf_setPart, if_neg hne]
    · by_cases hqp : q = p
      · subst hqp
        rw [AList.lookup_insert] at hq
        cases hq
        refine ⟨List.mem_cons_self, rfl, ?_⟩
        rw [hdirs name q (fun hq' => hp hq'.2), Volume.root_onPart, Root.dirOf_setPart,
          if_pos ⟨rfl, rfl⟩]
        exact hrep
      · rw [AList.lookup_insert_ne hqp] at hq
        obtain ⟨hmem, hzero, hrep'⟩ := hstored hq
        exact ⟨List.mem_cons_of_mem _ hmem, hzero, hrep'⟩

/-- **Opening a topic that is not open**: nothing of it waits for a sync. -/
theorem openLocked_calm (h : t.Durable v.root records synced) {name : String}
    (hclosed : t.opened.lookup name = none) (partitions : Option ℕ) :
    Calm records synced t v (t.openLocked v name partitions).2.1
      (t.openLocked v name partitions).2.2
      ∧ ∀ {topic}, (t.openLocked v name partitions).1 = .ok topic →
          (t.openLocked v name partitions).2.1.opened.lookup name = some topic := by
  unfold openLocked
  cases hread : v.readMeta name with
  | error e => exact ⟨h.calm, fun htopic => by cases htopic⟩
  | ok found =>
    obtain ⟨n, hn⟩ : ∃ n, n = found.getD (t.countOf partitions) := ⟨_, rfl⟩
    obtain ⟨v₁, hv₁⟩ : ∃ v₁, v₁ = if found.isNone then v.writeMeta name n else v := ⟨_, rfl⟩
    have hkept₁ : v₁.root.Kept records synced := by
      rw [hv₁]
      split_ifs
      · exact h.kept.setMeta name _
      · exact h.kept
    have hmeta₁ : ∀ name', name' ≠ name → v₁.root.metaFile name' = v.root.metaFile name' := by
      intro name' hne
      rw [hv₁]
      split_ifs
      · rw [Volume.root_writeMeta, Root.metaFile_setMeta, if_neg hne]
      · rfl
    have hdirs₁ : ∀ name' p, v₁.root.dirOf name' p = v.root.dirOf name' p := by
      intro name' p
      rw [hv₁]
      split_ifs
      · rw [Volume.root_writeMeta, Root.dirOf_setMeta]
      · rfl
    have halways₁ : ∀ {P}, (∀ root, Root.Kept records synced root → P root) → v.Always P →
        v₁.Always P := by
      intro P hP hv
      rw [hv₁]
      split_ifs
      · refine ⟨hP _ (h.kept.setMeta name _), fun r hr => ?_⟩
        rcases List.mem_cons.mp hr with rfl | hr
        · exact hP _ (h.kept.setMeta name [])
        · rcases List.mem_cons.mp hr with rfl | hr
          · exact hv.1
          · exact hv.2 r hr
      · exact hv
    have hnd : ((List.range n).filter (t.owns name)).Nodup := List.nodup_range.filter _
    obtain ⟨stored, v₂, hlogs, hkept₂, hmeta₂, hdirs₂, hstored, halways₂⟩ :=
      openLogs_durable (t := t) h.limit name hnd hkept₁
    simp only [← hn, ← hv₁, hlogs]
    have hsame : unsynced { t with opened := t.opened.insert name ⟨n, stored⟩ } = t.unsynced := by
      funext name' p
      unfold unsynced
      by_cases hne : name' = name
      · subst hne
        rw [AList.lookup_insert, hclosed]
        show ((stored.lookup p).map Partition.appends).getD 0 = 0
        cases hp : stored.lookup p with
        | none => rfl
        | some entry => exact (hstored hp).2.1
      · rw [AList.lookup_insert_ne hne]
    refine ⟨⟨rfl, ⟨hkept₂, fun {name' topic p entry} hlook hentry => ?_, fun hk => ?_, h.limit⟩,
      hsame, fun {name'} hsome => ?_, fun name' => ?_, fun hP hv => halways₂ hP (halways₁ hP hv)⟩,
      fun htopic => ?_⟩
    · by_cases hne : name' = name
      · subst hne
        rw [AList.lookup_insert] at hlook
        cases hlook
        obtain ⟨hmem, -, hrep⟩ := hstored hentry
        exact ⟨(List.mem_filter.mp hmem).2, hrep⟩
      · rw [AList.lookup_insert_ne hne] at hlook
        rw [hdirs₂ name' p (fun hp => hne hp.1), hdirs₁]
        exact h.opened hlook hentry
    · rw [hsame]
      exact h.waiting hk
    · by_cases hne : name' = name
      · subst hne
        rw [AList.lookup_insert]
        rfl
      · rwa [AList.lookup_insert_ne hne]
    · by_cases hne : name' = name
      · subst hne
        rw [AList.lookup_insert]
        exact Or.inr rfl
      · exact Or.inl ((hmeta₂ name').trans (hmeta₁ name' hne))
    · cases htopic
      exact AList.lookup_insert _

/-- Taking a topic from the cache, or opening it, is calm. -/
theorem openCached_calm (h : t.Durable v.root records synced) (name : String)
    (partitions : Option ℕ) :
    Calm records synced t v (t.openCached v name partitions).2.1
      (t.openCached v name partitions).2.2
      ∧ ∀ {topic}, (t.openCached v name partitions).1 = .ok topic →
          (t.openCached v name partitions).2.1.opened.lookup name = some topic := by
  unfold openCached
  cases hlook : t.opened.lookup name with
  | some topic =>
    refine ⟨h.calm, fun htopic => ?_⟩
    cases htopic
    exact hlook
  | none => exact openLocked_calm h hlook partitions

/-- **Creating a topic** is calm, and leaves it open, whether it was there or
not. -/
theorem create_calm (h : t.Durable v.root records synced) (name : String) (partitions : Option ℕ) :
    Calm records synced t v (t.create v name partitions).2.1 (t.create v name partitions).2.2
      ∧ ∀ {n}, (t.create v name partitions).1 = .ok n →
          ((t.create v name partitions).2.1.opened.lookup name).isSome := by
  unfold create
  cases validateName name with
  | error e => exact ⟨h.calm, fun hok => by cases hok⟩
  | ok u =>
    obtain ⟨hcalm, hopen⟩ := openCached_calm h name partitions
    refine ⟨hcalm, fun {n} hok => ?_⟩
    cases hres : (t.openCached v name partitions).1 with
    | error e =>
      have hok : (t.openCached v name partitions).1.map OpenTopic.partitions = .ok n := hok
      rw [hres] at hok
      cases hok
    | ok topic => exact Option.isSome_of_eq_some (hopen hres)

/-- Asking for a topic is calm, also where the answer is an error. -/
theorem existing_calm (h : t.Durable v.root records synced) (name : String) :
    Calm records synced t v (t.existing v name).2.1 (t.existing v name).2.2 := by
  unfold existing
  cases validateName name with
  | error e => exact h.calm
  | ok u =>
    cases hlook : t.opened.lookup name with
    | some topic => exact h.calm
    | none =>
      cases hread : v.readMeta name with
      | error e => exact h.calm
      | ok found =>
        cases found with
        | none => exact h.calm
        | some n =>
          simp only
          exact (openLocked_calm h hlook none).1

/-- And so is asking where a record would go. -/
theorem route_calm (h : t.Durable v.root records synced) (name : String) (key : Option Bytes) :
    Calm records synced t v (t.route v name key).2.1 (t.route v name key).2.2 := by
  have hcalm := existing_calm h name
  unfold route
  cases hexists : t.existing v name with
  | mk res rest =>
    obtain ⟨t', v'⟩ := rest
    rw [hexists] at hcalm
    cases res with
    | error e => exact hcalm
    | ok topic => exact hcalm.trans (hcalm.durable.setTurn _)

/-! ## Appending

The one operation that adds a record. Whether a sync follows is decided after
the record is in the log and counted. -/

omit [Crc32] in
/-- Where it is not yet time, fewer appends wait than the policy has. -/
theorem lt_of_not_shouldSync {policy : SyncPolicy} {n : ℕ} {elapsed : ℚ} {k : ℤ}
    (h : ¬policy.shouldSync n elapsed = true) (hk : policy.records = some k) :
    n ≤ (k - 1).toNat := by
  unfold SyncPolicy.shouldSync at h
  rw [hk] at h
  have hlt : ¬k ≤ n := fun hle => h (by simp [hle])
  omega

omit [Crc32] in
/-- A partition's count is the one that was put there, and no other has
changed. -/
theorem unsynced_setEntry (t : Topic) (name : String) (topic : OpenTopic)
    (hlook : t.opened.lookup name = some topic) (p : ℕ) (entry : Partition) :
    (t.setEntry name topic p entry).unsynced = setAt t.unsynced name p entry.appends := by
  funext name' p'
  by_cases hp : name' = name ∧ p' = p
  · obtain ⟨rfl, rfl⟩ := hp
    rw [setAt_self]
    unfold unsynced setEntry
    rw [AList.lookup_insert, Option.bind_some]
    show (Option.map Partition.appends ((topic.stored.insert p' entry).lookup p')).getD 0 = _
    rw [AList.lookup_insert]
    rfl
  · rw [setAt_of_ne _ _ hp]
    unfold unsynced setEntry
    by_cases hne : name' = name
    · subst hne
      rw [AList.lookup_insert, hlook, Option.bind_some, Option.bind_some]
      show (Option.map Partition.appends ((topic.stored.insert p entry).lookup p')).getD 0 = _
      rw [AList.lookup_insert_ne fun hc => hp ⟨rfl, hc⟩]
    · rw [AList.lookup_insert_ne hne]

omit [Crc32] in
/-- What is open stays open when an entry is put back. -/
theorem isSome_setEntry (t : Topic) (name : String) (topic : OpenTopic) (p : ℕ) (entry : Partition)
    {name' : String} (h : (t.opened.lookup name').isSome) :
    ((t.setEntry name topic p entry).opened.lookup name').isSome := by
  unfold setEntry
  by_cases hne : name' = name
  · rw [hne, AList.lookup_insert]
    rfl
  · rwa [AList.lookup_insert_ne hne]

omit [Crc32] in
/-- So if every topic was open, every topic still is. -/
theorem allOpen_setEntry {root root' : Root}
    (hmeta : ∀ name', root'.metaFile name' = root.metaFile name')
    {name : String} {topic : OpenTopic} {p : ℕ} {entry : Partition} (h : t.AllOpen root) :
    (t.setEntry name topic p entry).AllOpen root' := fun name' hsome =>
  isSome_setEntry t name topic p entry (h name' (by rwa [← hmeta]))

/-- **One open partition changes**, with its directory: the log stands for
other records, or more of them are durable. That every other partition is as
it was makes up most of the proof. -/
theorem Durable.setEntry (h : t.Durable v.root records synced) {name : String} {topic : OpenTopic}
    (hlook : t.opened.lookup name = some topic) {p : ℕ} {entry : Partition}
    (hentry : topic.stored.lookup p = some entry) {root' : Root} {dir : Dir}
    (hdirs : ∀ name' p', root'.dirOf name' p'
      = if name' = name ∧ p' = p then dir else v.root.dirOf name' p')
    {e : Partition} {rs : List Record} {n : ℕ} (hrep : e.log.Represents dir.logs.view rs n)
    (hwait : ∀ {k}, t.syncPolicy.records = some k → e.appends ≤ (k - 1).toNat) :
    (t.setEntry name topic p e).Durable root' (setAt records name p rs)
      (setAt synced name p n) := by
  refine ⟨fun name' p' => ?_, fun {name' topic' p' entry'} hlook' hentry' => ?_,
    fun hk name' p' => ?_, h.limit⟩
  · rw [hdirs]
    unfold setAt
    split_ifs
    · exact hrep.keeps
    · exact h.kept name' p'
  · rw [hdirs]
    have hother : ¬(name' = name ∧ p' = p) → (∃ topic₀, t.opened.lookup name' = some topic₀
        ∧ topic₀.stored.lookup p' = some entry') → t.owns name' p' = true
        ∧ entry'.log.Represents (if name' = name ∧ p' = p then dir
          else v.root.dirOf name' p').logs.view (setAt records name p rs name' p')
          (setAt synced name p n name' p') := by
      rintro hne ⟨topic₀, hlook₀, hentry₀⟩
      rw [if_neg hne, setAt_of_ne _ _ hne, setAt_of_ne _ _ hne]
      exact h.opened hlook₀ hentry₀
    unfold Topic.setEntry at hlook'
    by_cases hn : name' = name
    · subst hn
      rw [AList.lookup_insert] at hlook'
      cases hlook'
      by_cases hp : p' = p
      · subst hp
        have hsame : some entry' = some e := hentry'.symm.trans (AList.lookup_insert _)
        cases hsame
        rw [if_pos ⟨rfl, rfl⟩, setAt_self, setAt_self]
        exact ⟨(h.opened hlook hentry).1, hrep⟩
      · exact hother (fun hc => hp hc.2)
          ⟨topic, hlook, (AList.lookup_insert_ne hp).symm.trans hentry'⟩
    · rw [AList.lookup_insert_ne hn] at hlook'
      exact hother (fun hc => hn hc.1) ⟨topic', hlook', hentry'⟩
  · rw [unsynced_setEntry t name topic hlook]
    unfold setAt
    split_ifs
    · exact hwait hk
    · exact h.waiting hk name' p'

/-- **An operation that adds a record to a partition.** Either what was
durable still is, and one record more waits for a sync, or everything is
durable and none does. All along the directories kept what they kept before or
what they keep afterwards. -/
structure Takes (records : String → ℕ → List Record) (synced : String → ℕ → ℕ) (t : Topic)
    (v : Volume) (name : String) (p : ℕ) (r : Record) (n : ℕ) (t' : Topic) (v' : Volume) :
    Prop where
  same : t' = { t with partitioner := t'.partitioner, opened := t'.opened }
  durable : t'.Durable v'.root (setAt records name p (records name p ++ [r]))
    (setAt synced name p n)
  waits : n = synced name p ∧ t'.unsynced = setAt t.unsynced name p (t.unsynced name p + 1)
    ∨ n = (records name p).length + 1 ∧ t'.unsynced = setAt t.unsynced name p 0
  allOpen : t.AllOpen v.root → t'.AllOpen v'.root
  always : ∀ {P}, (∀ root, Root.Kept records synced root → P root) →
    (∀ root, Root.Kept (setAt records name p (records name p ++ [r])) synced root → P root) →
    v.Always P → v'.Always P

/-- What an operation takes after a calm one. -/
theorem Calm.takes {name : String} {p n : ℕ} {r : Record} (h : Calm records synced t v t' v')
    (h' : Takes records synced t' v' name p r n t'' v'') :
    Takes records synced t v name p r n t'' v'' where
  same := by
    have h₁ := h.same
    have h₂ := h'.same
    rw [h₁] at h₂
    exact h₂
  durable := h'.durable
  waits := by
    have hw := h'.waits
    rwa [h.unsynced] at hw
  allOpen hall := h'.allOpen (h.allOpen hall)
  always hP hP' hv := h'.always hP hP' (h.always hP hv)

/-- **An append to an open partition**: the record is refused and nothing
changes, or it is taken. The cases are those of the source: no time for a
sync, or a sync that covers all there is. -/
theorem appendTo_durable (h : t.Durable v.root records synced) {name : String} {topic : OpenTopic}
    (hlook : t.opened.lookup name = some topic) {p : ℕ} {entry : Partition}
    (hentry : topic.stored.lookup p = some entry) (key value : Option Bytes)
    (timestamp : Option ℤ) (clock : ℤ) (elapsed : ℚ) :
    let out := t.appendTo v name topic p entry key value timestamp clock elapsed
    let r : Record := ⟨(records name p).length, timestamp.getD clock, key, value⟩
    (∃ e, out.1 = .error e ∧ Calm records synced t v out.2.1 out.2.2)
      ∨ out.1 = .ok ((p : ℤ), r.offset)
        ∧ ∃ n, Takes records synced t v name p r n out.2.1 out.2.2 := by
  obtain ⟨-, hrep⟩ := h.opened hlook hentry
  have hrep : entry.log.Represents (v.disk name p).view (records name p) (synced name p) := hrep
  have hnow : (v.disk name p).Always fun w => Keeps w (records name p) (synced name p) :=
    (Disk.always_of _).mpr hrep.keeps
  have hunsynced : t.unsynced name p = entry.appends := by
    unfold unsynced
    rw [hlook, Option.bind_some, hentry]
    rfl
  have hdirs : ∀ (dir : Dir) name' p', (v.root.setPart name p dir).dirOf name' p'
      = if name' = name ∧ p' = p then dir else v.root.dirOf name' p' := fun dir name' p' =>
    Root.dirOf_setPart ..
  have hkept : ∀ (dir : Dir) rs, Keeps dir.logs.view rs (synced name p) →
      (v.root.setPart name p dir).Kept (setAt records name p rs) synced := fun dir rs hdir => by
    have := h.kept.setPart name p hdir
    rwa [setAt_eq_self] at this
  obtain ⟨r, hr⟩ : ∃ r : Record, r = ⟨(records name p).length, timestamp.getD clock, key, value⟩ :=
    ⟨_, rfl⟩
  intro out r'
  have hr' : r' = r := hr.symm
  rw [hr']
  unfold out appendTo
  simp only [Int.toNat_natCast]
  cases hencode : r.encode with
  | error e =>
    obtain ⟨log, disk, happ, hrep', halways⟩ := hrep.append_refused hr hencode
    simp only [happ]
    have hdur := h.setEntry hlook hentry (hdirs disk.dir) (e := { entry with log }) hrep'
      (fun hk => hunsynced ▸ h.waiting hk name p)
    rw [setAt_eq_self, setAt_eq_self] at hdur
    refine Or.inl ⟨e, rfl, rfl, hdur, ?_, isSome_setEntry t name topic p _,
      fun name' => Or.inl ?_, fun hP hv => ?_⟩
    · rw [unsynced_setEntry t name topic hlook]
      show setAt t.unsynced name p entry.appends = t.unsynced
      rw [← hunsynced, setAt_eq_self]
    · rw [Volume.root_onPart, Root.metaFile_setPart]
    · exact hv.part (halways _ (fun w hw => hw) hnow)
        fun dir hdir => hP _ (h.kept.setPart_same hdir)
  | ok bs =>
    obtain ⟨log, disk, happ, hrep', halways⟩ :=
      hrep.append hr ((Record.encode_eq_ok_iff _ _).mp hencode).1
    obtain ⟨K, hK⟩ : ∃ K : (ℤ → Option File) → Prop, K = fun w =>
        Keeps w (records name p) (synced name p)
          ∨ Keeps w (records name p ++ [r]) (synced name p) :=
      ⟨_, rfl⟩
    have hdisk : disk.Always K := halways K (fun w hw => hK ▸ Or.inl hw)
      (fun w hw => hK ▸ Or.inr hw) ((Disk.always_of _).mpr (hK ▸ Or.inl hrep.keeps))
    have hthrough : ∀ {P : Root → Prop}, (∀ root, Root.Kept records synced root → P root) →
        (∀ root, Root.Kept (setAt records name p (records name p ++ [r])) synced root → P root) →
        ∀ dir : Dir, K dir.logs.view → P (v.root.setPart name p dir) := by
      intro P hP hP' dir hdir
      rw [hK] at hdir
      rcases hdir with hdir | hdir
      · exact hP _ (h.kept.setPart_same hdir)
      · exact hP' _ (hkept dir _ hdir)
    have hoffset : r.offset = (records name p).length := by rw [hr]
    have hmeta : ∀ name', (v.onPart name p disk).root.metaFile name' = v.root.metaFile name' := by
      intro name'
      rw [Volume.root_onPart, Root.metaFile_setPart]
    simp only [happ]
    refine Or.inr ?_
    split_ifs with hsync
    · -- everything that is there is made durable
      have hdisk' : (v.onPart name p disk).disk name p = .of disk.dir := by
        rw [Volume.disk_eq, Volume.root_onPart, Root.dirOf_setPart, if_pos ⟨rfl, rfl⟩]
      have hthere : log.Represents (Disk.of disk.dir).view
          (records name p ++ [r]) (synced name p) :=
        hrep'
      obtain ⟨log', disk', hsynced, hrep'', halways'⟩ := hthere.sync
      have hdirs' : ∀ name' p', ((v.onPart name p disk).onPart name p disk').root.dirOf name' p'
          = if name' = name ∧ p' = p then disk'.dir else v.root.dirOf name' p' := by
        intro name' p'
        rw [Volume.root_onPart, Root.dirOf_setPart, Volume.root_onPart, Root.dirOf_setPart]
        split_ifs <;> rfl
      simp only [hdisk', hsynced]
      rw [hoffset]
      refine ⟨rfl, (records name p).length + 1, rfl, ?_, Or.inr ⟨rfl, unsynced_setEntry t name topic
        hlook p _⟩, allOpen_setEntry fun name' => ?_, fun hP hP' hv => ?_⟩
      · refine h.setEntry hlook hentry hdirs' (e := ⟨log', 0⟩) ?_ (fun _ => Nat.zero_le _)
        have hlen : (records name p ++ [r]).length = (records name p).length + 1 := by simp
        rw [← hlen]
        exact hrep''
      · rw [Volume.root_onPart, Root.metaFile_setPart, hmeta]
      · refine (hv.part hdisk (hthrough hP hP')).part (halways' K (fun w hw => hK ▸ Or.inr hw)
          ((Disk.always_of _).mpr hdisk.1)) fun dir hdir => ?_
        have hset : Root.Kept records synced ((v.root.setPart name p disk.dir).setPart name p dir)
            ∨ Root.Kept (setAt records name p (records name p ++ [r])) synced
              ((v.root.setPart name p disk.dir).setPart name p dir) := by
          rw [hK] at hdir
          have hsame :
              ∀ name' p', ((v.root.setPart name p disk.dir).setPart name p dir).dirOf name' p'
              = (v.root.setPart name p dir).dirOf name' p' := by
            intro name' p'
            rw [Root.dirOf_setPart, Root.dirOf_setPart, Root.dirOf_setPart]
            split_ifs <;> rfl
          rcases hdir with hdir | hdir
          · exact Or.inl fun name' p' => by
              rw [hsame]
              exact h.kept.setPart_same hdir name' p'
          · exact Or.inr fun name' p' => by
              rw [hsame]
              exact hkept dir _ hdir name' p'
        rcases hset with hset | hset
        · exact hP _ hset
        · exact hP' _ hset
    · rw [hoffset]
      refine ⟨rfl, synced name p, rfl, h.setEntry hlook hentry (hdirs disk.dir)
        (e := ⟨log, entry.appends + 1⟩) hrep' (fun hk => lt_of_not_shouldSync hsync hk),
        Or.inl ⟨rfl, ?_⟩, allOpen_setEntry hmeta, fun hP hP' hv => hv.part hdisk (hthrough hP hP')⟩
      rw [unsynced_setEntry t name topic hlook, hunsynced]

/-- **An append**: an error changes no record, and a topic that it created
stays. -/
theorem append_durable (h : t.Durable v.root records synced) (name : String)
    (key value : Option Bytes) (timestamp partition : Option ℤ) (clock : ℤ) (elapsed : ℚ) :
    let out := t.append v name key value timestamp partition clock elapsed
    (∃ e, out.1 = .error e ∧ Calm records synced t v out.2.1 out.2.2)
      ∨ ∃ p : ℕ,
          let r : Record := ⟨(records name p).length, timestamp.getD clock, key, value⟩
          out.1 = .ok ((p : ℤ), r.offset) ∧ t.owns name p = true
            ∧ ∃ n, Takes records synced t v name p r n out.2.1 out.2.2 := by
  unfold append
  cases validateName name with
  | error e => exact Or.inl ⟨e, rfl, h.calm⟩
  | ok u =>
    obtain ⟨hcalm, hopen⟩ := openCached_calm h name none
    cases hcached : t.openCached v name none with
    | mk res rest =>
    obtain ⟨t₁, v₁⟩ := rest
    rw [hcached] at hcalm hopen
    cases res with
    | error e => exact Or.inl ⟨e, rfl, hcalm⟩
    | ok topic =>
      have hlook : t₁.opened.lookup name = some topic := hopen rfl
      cases hchoose : t₁.partitioner.choose key partition topic.partitions with
      | mk routed partitioner =>
      have hturn := hcalm.trans (hcalm.durable.setTurn partitioner)
      simp only [hchoose]
      cases routed with
      | error e => exact Or.inl ⟨e, rfl, hturn⟩
      | ok q =>
        simp only
        cases hcheck : checkPartition name topic q with
        | error e => exact Or.inl ⟨e, rfl, hturn⟩
        | ok entry =>
          unfold checkPartition at hcheck
          simp only [bind_eq_ok, raiseIf_eq_ok] at hcheck
          obtain ⟨-, hrange, hentry⟩ := hcheck
          obtain ⟨p, rfl⟩ : ∃ p : ℕ, q = p := ⟨q.toNat, by omega⟩
          rw [Int.toNat_natCast] at hentry
          cases hstored : topic.stored.lookup p with
          | none => rw [hstored] at hentry; cases hentry
          | some entry' =>
            rw [hstored] at hentry
            cases hentry
            have howns : t.owns name p = true := by
              have := (hturn.durable.opened hlook hstored).1
              rwa [hturn.owns] at this
            rcases appendTo_durable hturn.durable hlook hstored key value timestamp clock
              elapsed with
              ⟨e, he, hcalm'⟩ | ⟨hok, n, htakes⟩
            · exact Or.inl ⟨e, he, hturn.trans hcalm'⟩
            · exact Or.inr ⟨p, hok, howns, n, hturn.takes htakes⟩

/-! ## Closing

A log syncs before it closes. So after a closing that raises nothing, what was
open is durable to the last record. -/

/-- **Closing partitions** makes every record in them durable. -/
theorem closeParts_durable (name : String) {parts : List (ℕ × Partition)}
    (hnd : (parts.map Prod.fst).Nodup) (h : v.root.Kept records synced)
    (hparts : ∀ e ∈ parts, e.2.log.Represents (v.root.dirOf name e.1).logs.view
      (records name e.1) (synced name e.1)) :
    ∃ v' synced', closeParts name parts v = ([], v') ∧ v'.root.Kept records synced'
      ∧ (∀ name' p, synced name' p ≤ synced' name' p)
      ∧ (∀ p ∈ parts.map Prod.fst, synced' name p = (records name p).length)
      ∧ (∀ name' p, ¬(name' = name ∧ p ∈ parts.map Prod.fst) →
        v'.root.dirOf name' p = v.root.dirOf name' p ∧ synced' name' p = synced name' p)
      ∧ ∀ {P}, (∀ root, Root.Kept records synced root → P root) → v.Always P → v'.Always P := by
  induction parts generalizing v synced with
  | nil => exact ⟨v, synced, rfl, h, fun _ _ => le_rfl, fun _ hp => (by cases hp),
      fun _ _ _ => ⟨rfl, rfl⟩, fun _ hv => hv⟩
  | cons e parts ih =>
    obtain ⟨p, entry⟩ := e
    obtain ⟨hp, hnd⟩ := List.nodup_cons.mp hnd
    have hp : p ∉ parts.map Prod.fst := hp
    have hrep : entry.log.Represents (v.disk name p).view (records name p) (synced name p) :=
      hparts (p, entry) List.mem_cons_self
    obtain ⟨log, disk, hclose, hkeeps, halways⟩ := hrep.close
    have hkept := h.setPart name p hkeeps
    rw [setAt_eq_self] at hkept
    have hdirs : ∀ name' q, ¬(name' = name ∧ q = p) →
        (v.onPart name p disk).root.dirOf name' q = v.root.dirOf name' q := fun name' q hne => by
      rw [Volume.root_onPart, Root.dirOf_setPart, if_neg hne]
    have hmore : ∀ name' q, synced name' q
        ≤ setAt synced name p (records name p).length name' q := by
      intro name' q
      unfold setAt
      split_ifs with hc
      · rw [hc.1, hc.2]
        exact hrep.synced_le_length
      · exact le_rfl
    obtain ⟨v', synced', hgo, hkept', hmore', hclosed', hdirs', halways'⟩ := ih hnd
      (v := v.onPart name p disk) hkept (fun e he => by
        have hne : ¬(name = name ∧ e.1 = p) := fun heq =>
          hp (heq.2 ▸ List.mem_map_of_mem he)
        rw [hdirs name e.1 hne, setAt_of_ne _ _ hne]
        exact hparts e (List.mem_cons_of_mem _ he))
    refine ⟨v', synced', ?_, hkept', fun name' q => (hmore name' q).trans (hmore' name' q),
      fun q hq => ?_, fun name' q hne => ?_, fun {P} hP hv => halways' ?_ ?_⟩
    · simp only [closeParts, hclose, hgo]
    · rcases List.mem_cons.mp hq with rfl | hq
      · rw [(hdirs' name q fun hc => hp hc.2).2]
        exact setAt_self ..
      · exact hclosed' q hq
    · have hhere : ¬(name' = name ∧ q = p) := fun hc => hne ⟨hc.1, hc.2 ▸ List.mem_cons_self⟩
      obtain ⟨hdir, hsame⟩ := hdirs' name' q fun hc => hne ⟨hc.1, List.mem_cons_of_mem _ hc.2⟩
      exact ⟨hdir.trans (hdirs name' q hhere), hsame.trans (setAt_of_ne _ _ hhere)⟩
    · -- what is durable for the rest was so before
      exact fun root hroot => hP root fun name' q => (hroot name' q).mono (hmore name' q)
    · exact hv.part (halways _ (fun w hw => hw) ((Disk.always_of _).mpr hrep.keeps))
        fun dir hdir => hP _ (h.setPart_same hdir)

/-- **Closing topics** makes every record in them durable, by induction on the
topics. -/
theorem closeTopics_durable {topics : List (String × OpenTopic)}
    (hnd : (topics.map Prod.fst).Nodup) (h : v.root.Kept records synced)
    (htopics : ∀ e ∈ topics, ∀ {p entry}, e.2.stored.lookup p = some entry →
      entry.log.Represents (v.root.dirOf e.1 p).logs.view (records e.1 p) (synced e.1 p)) :
    ∃ v' synced', closeTopics topics v = ([], v') ∧ v'.root.Kept records synced'
      ∧ (∀ name p, synced name p ≤ synced' name p)
      ∧ (∀ e ∈ topics, ∀ p, (e.2.stored.lookup p).isSome → synced' e.1 p = (records e.1 p).length)
      ∧ (∀ name p, name ∉ topics.map Prod.fst → synced' name p = synced name p)
      ∧ ∀ {P}, (∀ root, Root.Kept records synced root → P root) → v.Always P → v'.Always P := by
  induction topics generalizing v synced with
  | nil => exact ⟨v, synced, rfl, h, fun _ _ => le_rfl, fun _ he => (by cases he),
      fun _ _ _ => rfl, fun _ hv => hv⟩
  | cons e topics ih =>
    obtain ⟨name, topic⟩ := e
    obtain ⟨hname, hnd⟩ := List.nodup_cons.mp hnd
    have hname : name ∉ topics.map Prod.fst := hname
    have hkeys : (topic.stored.entries.map fun e => (e.1, e.2)).map Prod.fst
        = topic.stored.keys := by
      rw [List.map_map]
      rfl
    have hnodup : ((topic.stored.entries.map fun e => (e.1, e.2)).map Prod.fst).Nodup := by
      rw [hkeys]
      exact topic.stored.keys_nodup
    obtain ⟨v₁, synced₁, hparts, hkept₁, hmore₁, hclosed₁, hdirs₁, halways₁⟩ :=
      closeParts_durable name hnodup h (fun e he => by
          obtain ⟨⟨p, entry⟩, hmem, rfl⟩ := List.mem_map.mp he
          exact htopics (name, topic) List.mem_cons_self (AList.mem_lookup_iff.mpr hmem))
    obtain ⟨v', synced', hgo, hkept', hmore', hclosed', hsame', halways'⟩ := ih hnd hkept₁
      (fun e he {p entry} hentry => by
        have hne : e.1 ≠ name := fun heq => hname (heq ▸ List.mem_map_of_mem he)
        obtain ⟨hdir, hsame⟩ := hdirs₁ e.1 p fun hc => hne hc.1
        rw [hdir, hsame]
        exact htopics e (List.mem_cons_of_mem _ he) hentry)
    refine ⟨v', synced', ?_, hkept', fun name' p => (hmore₁ name' p).trans (hmore' name' p),
      fun e he p hp => ?_, fun name' p hne => ?_, fun hP hv => halways'
        (fun root hroot => hP root fun name' p => (hroot name' p).mono (hmore₁ name' p))
        (halways₁ hP hv)⟩
    · simp only [closeTopics, hparts, hgo, List.nil_append]
    · rcases List.mem_cons.mp he with rfl | he
      · rw [hsame' name p hname]
        refine hclosed₁ p ?_
        rw [hkeys, ← AList.mem_keys, ← AList.lookup_isSome]
        exact hp
      · exact hclosed' e he p hp
    · have hne' : name' ≠ name := fun heq => hne (heq ▸ List.mem_cons_self)
      rw [hsame' name' p fun hmem => hne (List.mem_cons_of_mem _ hmem),
        (hdirs₁ name' p fun hc => hne' hc.1).2]

/-- **Closing a registry** makes durable what it has open, and nothing less
so. -/
theorem close_durable (h : t.Durable v.root records synced) :
    ∃ v' synced', t.close v = (.ok (), { t with opened := ∅ }, v') ∧ v'.root.Kept records synced'
      ∧ (∀ name p, synced name p ≤ synced' name p)
      ∧ (∀ {name topic p}, t.opened.lookup name = some topic → (topic.stored.lookup p).isSome →
          synced' name p = (records name p).length)
      ∧ ∀ {P}, (∀ root, Root.Kept records synced root → P root) → v.Always P → v'.Always P := by
  have hnodup : ((t.opened.entries.map fun e => (e.1, e.2)).map Prod.fst).Nodup := by
    rw [List.map_map]
    exact t.opened.nodupKeys
  obtain ⟨v', synced', hclose, hkept, hmore, hclosed, -, halways⟩ :=
    closeTopics_durable hnodup h.kept
    (fun e he {p entry} hentry => by
      obtain ⟨⟨name, topic⟩, hmem, rfl⟩ := List.mem_map.mp he
      exact (h.opened (AList.mem_lookup_iff.mpr hmem) hentry).2)
  refine ⟨v', synced', ?_, hkept, hmore, fun {name topic p} hlook hp => ?_, halways⟩
  · unfold close
    simp only [hclose]
  · exact hclosed (name, topic) (List.mem_map.mpr ⟨⟨name, topic⟩, AList.mem_lookup_iff.mp hlook,
      rfl⟩) p hp

end Topic

end Pyka
