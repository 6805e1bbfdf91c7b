import Pyka.Broker.Control
import Pyka.Broker.Ledger
import Pyka.Storage.Sizes

/-!
# The control plane tells the truth, unnoticed

What is said about segments adds up (`Admin.machine_tells`): they follow each
other without a gap from offset 0 to the next one, all but the last are
sealed, none of these is empty, and their sizes are what the records take. And
nothing that is asked over HTTP but the creation of a topic can be told from
the answers to anything else (`Admin.answers_filter`): a partition may be
rolled and synced at any moment.

## Against what it is measured

Against a ledger, which has topics and records and no segments
(`Broker.Ledger`). What the control plane says of a partition is not
determined by that, and is not meant to be: how the records are cut depends on
limits and on when somebody rolled. `Describes` says how the answer has to fit
the records, and leaves the cuts open. All other answers are determined, and
`Says` gives them.

## Why nobody notices

A roll, a sync and a look leave the records as they are and the log open for
the next append. They may open a topic, and with it make directories, which do
not count for any later answer (`Catalog.Alike`). So a run in which they are
left out has the same ledger, at each of its steps, and the same answers. The
creation of a topic is no different from one that comes over gRPC, and is not
left out.
-/

namespace Pyka

/-! ## What is said about segments

A log that stands for records, cut into segments in whatever way, and what is
told of them. -/

section Codec

variable [Crc32]

open Record (framing)

namespace Admin

/-- **What is said about a partition adds up**, for the records that it has. -/
structure PartitionInfo.Describes (info : PartitionInfo) (p : ℕ) (records : List Record) :
    Prop where
  partition : info.partition = p
  baseOffset : info.baseOffset = 0
  nextOffset : info.nextOffset = records.length
  sizeBytes : info.sizeBytes = (framing.encAll records).length
  /-- The first segment starts the partition, and each other one where the one
  before it ends. -/
  first : ∃ s rest, info.segments = s :: rest ∧ s.baseOffset = 0
  linked : info.segments.IsChain fun s s' => s'.baseOffset = s.nextOffset
  /-- The last one ends it and is written to; the others are sealed and have
  records. -/
  last : ∃ (older : List SegmentInfo) (active : SegmentInfo), info.segments = older ++ [active]
    ∧ active.nextOffset = records.length ∧ active.sealed = false
    ∧ ∀ s ∈ older, s.sealed = true ∧ s.baseOffset < s.nextOffset
  /-- The size of a segment is that of its records. -/
  segments : ∀ s ∈ info.segments, ∃ before own after : List Record, records = before ++ own ++ after
    ∧ s.baseOffset = before.length ∧ s.nextOffset = before.length + own.length
    ∧ s.sizeBytes = (framing.encAll own).length ∧ (own = [] → s.indexEntries = 0)

end Admin

namespace OlderHold

variable {closed : Bool} {base : ℤ} {segs : List Segment} {rss : List (List Record)}

/-- An older segment holds a stretch of the records, and starts where the one
before ends. -/
theorem split (h : OlderHold closed base segs rss) : ∀ s ∈ segs, ∃ before own after,
      rss.flatten = before ++ own ++ after ∧ own ∈ rss ∧ s.Holds own
        ∧ s.baseOffset = base + before.length ∧ s.closed = closed := by
  induction segs generalizing base rss with
  | nil => exact fun s hs => by cases hs
  | cons seg segs ih =>
    cases rss with
    | nil => exact h.elim
    | cons rs rss =>
      obtain ⟨⟨hholds, hbase, hclosed⟩, hrest⟩ := h
      intro s hs
      rcases List.mem_cons.mp hs with rfl | hs
      · exact ⟨[], rs, rss.flatten, rfl, List.mem_cons_self, hholds, by simpa using hbase, hclosed⟩
      · obtain ⟨before, own, after, hflat, hmem, hs', hb, hc⟩ := ih hrest s hs
        refine ⟨rs ++ before, own, after, ?_, List.mem_cons_of_mem _ hmem, hs', ?_, hc⟩
        · rw [List.flatten_cons, hflat]
          simp only [List.append_assoc]
        · rw [hb, List.length_append]
          push_cast
          ring

/-- The sizes of older segments add up to that of their records. -/
theorem sum_position (h : OlderHold closed base segs rss) :
    (segs.map Segment.position).sum = (framing.encAll rss.flatten).length := by
  induction segs generalizing base rss with
  | nil =>
    cases rss with
    | nil => rfl
    | cons rs rss => exact h.elim
  | cons seg segs ih =>
    cases rss with
    | nil => exact h.elim
    | cons rs rss =>
      rw [List.map_cons, List.sum_cons, ih h.2, h.1.1.position, List.flatten_cons,
        framing.encAll_append, List.length_append]

end OlderHold

namespace Log

variable {l : Log} {v : ℤ → Option File} {rss : List (List Record)} {rs : List Record}
  {d : Option ℕ}

/-- The first segment starts at 0, so the partition is told to. -/
theorem Holds.head (h : l.Holds v rss rs d) :
    ∃ s rest, l.segments = s :: rest ∧ s.baseOffset = 0 := by
  have holder := h.older
  have hbase := h.active_base
  unfold segments
  cases hsegs : l.older with
  | nil =>
    rw [hsegs] at holder
    cases rss with
    | nil => exact ⟨l.active, [], rfl, hbase⟩
    | cons rs rss => exact holder.elim
  | cons seg segs =>
    rw [hsegs] at holder
    cases rss with
    | nil => exact holder.elim
    | cons rs rss => exact ⟨seg, segs ++ [l.active], rfl, holder.1.2.1⟩

/-- **The segments of a log are told as they are.** -/
theorem Holds.describes (h : l.Holds v rss rs d) (p : ℕ) :
    (Admin.partitionInfo p l).Describes p (rss.flatten ++ rs) := by
  obtain ⟨first, rest, hsegs, hfirst⟩ := h.head
  have hactive : l.active.nextOffset = (rss.flatten ++ rs).length := by
    rw [h.active.next, h.active_base, List.length_append, Nat.cast_add]
  have hinfos : l.segments.map Admin.SegmentInfo.of
      = l.older.map Admin.SegmentInfo.of ++ [.of l.active] := by
    unfold segments
    rw [List.map_append]
    rfl
  refine ⟨rfl, ?_, hactive, ?_, ⟨.of first, rest.map .of, ?_, hfirst⟩, ?_,
    ⟨l.older.map .of, .of l.active, hinfos, hactive, h.active_open, fun s hs => ?_⟩,
    fun s hs => ?_⟩
  · show ((l.segments.map Admin.SegmentInfo.of).headD _).baseOffset = 0
    rw [hsegs]
    exact hfirst
  · show ((l.segments.map Admin.SegmentInfo.of).map Admin.SegmentInfo.sizeBytes).sum = _
    have hsizes : (l.segments.map Admin.SegmentInfo.of).map Admin.SegmentInfo.sizeBytes
        = l.older.map Segment.position ++ [l.active.position] := by
      rw [hinfos, List.map_append, List.map_map]
      rfl
    rw [hsizes, List.sum_append, h.older.sum_position, List.sum_singleton, h.active.position,
      framing.encAll_append, List.length_append]
  · show l.segments.map Admin.SegmentInfo.of = _
    rw [hsegs]
    rfl
  · show (l.segments.map Admin.SegmentInfo.of).IsChain _
    rw [List.isChain_map]
    exact h.older.isChain (by rw [h.active_base, zero_add])
  · obtain ⟨seg, hseg, rfl⟩ := List.mem_map.mp hs
    obtain ⟨before, own, after, -, hown, hholds, hb, hclosed⟩ := h.older.split seg hseg
    refine ⟨hclosed, ?_⟩
    have hpos := List.length_pos_iff.mpr (h.stored.sealed.nonempty own hown)
    show seg.baseOffset < seg.nextOffset
    rw [hholds.next]
    omega
  · have hs : s ∈ l.segments.map Admin.SegmentInfo.of := hs
    rw [hinfos] at hs
    have hentries : ∀ {seg : Segment} {own : List Record}, seg.Holds own → own = [] →
        (Admin.SegmentInfo.of seg).indexEntries = 0 := by
      rintro seg own hholds rfl
      refine List.length_eq_zero_iff.mpr (List.eq_nil_iff_forall_not_mem.mpr fun e he => ?_)
      exact absurd (hholds.sound e he).1 (Nat.not_lt_zero _)
    rcases List.mem_append.mp hs with hs | hs
    · obtain ⟨seg, hseg, rfl⟩ := List.mem_map.mp hs
      obtain ⟨before, own, after, hflat, -, hholds, hb, -⟩ := h.older.split seg hseg
      refine ⟨before, own, after ++ rs, ?_, ?_, ?_, hholds.position, hentries hholds⟩
      · rw [hflat]
        simp only [List.append_assoc]
      · rw [zero_add] at hb
        exact hb
      · show seg.nextOffset = _
        rw [hholds.next, hb, zero_add]
    · cases List.mem_singleton.mp hs
      refine ⟨rss.flatten, rs, [], (List.append_nil _).symm, h.active_base, ?_, h.active.position,
        hentries h.active⟩
      show l.active.nextOffset = _
      rw [h.active.next, h.active_base]

variable {records : List Record} {synced : ℕ}

/-- So it is of any log that stands for records. -/
theorem Represents.describes {l : Log} (h : l.Represents v records synced) (p : ℕ) :
    (Admin.partitionInfo p l).Describes p records := by
  obtain ⟨rss, rs, d, h, rfl, -⟩ := h
  exact h.describes p

/-- **A segment that has just been started.** -/
theorem Represents.of_empty {l : Log} (h : l.Represents v records synced)
    (hempty : l.active.position = 0) :
    Admin.SegmentInfo.of l.active = ⟨records.length, records.length, 0, 0, false⟩ := by
  obtain ⟨rss, rs, d, h, rfl, -⟩ := h
  obtain rfl := h.active.position_eq_zero_iff.mp hempty
  have hentries : l.active.index.entries = [] :=
    List.eq_nil_iff_forall_not_mem.mpr fun e he =>
      absurd (h.active.sound e he).1 (Nat.not_lt_zero _)
  have hnext := h.active.next
  rw [h.active_base] at hnext
  unfold Admin.SegmentInfo.of
  rw [h.active_base, hnext, hempty, hentries, h.active_open, List.append_nil]
  rfl

end Log

/-! ## What an endpoint comes to

Each endpoint for a store that stands for a catalog: what it says, and that
the catalog is alike after it. -/

namespace Catalog

/-- `Topic.get`, for the number of the partition. -/
def get (c : Catalog) (h : Holder) (name : String) (partition : ℤ) : Except PyError ℕ × Catalog :=
  let (res, c) := c.existing h name
  (res.bind fun n => checkPartition h name n partition, c)

/-- **The topics in order**, each once. -/
def Lists (c : Catalog) (names : List String) : Prop :=
  names.Pairwise (· < ·) ∧ ∀ name, name ∈ names ↔ (c.counts name).isSome

omit [Crc32] in
/-- There is one such list, as there is one way to put names in order. -/
theorem Lists.unique {c : Catalog} {names names' : List String} (h : c.Lists names)
    (h' : c.Lists names') : names = names' := by
  have hperm : names.Perm names' := (List.perm_ext_iff_of_nodup (h.1.imp fun hlt => hlt.ne)
    (h'.1.imp fun hlt => hlt.ne)).mpr fun name => (h.2 name).trans (h'.2 name).symm
  exact hperm.eq_of_pairwise' (h.1.imp le_of_lt) (h'.1.imp le_of_lt)

omit [Crc32] in
/-- Two catalogs are alike, or not, either way round. -/
theorem Alike.symm {c c' : Catalog} (ha : c.Alike c') : c'.Alike c :=
  ⟨ha.counts.symm, fun name p => (ha.records name p).symm, ha.turn.symm⟩

omit [Crc32] in
/-- Getting a log is the same for both. -/
theorem Alike.get {c c' : Catalog} (ha : c.Alike c') (h : Holder) (name : String) (partition : ℤ) :
    (c'.get h name partition).1 = (c.get h name partition).1
      ∧ (c.get h name partition).2.Alike (c'.get h name partition).2 := by
  obtain ⟨hanswer, hafter⟩ := ha.existing h name
  unfold Catalog.get
  exact ⟨by simp only [hanswer], hafter⟩

end Catalog

namespace Topic

variable {t : Topic} {v : Volume} {c : Catalog}

/-- **Getting the log of a partition**: why not, or a log that stands for its
records. -/
theorem get_spec (h : t.Rep v c) (name : String) (partition : ℤ) :
    (∃ e t' v', t.get v name partition = (.error e, t', v')
      ∧ (c.get t.holder name partition).1 = .error e
      ∧ Follows t v ((.error e, t', v') : Except PyError Log × Topic × Volume) (.error e)
        (c.get t.holder name partition).2)
    ∨ ∃ topic entry p d rs t' v', t.get v name partition = (.ok entry.log, t', v')
      ∧ (c.get t.holder name partition).1 = .ok p ∧ partition = p
      ∧ t'.opened.lookup name = some topic ∧ topic.stored.lookup p = some entry
      ∧ v'.root.part name p = some d ∧ (c.get t.holder name partition).2.logs name p = some rs
      ∧ entry.log.Represents d.logs.view rs 0
      ∧ Follows t v (Except.ok entry.log, t', v') (.ok entry.log)
        (c.get t.holder name partition).2 := by
  unfold get Catalog.get
  rcases existing_spec h name with ⟨e, ht, hc⟩ | ⟨topic, t', v', ht, hc, hlook, hf⟩
  · rw [ht, hc]
    exact Or.inl ⟨e, t, v, rfl, rfl, h.follows _⟩
  · rw [ht, hc]
    have hown : t.holder.owns name = t'.owns name :=
      congrArg (fun hd : Holder => hd.owns name) hf.holder.symm
    rcases checkPartition_spec hown (hf.rep.opened hlook) partition with
      ⟨e, ht', hc'⟩ | ⟨entry, p, d, rs, ht', hc', rfl, hentry, hd, hl, hrep⟩
    · exact Or.inl ⟨e, t', v', by simp only [Except.bind, ht', Except.map], hc',
        rfl, hf.rep, hf.holder, hf.always⟩
    · exact Or.inr ⟨topic, entry, p, d, rs, t', v', by
        simp only [Except.bind, ht', Except.map], hc',
        rfl, hlook, hentry, hd, hl, hrep, rfl, hf.rep, hf.holder, hf.always⟩

/-- The names are listed in order, each once: they are the names of
directories. -/
theorem lists_names {root : Root} (h : root.Stores c) {v : Volume} (hv : v.root = root) :
    c.Lists (names v) := by
  refine ⟨?_, Store.mem_names hv h⟩
  have hsorted : (names v).Pairwise (· ≤ ·) := List.pairwise_insertionSort _ _
  have hnodup : (names v).Nodup :=
    (List.perm_insertionSort _ _).nodup_iff.mpr (v.root.keys_nodup.filter _)
  exact hsorted.imp₂ (fun _ _ hle hne => lt_of_le_of_ne hle hne) hnodup

end Topic

namespace Admin

variable {s : Store} {v : Volume} {c : Catalog} {name : String}

/-- **A log that changes in the registry** stands for the same records: it was
rolled or synced, and nothing was added. -/
theorem putLog_follows {α : Type} (h : s.Rep v c) {topic : OpenTopic}
    (hlook : s.topic.opened.lookup name = some topic) {p : ℕ} {entry : Partition}
    (hentry : topic.stored.lookup p = some entry) {rs : List Record}
    (hl : c.logs name p = some rs) {log : Log} {disk : Disk} {n : ℕ}
    (hrep : log.Represents disk.view rs n)
    (halways : ∀ P, (∀ v, Keeps v rs 0 → P v) → (v.disk name p).Always P → disk.Always P)
    (answer : α) :
    Store.Follows s v
        (answer, { s with topic := putLog s.topic name p log }, v.onPart name p disk) answer c
      ∧ (putLog s.topic name p log).opened.lookup name
        = some { topic with stored := topic.stored.insert p { entry with log } } := by
  have hput : putLog s.topic name p log = s.topic.setEntry name topic p { entry with log } := by
    unfold putLog
    simp only [hlook, hentry]
  rw [hput]
  obtain ⟨hp, -, d, rs', hd, -, hrep₀⟩ := (h.topic.opened hlook).stored hentry
  have hmeta : v.root.metaFile name = some (TopicJson.dumps topic.partitions) := by
    rw [h.topic.stores.metaFile, (h.topic.opened hlook).count]
    rfl
  have hdisk : v.disk name p = .of d := by rw [Volume.disk, hd]; rfl
  refine ⟨⟨rfl, ⟨h.topic.setEntry hlook hentry (hrep.mono (Nat.zero_le _)) rfl rfl
    (Topic.logs_eq_ite hl), h.owns⟩, rfl, rfl, fun hP hv => hv.onPart hP ?_ hmeta hp⟩,
    AList.lookup_insert _⟩
  refine halways _ (fun _ hw => hw.some) ?_
  rw [hdisk]
  exact (Disk.always_of _).mpr hrep₀.keeps.some

/-- The answer of an endpoint that asks for the log of a partition. -/
def located {α : Type} (res : Except PyError ℕ) (answer : ℕ → α → Prop) :
    Except HttpError α → Prop :=
  match res with
  | .error e => fun reply => reply = toThread (.error e)
  | .ok p => fun reply => ∃ a, reply = .ok a ∧ answer p a

/-- What is said of the sync of a topic: it fails at the first partition that
is stored elsewhere. -/
def syncAnswer (h : Holder) (name : String) (n : ℕ) : Except HttpError (List (String × String)) :=
  match (List.range n).find? fun p => !h.owns name p with
  | none => .ok [("status", "synced")]
  | some p => .error (.unhandled (.partitionNotLocal
    s!"partition {(p : ℤ)} of {pyRepr name} is not stored here"))

/-- **What the control plane says**, of a broker that goes by a ring and has a
catalog. -/
def Says (ring : Ring) (h : Holder) (c : Catalog) (ready : Bool) : Request → Reply → Prop
  | .createTopic body, reply =>
    reply = .topic (match (c.create h body.name body.partitions).1 with
      | .ok count => .ok ⟨body.name, count⟩
      | .error e => .error (if e.isValueError then .status 400 e.text else .unhandled e))
  | .describeTopic name, reply =>
    reply = .topic ((toThread (c.existing h name).1).map fun count => ⟨name, count⟩)
  | .listTopics, reply => ∃ names, c.Lists names ∧ reply = .names names
  | .brokerInfo, reply => ∃ names, c.Lists names
    ∧ reply = .broker ⟨ring.me, ring.brokers, ready, names.length⟩
  | .readyz, reply => reply = .ready (if ready then 200 else 503) ready
  | .describePartition name partition, reply => ∃ answer, reply = .partition answer
    ∧ located (c.get h name partition).1 (fun p info => info.Describes p (c.records name p)) answer
  | .syncTopic name, reply =>
    reply = .synced ((toThread (c.existing h name).1).bind (syncAnswer h name))
  | .rollPartition name partition, reply => ∃ answer, reply = .segment answer
    ∧ located (c.get h name partition).1
      (fun p info => info = ⟨(c.records name p).length, (c.records name p).length, 0, 0, false⟩)
      answer

/-- Asking for the logs of partitions fails at the first that is stored
elsewhere. -/
theorem getLogs_eq {topic : OpenTopic} (hname : validateName name = .ok ())
    (hlook : s.topic.opened.lookup name = some topic) {owns : ℕ → Bool}
    (howns : ∀ p < topic.partitions, (topic.stored.lookup p).isSome = owns p) {ps : List ℕ}
    (hps : ∀ p ∈ ps, p < topic.partitions) :
    getLogs name ps s v = (match ps.find? fun p => !owns p with
      | none => .ok ps
      | some p => .error (.unhandled (.partitionNotLocal
          s!"partition {(p : ℤ)} of {pyRepr name} is not stored here")), s, v) := by
  induction ps with
  | nil => rfl
  | cons p ps ih =>
    have hp := hps p List.mem_cons_self
    unfold getLogs
    rw [getLog_eq hname hlook hp, howns p hp, List.find?_cons]
    cases hown : owns p with
    | false => rfl
    | true =>
      simp only [if_true, Bool.not_true, ih fun q hq => hps q (List.mem_cons_of_mem _ hq)]
      cases ps.find? fun p => !owns p <;> rfl

/-- **Syncing logs** changes no record. -/
theorem syncLogs_follows (h : s.Rep v c) {topic : OpenTopic}
    (hlook : s.topic.opened.lookup name = some topic) {ps : List ℕ}
    (hps : ∀ p ∈ ps, (topic.stored.lookup p).isSome) :
    Store.Follows s v (syncLogs name ps s v) (.ok ()) c := by
  induction ps generalizing s v topic with
  | nil => exact h.follows _
  | cons p ps ih =>
    obtain ⟨entry, hentry⟩ := Option.isSome_iff_exists.mp (hps p List.mem_cons_self)
    obtain ⟨-, -, d, rs, hd, hl, hrep⟩ := (h.topic.opened hlook).stored hentry
    have hdisk : v.disk name p = .of d := by rw [Volume.disk, hd]; rfl
    have hrep : entry.log.Represents (v.disk name p).view rs 0 := by rwa [hdisk]
    obtain ⟨log, disk, hsync, hrep', halways⟩ := hrep.sync
    obtain ⟨hf, hlook'⟩ := putLog_follows h hlook hentry hl hrep' halways
      (.ok () : Except HttpError Unit)
    have hput : s.topic.syncLog v name p
        = (.ok (), putLog s.topic name p log, v.onPart name p disk) := by
      unfold Topic.syncLog putLog
      simp only [hlook, hentry, hsync]
    unfold syncLogs
    rw [hput]
    refine hf.trans (ih hf.rep hlook' fun q hq => ?_)
    show ((topic.stored.insert p { entry with log }).lookup q).isSome
    by_cases hqp : q = p
    · rw [hqp, AList.lookup_insert]
      rfl
    · rw [AList.lookup_insert_ne hqp]
      exact hps q (List.mem_cons_of_mem _ hq)

omit [Crc32] in
/-- Asking for a topic leaves it as it is, but for directories. -/
theorem existing_alike (c : Catalog) (h : Holder) (name : String) :
    c.Alike (c.existing h name).2 := by
  cases he : c.existing h name with
  | mk answer c' =>
  refine ⟨Catalog.existing_counts he, (Catalog.Settles.existing he).records, ?_⟩
  rcases Catalog.existing_cases he with ⟨e, -, rfl, -⟩ | ⟨n, -, -, -, rfl⟩ <;> rfl

/-- What a request of the control plane leaves: it may create a topic. -/
def Request.after (h : Holder) (c : Catalog) : Request → Catalog
  | .createTopic body => (c.create h body.name body.partitions).2
  | _ => c

/-- Describing a partition: the answer fits its records. -/
theorem describePartition_tell (h : s.Rep v c) (name : String) (partition : ℤ) :
    ∃ reply c', Store.Follows s v (Request.exec s v (.describePartition name partition)) reply c'
      ∧ Says s.ring s.topic.holder c s.ready (.describePartition name partition) reply
      ∧ c.Alike c' := by
  have halike := existing_alike c s.topic.holder name
  have hget : (c.get s.topic.holder name partition).2 = (c.existing s.topic.holder name).2 := rfl
  rw [← hget] at halike
  rcases Topic.get_spec h.topic name partition with
    ⟨e, t', v', ht, hc, hf⟩ | ⟨topic, entry, p, d, rs, t', v', ht, hc, rfl, -, -, -, hl, hrep, hf⟩
  · refine ⟨.partition (toThread (.error e)), _, ?_, ⟨_, rfl, by rw [hc]; rfl⟩, halike⟩
    have hlift := h.lift hf s.tail
    simp only [Request.exec, describePartition, ht]
    cases e <;> exact ⟨rfl, hlift.rep, hlift.same, hlift.holder, hlift.always⟩
  · refine ⟨.partition (.ok (partitionInfo p entry.log)), _, ?_, ⟨_, rfl, ?_⟩, halike⟩
    · have hlift := h.lift hf s.tail
      simp only [Request.exec, describePartition, ht]
      exact ⟨rfl, hlift.rep, hlift.same, hlift.holder, hlift.always⟩
    · rw [hc]
      refine ⟨_, rfl, ?_⟩
      have hrecs : c.records name p = rs := by
        rw [← halike.records, Catalog.records, hl]
        rfl
      show PartitionInfo.Describes _ p (c.records name p)
      rw [hrecs]
      exact hrep.describes p

/-- Rolling one: the segment that is told of is a new one, and no record has
changed. -/
theorem rollPartition_tell (h : s.Rep v c) (name : String) (partition : ℤ) :
    ∃ reply c', Store.Follows s v (Request.exec s v (.rollPartition name partition)) reply c'
      ∧ Says s.ring s.topic.holder c s.ready (.rollPartition name partition) reply
      ∧ c.Alike c' := by
  have halike := existing_alike c s.topic.holder name
  have hget : (c.get s.topic.holder name partition).2 = (c.existing s.topic.holder name).2 := rfl
  rw [← hget] at halike
  rcases Topic.get_spec h.topic name partition with
    ⟨e, t', v', ht, hc, hf⟩ | ⟨topic, entry, p, d, rs, t', v', ht, hc, rfl, hlook, hentry, hd, hl,
      hrep, hf⟩
  · refine ⟨.segment (toThread (.error e)), _, ?_, ⟨_, rfl, by rw [hc]; rfl⟩, halike⟩
    have hlift := h.lift hf s.tail
    simp only [Request.exec, rollPartition, ht]
    cases e <;> exact ⟨rfl, hlift.rep, hlift.same, hlift.holder, hlift.always⟩
  · have hlift := h.lift hf s.tail
    have hdisk : v'.disk name p = .of d := by rw [Volume.disk, hd]; rfl
    have hrep : entry.log.Represents (v'.disk name p).view rs 0 := by rwa [hdisk]
    obtain ⟨log, disk, hroll, hrep', hempty, halways⟩ := hrep.roll
    obtain ⟨hput, -⟩ := putLog_follows hlift.rep hlook hentry hl hrep' halways
      (Reply.segment (.ok (.of log.active)))
    refine ⟨.segment (.ok (.of log.active)), _, ?_, ⟨_, rfl, ?_⟩, halike⟩
    · simp only [Request.exec, rollPartition, ht, toThread, Int.toNat_natCast, hroll]
      exact hlift.trans hput
    · rw [hc]
      refine ⟨_, rfl, ?_⟩
      have hrecs : c.records name p = rs := by
        rw [← halike.records, Catalog.records, hl]
        rfl
      show SegmentInfo.of log.active
        = ⟨(c.records name p).length, (c.records name p).length, 0, 0, false⟩
      rw [hrecs]
      exact hrep'.of_empty hempty

/-- Syncing a topic: it works, or fails at the first partition that is stored
elsewhere. -/
theorem syncTopic_tell (h : s.Rep v c) (name : String) :
    ∃ reply c', Store.Follows s v (Request.exec s v (.syncTopic name)) reply c'
      ∧ Says s.ring s.topic.holder c s.ready (.syncTopic name) reply ∧ c.Alike c' := by
  have halike := existing_alike c s.topic.holder name
  have hf := Store.partitionsOf_follows h name
  simp only [Request.exec, syncTopic, allLogs]
  rcases Topic.existing_spec h.topic name with ⟨e, ht, hc⟩ | ⟨topic, t', v', ht, hc, hlook, hft⟩
  · refine ⟨.synced (toThread (.error e)), c, ?_, ?_, .refl c⟩
    · have hparts : s.partitionsOf v name = (.error e, s, v) := by
        unfold Store.partitionsOf Topic.partitionsOf
        rw [ht]
        rfl
      rw [hparts]
      cases e <;> exact h.follows _
    · simp only [Says, hc]
      cases e <;> rfl
  · have hparts : s.partitionsOf v name = (.ok topic.partitions, { s with topic := t' }, v') := by
      unfold Store.partitionsOf Topic.partitionsOf
      rw [ht]
      rfl
    obtain ⟨hname, -⟩ : validateName name = .ok () ∧ c.counts name = some topic.partitions := by
      rcases Catalog.existing_cases hc with ⟨e, he, -⟩ | ⟨n, hname, hn, he, -⟩
      · cases he
      · cases he
        exact ⟨hname, hn⟩
    have hopen := hft.rep.opened hlook
    have howns : ∀ p < topic.partitions,
        (topic.stored.lookup p).isSome = s.topic.holder.owns name p := fun p hp => by
      have hsame : t'.owns = s.topic.holder.owns := congrArg Holder.owns hft.holder
      rw [← hsame]
      refine Bool.eq_iff_iff.mpr ⟨fun hsome => ?_, hopen.isSome p hp⟩
      obtain ⟨entry, hentry⟩ := Option.isSome_iff_exists.mp hsome
      exact (hopen.stored hentry).2.1
    have hrange : ∀ p ∈ List.range topic.partitions, p < topic.partitions := fun p =>
      List.mem_range.mp
    have hlogs := getLogs_eq (s := { s with topic := t' }) (v := v') hname hlook howns hrange
    rw [hc] at halike
    rw [hparts] at hf ⊢
    rw [hc] at hf
    have htell : Says s.ring s.topic.holder c s.ready (.syncTopic name)
        (.synced (syncAnswer s.topic.holder name topic.partitions)) := by
      simp only [Says, hc]
      rfl
    refine ⟨_, _, ?_, htell, halike⟩
    simp only [toThread, hlogs]
    unfold syncAnswer
    cases hfind : (List.range topic.partitions).find? fun p => !s.topic.holder.owns name p with
    | some p => exact ⟨rfl, hf.rep, hf.same, hf.holder, hf.always⟩
    | none =>
      have hall : ∀ p ∈ List.range topic.partitions, (topic.stored.lookup p).isSome :=
          fun p hp => by
        rw [howns p (List.mem_range.mp hp)]
        simpa using List.find?_eq_none.mp hfind p hp
      have hsync := syncLogs_follows (s := { s with topic := t' }) hf.rep hlook hall
      have hboth := hf.trans hsync
      refine ⟨?_, hboth.rep, hboth.same, hboth.holder, hboth.always⟩
      show Reply.synced
        ((syncLogs name (List.range topic.partitions) { s with topic := t' } v').1.map
        fun () => [("status", "synced")]) = _
      rw [hsync.answer]
      rfl

/-- **What each request of the control plane comes to.** -/
theorem exec_tell (h : s.Rep v c) (request : Request) :
    ∃ reply c', Store.Follows s v (request.exec s v) reply c'
      ∧ Says s.ring s.topic.holder c s.ready request reply
      ∧ (request.after s.topic.holder c).Alike c' := by
  cases request with
  | createTopic body =>
    have hf := Store.create_follows h body.name body.partitions
    exact ⟨_, _, ⟨by
      show Reply.topic (match (s.create v body.name body.partitions).1 with
        | .ok count => _
        | .error e => _) = _
      rw [hf.answer], hf.rep, hf.same, hf.holder, hf.always⟩, rfl, .refl _⟩
  | describeTopic name =>
    have hf := Store.partitionsOf_follows h name
    exact ⟨_, _, ⟨congrArg (fun res => Reply.topic ((toThread res).map _)) hf.answer, hf.rep,
      hf.same,
      hf.holder, hf.always⟩, rfl, existing_alike c _ name⟩
  | listTopics =>
    exact ⟨_, c, h.follows _, ⟨_, Topic.lists_names h.topic.stores rfl, rfl⟩, .refl c⟩
  | brokerInfo =>
    exact ⟨_, c, h.follows _, ⟨_, Topic.lists_names h.topic.stores rfl, rfl⟩, .refl c⟩
  | readyz => exact ⟨_, c, h.follows _, rfl, .refl c⟩
  | describePartition name partition => exact describePartition_tell h name partition
  | syncTopic name => exact syncTopic_tell h name
  | rollPartition name partition => exact rollPartition_tell h name partition

/-! ## Both planes over the lives of a broker

The ledger goes on beside the broker, and each answer is one it tells. -/

omit [Crc32] in
/-- What a request leaves does not depend on directories. -/
theorem Request.after_alike {c c' : Catalog} (ha : c.Alike c') (h : Holder) (request : Request) :
    (request.after h c).Alike (request.after h c') := by
  cases request with
  | createTopic body => exact (ha.create h body.name body.partitions).2
  | _ => exact ha

omit [Crc32] in
/-- Nor does the list of topics. -/
theorem lists_alike {c c' : Catalog} (ha : c.Alike c') {names : List String} (h : c.Lists names) :
    c'.Lists names :=
  ⟨h.1, fun name => by rw [h.2, ha.counts]⟩

/-- What is said goes by topics and records. -/
theorem Says.alike {ring : Ring} {h : Holder} {c c' : Catalog} (ha : c.Alike c') {ready : Bool}
    {request : Request} {reply : Reply} (hs : Says ring h c ready request reply) :
    Says ring h c' ready request reply := by
  cases request with
  | createTopic body =>
    simp only [Says, (ha.create h body.name body.partitions).1] at hs ⊢
    exact hs
  | describeTopic name =>
    simp only [Says, (ha.existing h name).1] at hs ⊢
    exact hs
  | listTopics =>
    obtain ⟨names, hlists, hreply⟩ := hs
    exact ⟨names, lists_alike ha hlists, hreply⟩
  | brokerInfo =>
    obtain ⟨names, hlists, hreply⟩ := hs
    exact ⟨names, lists_alike ha hlists, hreply⟩
  | readyz => exact hs
  | describePartition name partition =>
    simp only [Says, (ha.get h name partition).1, ha.records] at hs ⊢
    exact hs
  | syncTopic name =>
    simp only [Says, (ha.existing h name).1] at hs ⊢
    exact hs
  | rollPartition name partition =>
    simp only [Says, (ha.get h name partition).1, ha.records] at hs ⊢
    exact hs

end Admin

namespace Ledger

open Admin (Request Reply Event Answer)

/-- What a broker with this ledger says, to who asks over HTTP. -/
def Says (l : Ledger) (ready : Bool) (request : Request) (reply : Reply) : Prop :=
  match l.up with
  | none => reply = .idle
  | some (ring, h) => Admin.Says ring h l.catalog ready request reply

/-- **A ledger goes on** by what happens to the data, and by the topics that
are created over HTTP. -/
def goes (l : Ledger) : Event → Ledger
  | .data act => (machine.step l act).2
  | .control request =>
    match l.up with
    | none => l
    | some (ring, h) => ⟨some (ring, h), request.after h l.catalog⟩

/-- **What both planes tell** over the lives of a broker, in terms of its
ledger. Whether it is ready is settled when it starts. -/
inductive Told : Ledger → Bool → List Event → List Answer → Prop
  | nil {l : Ledger} {ready : Bool} : Told l ready [] []
  | data {l : Ledger} {ready ready' : Bool} {act : Node.Act} {events : List Event}
      {answers : List Answer}
      (hready : ¬(l.up = none ∧ ∃ ring settings, act = .start ring settings) → ready' = ready)
      (h : Told (l.goes (.data act)) ready' events answers) :
      Told l ready (.data act :: events) (.data (machine.step l act).1 :: answers)
  | control {l : Ledger} {ready : Bool} {request : Request} {reply : Reply} {events : List Event}
      {answers : List Answer} (htell : l.Says ready request reply)
      (h : Told (l.goes (.control request)) ready events answers) :
      Told l ready (.control request :: events) (.control reply :: answers)

end Ledger

namespace Admin

/-- A broker, its ledger, and whether it is ready, which the ledger does not
know. -/
def Runs (n : Node) (l : Ledger) (ready : Bool) : Prop :=
  n.Matches l ∧ ∀ s, n.store = some s → s.ready = ready

/-- **What happens to the data plane** goes by the ledger. -/
theorem Runs.data {n : Node} {l : Ledger} {ready : Bool} (h : Runs n l ready) (act : Node.Act) :
    (Node.machine.step n act).1 = (Ledger.machine.step l act).1
      ∧ ∃ ready', (¬(l.up = none ∧ ∃ ring settings, act = .start ring settings) → ready' = ready)
        ∧ Runs (Node.machine.step n act).2 (l.goes (.data act)) ready' := by
  obtain ⟨hmatches, hready⟩ := h
  refine ⟨Node.simulates_ledger.answer hmatches act, ?_⟩
  have hafter := Node.simulates_ledger.related hmatches act
  obtain ⟨store, root⟩ := n
  obtain ⟨up, lc⟩ := l
  obtain ⟨c, hgood, ha, hup⟩ := hmatches
  cases hup with
  | none =>
    cases act with
    | start ring settings =>
      -- the process that starts settles it
      cases hstore : (Node.machine.step ⟨none, root⟩ (.start ring settings)).2.store with
      | none =>
        exact ⟨ready, fun _ => rfl, hafter, fun s hs => by rw [hstore] at hs; cases hs⟩
      | some s =>
        refine ⟨s.ready, fun hno => absurd ⟨rfl, ring, settings, rfl⟩ hno, hafter, fun s' hs' => ?_⟩
        rw [hstore] at hs'
        cases hs'
        rfl
    | ask request => exact ⟨ready, fun _ => rfl, hafter, fun s hs => by cases hs⟩
    | close => exact ⟨ready, fun _ => rfl, hafter, fun s hs => by cases hs⟩
    | kill => exact ⟨ready, fun _ => rfl, hafter, fun s hs => by cases hs⟩
  | @some s up hgoes =>
    refine ⟨ready, fun _ => rfl, hafter, ?_⟩
    cases act with
    | start ring settings => exact hready
    | ask request =>
      intro s' hs'
      cases hs'
      exact (Node.exec_follows hgood request).ready.trans (hready s rfl)
    | close => exact fun s' hs' => by cases hs'
    | kill => exact fun s' hs' => by cases hs'

/-- **What is asked over HTTP** is answered by the ledger. -/
theorem Runs.control {n : Node} {l : Ledger} {ready : Bool} (h : Runs n l ready)
    (request : Request) :
    ∃ reply n', machine.step n (.control request) = (.control reply, n')
      ∧ l.Says ready request reply ∧ Runs n' (l.goes (.control request)) ready := by
  obtain ⟨⟨c, hgood, ha, hup⟩, hready⟩ := h
  obtain ⟨store, root⟩ := n
  obtain ⟨up, lc⟩ := l
  cases hup with
  | none => exact ⟨.idle, _, rfl, rfl, ⟨c, hgood, ha, .none⟩, hready⟩
  | @some s up hgoes =>
    obtain ⟨ring, hd⟩ := up
    obtain ⟨rfl, rfl⟩ := hgoes
    obtain ⟨reply, c', hf, htell, hafter⟩ := exec_tell hgood request
    refine ⟨reply, ⟨some (request.exec s (.of root)).2.1,
      (request.exec s (.of root)).2.2.root⟩, ?_, ?_,
      ⟨c', ⟨hf.rep.topic.of, hf.rep.owns⟩, ?_, .some ⟨hf.ring, hf.holder⟩⟩, fun s' hs' => ?_⟩
    · simp only [machine]
      rw [hf.answer]
    · show Says s.ring s.topic.holder lc ready request reply
      rw [← hready s rfl]
      exact htell.alike ha
    · exact hafter.symm.trans (request.after_alike ha s.topic.holder)
    · cases hs'
      exact hf.ready.trans (hready s rfl)

/-- **Both planes of a broker tell what its ledger tells**, one event after
the other. By induction on the events. -/
theorem Runs.told {n : Node} {l : Ledger} {ready : Bool} (h : Runs n l ready)
    (events : List Event) :
    Ledger.Told l ready events (machine.run n events).1
      ∧ (machine.run n events).2.Matches (events.foldl Ledger.goes l) := by
  induction events generalizing n l ready with
  | nil => exact ⟨.nil, h.1⟩
  | cons event events ih =>
    cases event with
    | data act =>
      obtain ⟨hanswer, ready', hready, hafter⟩ := h.data act
      obtain ⟨htold, hmatches⟩ := ih hafter
      refine ⟨?_, hmatches⟩
      show Ledger.Told l ready _ (.data (Node.machine.step n act).1 :: _)
      rw [hanswer]
      exact .data hready htold
    | control request =>
      obtain ⟨reply, n', hstep, htell, hafter⟩ := h.control request
      obtain ⟨htold, hmatches⟩ := ih hafter
      simp only [Machine.run, hstep]
      exact ⟨.control htell htold, hmatches⟩

/-- **What the control plane says is true.** Whatever is asked of both planes
of a broker over all its lives: each answer is what its ledger tells at that
moment. In particular the segments that are listed for a partition add up to
the records it has, whether it is ready stays as it was when it started, and
of the topics there is one list. -/
theorem machine_tells (events : List Event) :
    Ledger.Told .empty false events (machine.run Node.empty events).1
      ∧ ∀ name p, (machine.run Node.empty events).2.root.records name p
        = (events.foldl Ledger.goes .empty).catalog.records name p := by
  obtain ⟨htold, c, hgood, ha, -⟩ :=
    Runs.told (n := .empty) ⟨Node.matches_empty, fun s hs => by cases hs⟩ events
  exact ⟨htold, fun name p => by rw [hgood.stores.records_eq, ha.records]⟩

/-! ## The control plane is not noticed

Two runs of the ledger, one of them without what does not matter. Since the
ledger answers each request by itself alone, that is a matter of lists. -/

/-- What is about topics and records, and not only said about them. -/
def Event.matters : Event → Bool
  | .data _ => true
  | .control (.createTopic _) => true
  | .control _ => false

omit [Crc32] in
/-- A request that does not matter leaves the catalog. -/
theorem Request.after_of_not_matters {request : Request}
    (hno : Event.matters (.control request) = false) (h : Holder) (c : Catalog) :
    request.after h c = c := by
  cases request with
  | createTopic body => cases hno
  | _ => rfl

/-- And the ledger. -/
theorem goes_of_not_matters {l : Ledger} {event : Event} (hno : event.matters = false) :
    l.goes event = l := by
  cases event with
  | data act => cases hno
  | control request =>
    obtain ⟨up, c⟩ := l
    cases up with
    | none => rfl
    | some up =>
      simp only [Ledger.goes]
      rw [Request.after_of_not_matters hno]

/-- So over a whole run it may be left out. -/
theorem foldl_goes_filter (l : Ledger) (events : List Event) :
    (events.filter Event.matters).foldl Ledger.goes l = events.foldl Ledger.goes l := by
  have hsame : (fun (l : Ledger) event => if event.matters then l.goes event else l)
      = Ledger.goes := by
    funext l event
    cases hm : event.matters with
    | true => rfl
    | false => exact (goes_of_not_matters hm).symm
  rw [List.foldl_filter, hsame]

/-- The answer to the creation of a topic is settled by the ledger. -/
theorem tell_unique {l : Ledger} {ready ready' : Bool} {body : CreateTopic} {reply reply' : Reply}
    (h : l.Says ready (.createTopic body) reply) (h' : l.Says ready' (.createTopic body) reply') :
    reply' = reply := by
  obtain ⟨up, c⟩ := l
  cases up with
  | none => exact Eq.trans h' h.symm
  | some up => exact Eq.trans h' h.symm

/-- **What matters is told the same** without what does not. -/
theorem told_filter {l : Ledger} {ready ready' : Bool} {events : List Event}
    {answers answers' : List Answer} (h : Ledger.Told l ready events answers)
    (h' : Ledger.Told l ready' (events.filter Event.matters) answers') :
    answers' = ((events.zip answers).filter fun e => e.1.matters).map Prod.snd := by
  induction h generalizing ready' answers' with
  | nil =>
    cases h'
    rfl
  | data _ _ ih =>
    cases h' with
    | data _ h' => exact congrArg (List.cons _) (ih h')
  | @control l ready request reply events answers htell _ ih =>
    cases hm : Event.matters (.control request) with
    | true =>
      cases request with
      | createTopic body =>
        cases h' with
        | control htell' h' =>
          rw [tell_unique htell htell']
          exact congrArg (List.cons _) (ih h')
      | _ => cases hm
    | false =>
      rw [List.filter_cons, hm] at h'
      rw [List.zip_cons_cons, List.filter_cons, hm]
      rw [goes_of_not_matters hm] at ih
      exact ih h'

/-- **Nobody notices the control plane.** Leave out of all that is asked of a
broker over its lives what is asked over HTTP, but for the topics that are
created: every other answer is the same, and so are the records. A partition
may be rolled, synced and looked at at any moment. -/
theorem answers_filter (events : List Event) :
    (machine.run Node.empty (events.filter Event.matters)).1
        = ((events.zip (machine.run Node.empty events).1).filter fun e => e.1.matters).map Prod.snd
      ∧ ∀ name p, (machine.run Node.empty (events.filter Event.matters)).2.root.records name p
        = (machine.run Node.empty events).2.root.records name p := by
  obtain ⟨htold, hrecords⟩ := machine_tells events
  obtain ⟨htold', hrecords'⟩ := machine_tells (events.filter Event.matters)
  refine ⟨told_filter htold htold', fun name p => ?_⟩
  rw [hrecords, hrecords', foldl_goes_filter]

end Admin

end Codec

end Pyka
