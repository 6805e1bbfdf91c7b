import Pyka.Broker.Node
import Pyka.Storage.CrashRecovery
import Pyka.Topic.Lives

/-!
# Outages

The logs of a partition are written so that a crash can be recovered from.
`topic.json` is written in another way: it is opened, and its text is written,
and nothing makes it durable. A crash may leave any front of the text, and an
empty or broken `topic.json` is one that `Store.open` raises on. So a store
opens after a crash, and knows every topic that `create` or a first `append`
had returned for, exactly where the crash happens to leave every `topic.json`
whole (`Outage.metadata_survives_iff`); it need not (`Outage.metadata_lost`).

## Where a crash may come

At any state that the data root passes through: between two operations, in the
middle of one, and in the middle of recovering. The moment between the making
of `topic.json` and the writing of its text is one of these states
(`Volume.writeMeta`). What a crash then leaves of a file of a log is known
from `Storage.CrashRecovery`; what it leaves of a directory is the files that
there were. That the entry of a new directory may itself be lost is not looked
at: it would only be one more way to lose a topic.

## The argument

`Between` is what holds of a data root at every call and within one: each
`topic.json` is empty or whole, and whole for the topics that were returned
for. It is stable under what operations do, in the sense of `Topic.TopicSpec`,
and so holds of whatever a crash finds. Then there are two cases. If every
text is whole after the crash, the root stores a catalog, and everything goes
on as from any such root. If one is not, it cannot be read, and since opening
a store reads the `topic.json` of every topic, no store opens, not even for
the topics that nothing has happened to.
-/

namespace Pyka

open Struct (Bytes)

/-! ## What a crash leaves of a data root

A relation between the root that the crash finds and the one it leaves. What
was synced is there; of the rest, any part. -/

/-- **What a crash leaves of a `topic.json`**, which nothing made durable:
some front of its text. -/
inductive TopicJson.Crash : Option (List Char) → Option (List Char) → Prop
  | absent : Crash none none
  | cut (text : List Char) (k : ℕ) : Crash (some text) (some (text.take k))

/-- **What a crash leaves of a data root.** -/
def Root.Crash (root root' : Root) : Prop :=
  (∀ name, TopicJson.Crash (root.metaFile name) (root'.metaFile name))
    ∧ ∀ name p, Option.Rel Dir.Crash (root.part name p) (root'.part name p)

/-- **Every `topic.json` is whole**: its text is all of one that was
written. -/
def Root.Whole (root : Root) : Prop :=
  ∀ name text, root.metaFile name = some text → ∃ n, text = TopicJson.dumps n

/-- Every state a data root has been through, the present one among them. -/
def Volume.states (v : Volume) : List Root := v.root :: v.past

/-- What held throughout holds of each of them. -/
theorem Volume.Always.of_mem_states {P : Root → Prop} {v : Volume} (h : v.Always P) {root : Root}
    (hroot : root ∈ v.states) : P root := by
  rcases List.mem_cons.mp hroot with rfl | hroot
  · exact h.1
  · exact h.2 root hroot

namespace Outage

/-- A data root, the registry alive on it, and the topics that `create` or a
first `append` returned for, with the number of partitions they had. -/
structure State where
  topic : Option Topic
  root : Root
  returned : List (String × ℕ)

/-- Nothing yet: no registry, no topic, and nothing promised. -/
def State.empty : State := ⟨none, .empty, []⟩

/-- **What a registry is asked to do**, of what may create a topic. Reading
makes no `topic.json`. -/
inductive Op
  | create (name : String) (partitions : Option ℕ)
  | append (name : String) (key value : Option Bytes) (timestamp : Option ℤ)
      (partition : Option ℤ) (clock : ℤ) (elapsed : ℚ)

/-- What happens; a crash says what it leaves. Within an operation, or while a
store recovers, it may come at any of the states in between. -/
inductive Event
  | start (life : Life)
  | op (op : Op)
  | crash (left : Root)
  | crashInOp (op : Op) (left : Root)
  | recover (ring : Ring) (settings : Settings)
  | crashInRecover (ring : Ring) (settings : Settings) (left : Root)

section Codec

variable [Crc32]

/-- Do it; with the topic it returned for, if it did. -/
def Op.exec (t : Topic) (v : Volume) : Op → List (String × ℕ) × Topic × Volume
  | create name partitions =>
    match t.create v name partitions with
    | (.ok n, t, v) => ([(name, n)], t, v)
    | (.error _, t, v) => ([], t, v)
  | append name key value timestamp partition clock elapsed =>
    match t.append v name key value timestamp partition clock elapsed with
    | (.ok _, t, v) =>
      (match (t.partitionsOf v name).1 with | .ok n => [(name, n)] | .error _ => [], t, v)
    | (.error _, t, v) => ([], t, v)

/-- A new store on a data root: it recovers every topic on disk. -/
def newStore (root : Root) (ring : Ring) (settings : Settings) :
    Except PyError Store × Volume :=
  match Store.init settings.path settings.partitions settings.syncPolicy settings.maxSegmentBytes
      ring settings.allowOrphans with
  | .error e => (.error e, .of root)
  | .ok s =>
    match s.open (.of root) with
    | (.error e, _, v) => (.error e, v)
    | (.ok (), s, v) => (.ok s, v)

/-- **The steps of a run with crashes**: before, between and in the middle of
operations, and in the middle of recovering. -/
inductive Step : State → Event → State → Prop
  | start {root : Root} {returned : List (String × ℕ)} {life : Life} {t : Topic}
      (h : Topic.init life.path life.partitions life.syncPolicy life.maxSegmentBytes life.owns
        = .ok t) :
      Step ⟨none, root, returned⟩ (.start life) ⟨some t, root, returned⟩
  | op {t t' : Topic} {root : Root} {returned more : List (String × ℕ)} {op : Op} {v : Volume}
      (h : op.exec t (.of root) = (more, t', v)) :
      Step ⟨some t, root, returned⟩ (.op op) ⟨some t', v.root, returned ++ more⟩
  | crash {topic : Option Topic} {root left : Root} {returned : List (String × ℕ)}
      (h : root.Crash left) :
      Step ⟨topic, root, returned⟩ (.crash left) ⟨none, left, returned⟩
  | crashInOp {t t' : Topic} {root mid left : Root} {returned more : List (String × ℕ)} {op : Op}
      {v : Volume} (h : op.exec t (.of root) = (more, t', v)) (hmid : mid ∈ v.states)
      (hcrash : mid.Crash left) :
      Step ⟨some t, root, returned⟩ (.crashInOp op left) ⟨none, left, returned⟩
  | recover {root : Root} {returned : List (String × ℕ)} {ring : Ring} {settings : Settings}
      {s : Store} {v : Volume} (h : newStore root ring settings = (.ok s, v)) :
      Step ⟨none, root, returned⟩ (.recover ring settings) ⟨some s.topic, v.root, returned⟩
  | crashInRecover {root mid left : Root} {returned : List (String × ℕ)} {ring : Ring}
      {settings : Settings} {res : Except PyError Store} {v : Volume}
      (h : newStore root ring settings = (res, v)) (hmid : mid ∈ v.states)
      (hcrash : mid.Crash left) :
      Step ⟨none, root, returned⟩ (.crashInRecover ring settings left) ⟨none, left, returned⟩

/-- Runs start from an empty data root. -/
def system : System State Event where
  start s := s = State.empty
  step := Step

end Codec

/-- **A crash that spares every `topic.json`.** What else it does to the files
is left open. -/
def Spares : Event → Prop
  | .crash left => left.Whole
  | .crashInOp _ left => left.Whole
  | .crashInRecover _ _ left => left.Whole
  | _ => True

/-- **A new store opens, and knows the topics** that were returned for. -/
def Recovers [Crc32] (s : State) (ring : Ring) (settings : Settings) : Prop :=
  ∃ store v, newStore s.root ring settings = (.ok store, v)
    ∧ ∀ e ∈ s.returned, e.1 ∈ Topic.names v ∧ (store.partitionsOf v e.1).1 = .ok e.2

variable [Crc32]

/-! ## Between two calls

What is so of a data root at every call, and at every state in between. The
one state of the kind that makes trouble, an empty `topic.json`, is among
them. -/

/-- **What a data root is like between any two calls**: a `topic.json` is
empty or whole, whole for the topics that were returned for, and a partition
that has a directory keeps some records and is one of its topic's. -/
structure Between (returned : List (String × ℕ)) (root : Root) : Prop where
  metaFile : ∀ {name text}, root.metaFile name = some text → validateName name = .ok ()
    ∧ (text = [] ∨ ∃ n, 0 < n ∧ text = TopicJson.dumps n)
  returned : ∀ e ∈ returned, root.metaFile e.1 = some (TopicJson.dumps e.2)
  part : ∀ {name p d}, root.part name p = some d → KeepsSome d.logs.view
    ∧ ∃ n, root.metaFile name = some (TopicJson.dumps n) ∧ p < n

variable {returned : List (String × ℕ)}

/-- **Operations keep it so**, in every state that they go through. -/
theorem stable_between : Root.Stable (Between returned) where
  setMeta {r name n} h hnone hname hn := by
    have hset : ∀ text, (text = [] ∨ ∃ n, 0 < n ∧ text = TopicJson.dumps n) →
        Between returned (r.setMeta name text) := by
      intro text htext
      refine ⟨fun {name' text'} hm => ?_, fun e he => ?_, fun {name' p d} hd => ?_⟩
      · rw [Root.metaFile_setMeta] at hm
        split_ifs at hm with hnn
        · cases hm
          exact ⟨hnn ▸ hname, htext⟩
        · exact h.metaFile hm
      · have hold := h.returned e he
        have hne : e.1 ≠ name := fun heq => by rw [heq, hnone] at hold; cases hold
        rw [Root.metaFile_setMeta, if_neg hne, hold]
      · rw [Root.part_setMeta] at hd
        obtain ⟨hkeeps, n, hm, hp⟩ := h.part hd
        have hne : name' ≠ name := fun heq => by rw [heq, hnone] at hm; cases hm
        exact ⟨hkeeps, n, by rw [Root.metaFile_setMeta, if_neg hne, hm], hp⟩
    exact ⟨hset [] (Or.inl rfl), hset _ (Or.inr ⟨n, hn, rfl⟩)⟩
  setPart {r name n p d} h hn hp hd := by
    refine ⟨fun hm => ?_, fun e he => ?_, fun {name' p' d'} hd' => ?_⟩
    · rw [Root.metaFile_setPart] at hm
      exact h.metaFile hm
    · rw [Root.metaFile_setPart]
      exact h.returned e he
    · rw [Root.part_setPart] at hd'
      rw [Root.metaFile_setPart]
      split_ifs at hd' with hc
      · cases hd'
        rw [hc.1, hc.2]
        exact ⟨hd, n, hn, hp⟩
      · exact h.part hd'

/-- A data root that stores a catalog is like that. -/
theorem between_of_stores {root : Root} {c : Catalog} (h : root.Stores c)
    (hret : ∀ e ∈ returned, c.counts e.1 = some e.2) : Between returned root where
  metaFile {name text} hm := by
    rw [h.metaFile] at hm
    obtain ⟨n, hn, rfl⟩ := Option.map_eq_some_iff.mp hm
    obtain ⟨hname, hpos⟩ := h.names hn
    exact ⟨hname, Or.inr ⟨n, hpos, rfl⟩⟩
  returned e he := by
    rw [h.metaFile, hret e he]
    rfl
  part {name p d} hd := by
    have hrel := h.part name p
    rw [hd] at hrel
    cases hl : c.logs name p with
    | none => rw [hl] at hrel; cases hrel
    | some rs =>
      rw [hl] at hrel
      cases hrel with
      | some hkeeps =>
        obtain ⟨n, hn, hp⟩ := h.counted hl
        exact ⟨hkeeps.some, n, by rw [h.metaFile, hn]; rfl, hp⟩

/-! ## After a crash

Two cases, and they are all: every text is whole, or there is one that cannot
be read. -/

omit [Crc32] in
/-- A front of a text that is whole is all of it. -/
theorem take_dumps {n m k : ℕ} (h : (TopicJson.dumps n).take k = TopicJson.dumps m) :
    (TopicJson.dumps n).take k = TopicJson.dumps n := by
  by_cases hk : k < (TopicJson.dumps n).length
  · have hnone := TopicJson.loads_take hk
    rw [h, TopicJson.loads_dumps] at hnone
    cases hnone
  · exact List.take_of_length_le (not_lt.mp hk)

omit [Crc32] in
/-- An empty file is not whole. -/
theorem dumps_ne_nil (n : ℕ) : TopicJson.dumps n ≠ [] := fun h => by
  rw [TopicJson.dumps, List.append_eq_nil_iff] at h
  exact absurd h.2 (by decide)

/-- **Where every `topic.json` is whole**, the data root stores a catalog. -/
theorem stores_of_whole {root left : Root} (h : Between returned root) (hcrash : root.Crash left)
    (hwhole : left.Whole) :
    ∃ c : Catalog, left.Stores c ∧ ∀ e ∈ returned, c.counts e.1 = some e.2 := by
  -- a `topic.json` that is left says what it said
  have hsame : ∀ name, left.metaFile name = root.metaFile name := by
    intro name
    have hc := hcrash.1 name
    generalize hr : root.metaFile name = o at hc
    generalize hl : left.metaFile name = o' at hc
    cases hc with
    | absent => rfl
    | cut text k =>
      obtain ⟨m, hm⟩ := hwhole name _ hl
      rcases (h.metaFile hr).2 with rfl | ⟨n, -, rfl⟩
      · rw [List.take_nil] at hm
        exact absurd hm.symm (dumps_ne_nil m)
      · rw [take_dumps hm]
  have hmeta : ∀ {name text}, left.metaFile name = some text → validateName name = .ok ()
      ∧ ∃ n, 0 < n ∧ text = TopicJson.dumps n := by
    intro name text hl
    obtain ⟨m, rfl⟩ := hwhole name text hl
    rw [hsame] at hl
    obtain ⟨hname, hnil | hn⟩ := h.metaFile hl
    · exact absurd hnil (dumps_ne_nil m)
    · exact ⟨hname, hn⟩
  have hcount : ∀ {name n}, root.metaFile name = some (TopicJson.dumps n) →
      (left.metaFile name).bind TopicJson.loads = some n := fun hm => by
    rw [hsame, hm, Option.bind_some, TopicJson.loads_dumps]
  refine ⟨⟨fun name => (left.metaFile name).bind TopicJson.loads,
    fun name p => (left.part name p).map Dir.records, 0⟩, ⟨fun name => ?_, fun name p => ?_,
    fun {name n} hn => ?_, fun {name p rs} hl => ?_⟩, fun e he => hcount (h.returned e he)⟩
  · cases hl : left.metaFile name with
    | none => simp only [hl]; rfl
    | some text =>
      obtain ⟨-, n, -, rfl⟩ := hmeta hl
      simp only [hl, Option.bind_some, TopicJson.loads_dumps, Option.map_some]
  · have hc := hcrash.2 name p
    generalize hr : root.part name p = o at hc
    generalize hl : left.part name p = o' at hc
    cases hc with
    | none => simp only [hl]; exact .none
    | some hdir =>
      obtain ⟨⟨records, hkeeps⟩, -⟩ := h.part hr
      obtain ⟨n, -, hkeeps'⟩ := Keeps.crash hkeeps hdir
      simp only [hl, Option.map_some]
      exact .some (by rw [hkeeps'.records_eq]; exact hkeeps')
  · obtain ⟨text, hl, hloads⟩ := Option.bind_eq_some_iff.mp hn
    obtain ⟨hname, m, hm, rfl⟩ := hmeta hl
    rw [TopicJson.loads_dumps] at hloads
    cases hloads
    exact ⟨hname, hm⟩
  · obtain ⟨d, hd, -⟩ := Option.map_eq_some_iff.mp hl
    have hc := hcrash.2 name p
    rw [hd] at hc
    generalize hr : root.part name p = o at hc
    cases hc with
    | some _ =>
      obtain ⟨-, n, hn, hp⟩ := h.part hr
      exact ⟨n, hcount hn, hp⟩

/-- **Where one is not**, there is a topic whose `topic.json` cannot be
read. -/
theorem unreadable_of_not_whole {root left : Root} (h : Between returned root)
    (hcrash : root.Crash left) (hwhole : ¬left.Whole) :
    ∃ name text, left.metaFile name = some text ∧ validateName name = .ok ()
      ∧ TopicJson.loads text = none := by
  simp only [Root.Whole, not_forall, not_exists] at hwhole
  obtain ⟨name, text, hl, hnot⟩ := hwhole
  have hc := hcrash.1 name
  rw [hl] at hc
  generalize hr : root.metaFile name = o at hc
  cases hc with
  | cut text k =>
    obtain ⟨hname, rfl | ⟨n, -, rfl⟩⟩ := h.metaFile hr
    · exact ⟨name, _, hl, hname, by rw [List.take_nil]; decide⟩
    · have hk : k < (TopicJson.dumps n).length := by
        by_contra hk
        exact hnot n (List.take_of_length_le (not_lt.mp hk))
      exact ⟨name, _, hl, hname, TopicJson.loads_take hk⟩

/-! ## A new store

What an opening comes to, in either case. -/

omit [Crc32] in
/-- Writing a `topic.json` leaves those of other topics. -/
theorem metaFile_writeMeta (v : Volume) (name : String) (n : ℕ) (name' : String) :
    (v.writeMeta name n).root.metaFile name'
      = if name' = name then some (TopicJson.dumps n) else v.root.metaFile name' := by
  rw [Volume.root_writeMeta, Root.metaFile_setMeta]

/-- Opening logs leaves every `topic.json`. -/
theorem metaFile_openLogs (t : Topic) (name : String) (ps : List ℕ) (v : Volume) (name' : String) :
    (t.openLogs name ps v).2.root.metaFile name' = v.root.metaFile name' := by
  induction ps generalizing v with
  | nil => rfl
  | cons p ps ih =>
    have hone : (t.openLog name p v).2.root.metaFile name' = v.root.metaFile name' := by
      unfold Topic.openLog
      rw [Volume.root_onPart, Root.metaFile_setPart]
    rw [Topic.openLogs]
    cases hlog : t.openLog name p v with
    | mk res v₁ =>
    rw [hlog] at hone
    cases res with
    | error e => exact hone
    | ok log =>
      have hrest := ih v₁
      cases hlogs : t.openLogs name ps v₁ with
      | mk res v₂ =>
      rw [hlogs] at hrest
      simp only [hlogs]
      cases res <;> exact hrest.trans hone

/-- **Opening one topic** leaves the `topic.json` of another, and does not
open it. -/
theorem create_other (t : Topic) (v : Volume) {name name' : String} (hne : name ≠ name') :
    (t.create v name' none).2.1.opened.lookup name = t.opened.lookup name
      ∧ (t.create v name' none).2.2.root.metaFile name = v.root.metaFile name := by
  unfold Topic.create
  cases validateName name' with
  | error e => exact ⟨rfl, rfl⟩
  | ok u =>
    unfold Topic.openCached
    cases t.opened.lookup name' with
    | some topic => exact ⟨rfl, rfl⟩
    | none =>
      unfold Topic.openLocked
      cases v.readMeta name' with
      | error e => exact ⟨rfl, rfl⟩
      | ok found =>
        obtain ⟨n, hn⟩ : ∃ n, n = found.getD (t.countOf none) := ⟨_, rfl⟩
        obtain ⟨v₁, hv₁⟩ : ∃ v₁, v₁ = if found.isNone then v.writeMeta name' n else v := ⟨_, rfl⟩
        have hmeta : v₁.root.metaFile name = v.root.metaFile name := by
          rw [hv₁]
          split_ifs
          · rw [metaFile_writeMeta, if_neg hne]
          · rfl
        have hlogs := metaFile_openLogs t name' ((List.range n).filter (t.owns name')) v₁ name
        simp only [← hn, ← hv₁]
        cases hopen : t.openLogs name' ((List.range n).filter (t.owns name')) v₁ with
        | mk res v₂ =>
        rw [hopen] at hlogs
        cases res with
        | error e => exact ⟨rfl, hlogs.trans hmeta⟩
        | ok stored => exact ⟨AList.lookup_insert_ne hne, hlogs.trans hmeta⟩

/-- **A `topic.json` that cannot be read** fails the opening of its topic. -/
theorem create_unreadable {t : Topic} {v : Volume} {name : String} {text : List Char}
    (hname : validateName name = .ok ()) (hclosed : t.opened.lookup name = none)
    (hmeta : v.root.metaFile name = some text) (hloads : TopicJson.loads text = none) :
    t.create v name none = (.error .jsonDecodeError, t, v) := by
  have hread : v.readMeta name = .error .jsonDecodeError := by
    unfold Volume.readMeta
    rw [hmeta]
    simp only [hloads]
  unfold Topic.create Topic.openCached Topic.openLocked
  rw [hname, hclosed, hread]
  rfl

/-- … and with it that of any topics it is among: the others are opened as far
as they come first, and then it raises. -/
theorem createAll_unreadable {names : List String} {t : Topic} {v : Volume} {name : String}
    {text : List Char} (hmem : name ∈ names) (hname : validateName name = .ok ())
    (hclosed : t.opened.lookup name = none) (hmeta : v.root.metaFile name = some text)
    (hloads : TopicJson.loads text = none) :
    ∃ e, (Store.createAll names t v).1 = .error e := by
  induction names generalizing t v with
  | nil => cases hmem
  | cons name' names ih =>
    rw [Store.createAll]
    by_cases hne : name = name'
    · rw [← hne, create_unreadable hname hclosed hmeta hloads]
      exact ⟨_, rfl⟩
    · obtain ⟨hlook, hsame⟩ := create_other t v hne
      cases hcreate : t.create v name' none with
      | mk res rest =>
      obtain ⟨t', v'⟩ := rest
      rw [hcreate] at hlook hsame
      cases res with
      | error e => exact ⟨e, rfl⟩
      | ok n =>
        exact ih ((List.mem_cons.mp hmem).resolve_left hne) (hlook.trans hclosed)
          (hsame.trans hmeta)

/-- **No store opens** on a data root with such a `topic.json`. -/
theorem newStore_unreadable {root : Root} {name : String} {text : List Char}
    (hname : validateName name = .ok ()) (hmeta : root.metaFile name = some text)
    (hloads : TopicJson.loads text = none) (ring : Ring) (settings : Settings) :
    ∃ e, (newStore root ring settings).1 = .error e := by
  obtain ⟨t, hinit, -, -⟩ := Store.init_rep stores_empty settings.path settings.syncPolicy ring
    settings.allowOrphans settings.partitions_pos settings.maxSegmentBytes.2
  have hclosed : t.opened.lookup name = none := by
    have ht : t = ⟨settings.path, settings.partitions, settings.syncPolicy,
        settings.maxSegmentBytes, ring.ownsPartition, ⟨0⟩, ∅⟩ := by
      unfold Store.init Topic.init raiseIf at hinit
      rw [if_neg (by have := settings.partitions_pos; omega)] at hinit
      cases hinit
      rfl
    rw [ht]
    rfl
  have hmem : name ∈ Topic.names (.of root) :=
    (Store.mem_names_iff _ _).mpr ⟨hname, by
      rw [show (Volume.of root).root = root from rfl, hmeta]; rfl⟩
  obtain ⟨e, he⟩ := createAll_unreadable (t := t) (v := .of root) hmem hname hclosed hmeta hloads
  refine ⟨e, ?_⟩
  unfold newStore
  simp only [hinit, Store.open]
  cases hall : Store.createAll (Topic.names (.of root)) t (.of root) with
  | mk res rest =>
    rw [hall] at he
    cases he
    rfl

/-- **A new store on a data root that stores a catalog** opens, and stands for
its topics. -/
theorem newStore_spec {root : Root} {c : Catalog} (h : root.Stores c) (ring : Ring)
    (settings : Settings) :
    ∃ s v c', newStore root ring settings = (.ok s, v) ∧ s.Rep v c' ∧ c'.counts = c.counts
      ∧ ∀ {P}, Root.Stable P → P root → v.Always P := by
  obtain ⟨t, hinit, hrep, -⟩ := Store.init_rep h settings.path settings.syncPolicy ring
    settings.allowOrphans settings.partitions_pos settings.maxSegmentBytes.2
  obtain ⟨s, v, c', hopen, hrep', -, hcounts, -, -, -, -, -, -, halways⟩ :=
    Store.open_spec hrep rfl
  refine ⟨s, v, c', ?_, hrep', hcounts, fun hP hroot => halways hP ⟨hroot, fun r hr => by cases hr⟩⟩
  unfold newStore
  simp only [hinit, hopen]

/-- … and knows its topics. -/
theorem recovers_of_stores {s : State} {c : Catalog} (h : s.root.Stores c)
    (hret : ∀ e ∈ s.returned, c.counts e.1 = some e.2) (ring : Ring) (settings : Settings) :
    Recovers s ring settings := by
  obtain ⟨store, v, c', hnew, hrep, hcounts, -⟩ := newStore_spec h ring settings
  refine ⟨store, v, hnew, fun e he => ?_⟩
  have hn : c'.counts e.1 = some e.2 := by rw [hcounts, hret e he]
  refine ⟨(Store.mem_names rfl hrep.topic.stores e.1).mpr (by rw [hn]; rfl), ?_⟩
  rw [(Store.partitionsOf_follows hrep e.1).answer,
    Catalog.existing_eq_ok (hrep.topic.stores.names hn).1 hn]

/-! ## Runs

The invariant as long as every crash spares the metadata, and the last step
that may or may not. -/

/-- **The invariant**: the data root stores a catalog that has the topics
returned for, and the registry alive on it stands for that catalog. -/
def Inv (s : State) : Prop :=
  ∃ c : Catalog, (∀ e ∈ s.returned, c.counts e.1 = some e.2)
    ∧ match s.topic with
      | some t => t.Rep (.of s.root) c
      | none => s.root.Stores c

/-- With a registry alive or without, the root stores the catalog. -/
theorem Inv.stores {s : State} (h : Inv s) :
    ∃ c : Catalog, s.root.Stores c ∧ ∀ e ∈ s.returned, c.counts e.1 = some e.2 := by
  obtain ⟨c, hret, hrep⟩ := h
  refine ⟨c, ?_, hret⟩
  cases ht : s.topic with
  | none => rwa [ht] at hrep
  | some t =>
    rw [ht] at hrep
    exact hrep.stores

/-- So it is as a root is between two calls. -/
theorem Inv.between {s : State} (h : Inv s) : Between s.returned s.root := by
  obtain ⟨c, hstores, hret⟩ := h.stores
  exact between_of_stores hstores hret

/-- **An operation** keeps the numbers of partitions, has the topic it
returned for, and leaves the data root as it may be at every call. -/
theorem exec_spec {t : Topic} {root : Root} {c : Catalog} (h : t.Rep (.of root) c)
    (hret : ∀ e ∈ returned, c.counts e.1 = some e.2) (op : Op) :
    ∃ more t' v c', op.exec t (.of root) = (more, t', v) ∧ t'.Rep v c'
      ∧ (∀ e ∈ returned ++ more, c'.counts e.1 = some e.2) ∧ v.Always (Between returned) := by
  have hbetween : (Volume.of root).Always (Between returned) :=
    ⟨between_of_stores h.stores hret, fun r hr => by cases hr⟩
  cases op with
  | create name partitions =>
    have hf := Topic.create_follows h name partitions
    cases hc : c.create t.holder name partitions with
    | mk answer c' =>
    cases ht : t.create (.of root) name partitions with
    | mk res rest =>
    obtain ⟨t', v⟩ := rest
    rw [hc, ht] at hf
    have hres : res = answer := hf.answer
    have hkept : ∀ e ∈ returned, c'.counts e.1 = some e.2 :=
      fun e he => (Catalog.Settles.create hc).counts (hret e he)
    subst hres
    cases res with
    | error e =>
      exact ⟨[], t', v, c', by simp only [Op.exec, ht], hf.rep, by simpa using hkept,
        hf.always stable_between hbetween⟩
    | ok n =>
      refine ⟨[(name, n)], t', v, c', by simp only [Op.exec, ht], hf.rep, fun e he => ?_,
        hf.always stable_between hbetween⟩
      rcases List.mem_append.mp he with he | he
      · exact hkept e he
      · rw [List.mem_singleton.mp he]
        rcases Catalog.create_cases hc with ⟨_, -, h', -⟩ | ⟨m, -, hopen, h'⟩
        · cases h'
        · cases h'
          obtain ⟨rfl, -, -⟩ := Catalog.openAs_spec hopen
          exact Function.update_self ..
  | append name key value timestamp partition clock elapsed =>
    have hf := Topic.append_follows h name key value timestamp partition clock elapsed
    cases hc : c.append t.holder name key value timestamp partition clock with
    | mk answer c' =>
    cases ht : t.append (.of root) name key value timestamp partition clock elapsed with
    | mk res rest =>
    obtain ⟨t', v⟩ := rest
    rw [hc, ht] at hf
    have hres : res = answer := hf.answer
    have hkept : ∀ e ∈ returned, c'.counts e.1 = some e.2 := fun e he => by
      rcases Catalog.append_outcome hc with ⟨_, -, hset⟩ | ⟨p, r, -, -, -, -, -, hadds⟩
      · exact hset.counts (hret e he)
      · exact hadds.counts (hret e he)
    subst hres
    cases res with
    | error e =>
      exact ⟨[], t', v, c', by simp only [Op.exec, ht], hf.rep, by simpa using hkept,
        hf.always stable_between hbetween⟩
    | ok placed =>
      have hknows := (Topic.partitionsOf_follows hf.rep name).answer
      obtain ⟨n, hn⟩ : ∃ n, c'.counts name = some n := by
        rcases Catalog.append_outcome hc with ⟨_, h', -⟩ | ⟨p, r, -, ⟨n, hn, -⟩, -⟩
        · cases h'
        · exact ⟨n, hn⟩
      rw [Catalog.existing_eq_ok (hf.rep.stores.names hn).1 hn] at hknows
      refine ⟨[(name, n)], t', v, c', ?_, hf.rep, fun e he => ?_, hf.always stable_between hbetween⟩
      · simp only [Op.exec, ht, hknows]
      · rcases List.mem_append.mp he with he | he
        · exact hkept e he
        · rw [List.mem_singleton.mp he]
          exact hn

/-- **What a crash finds**: the data root as it may be at any call. -/
theorem crash_finds {s s' : State} {e : Event} (hs : Inv s) (hstep : Step s e s')
    (hnone : s'.topic = none) :
    ∃ mid, Between s'.returned mid ∧ mid.Crash s'.root ∧ (Spares e ↔ s'.root.Whole) := by
  cases hstep with
  | start h => cases hnone
  | op h => cases hnone
  | recover h => cases hnone
  | crash h => exact ⟨_, hs.between, h, Iff.rfl⟩
  | @crashInOp t t' root mid left returned more op v h hmid hcrash =>
    obtain ⟨c, hret, hrep⟩ := hs
    obtain ⟨more', t'', v', c', hexec, -, -, halways⟩ := exec_spec hrep hret op
    rw [h] at hexec
    cases hexec
    exact ⟨mid, halways.of_mem_states hmid, hcrash, Iff.rfl⟩
  | @crashInRecover root mid left returned ring settings res v h hmid hcrash =>
    obtain ⟨c, hret, hstores⟩ := hs
    obtain ⟨store, v', c', hnew, -, -, halways⟩ := newStore_spec hstores ring settings
    rw [h] at hnew
    cases hnew
    exact ⟨mid, (halways stable_between (between_of_stores hstores hret)).of_mem_states hmid,
      hcrash,
      Iff.rfl⟩

/-- **Every step keeps the invariant**, if it spares every `topic.json`. -/
theorem inv_step {s s' : State} {e : Event} (hs : Inv s) (hstep : Step s e s')
    (hspares : Spares e) :
    Inv s' := by
  by_cases hnone : s'.topic = none
  · obtain ⟨mid, hbetween, hcrash, hiff⟩ := crash_finds hs hstep hnone
    obtain ⟨c, hstores, hret⟩ := stores_of_whole hbetween hcrash (hiff.mp hspares)
    exact ⟨c, hret, by rw [hnone]; exact hstores⟩
  · cases hstep with
    | @start root returned life t h =>
      obtain ⟨c, hret, hstores⟩ := hs
      obtain ⟨t', hinit, hrep, -⟩ := Topic.rep_init life.path life.syncPolicy life.owns
        (v := .of root) life.partitions_pos life.maxSegmentBytes.2 hstores
      rw [h] at hinit
      cases hinit
      exact ⟨{ c with turn := 0 }, hret, hrep⟩
    | @op t t' root returned more op v h =>
      obtain ⟨c, hret, hrep⟩ := hs
      obtain ⟨more', t'', v', c', hexec, hrep', hret', -⟩ := exec_spec hrep hret op
      rw [h] at hexec
      cases hexec
      exact ⟨c', hret', hrep'.of⟩
    | @recover root returned ring settings store v h =>
      obtain ⟨c, hret, hstores⟩ := hs
      obtain ⟨store', v', c', hnew, hrep, hcounts, -⟩ := newStore_spec hstores ring settings
      rw [h] at hnew
      cases hnew
      exact ⟨c', fun e he => by rw [hcounts]; exact hret e he, hrep.topic.of⟩
    | crash h => exact absurd rfl hnone
    | crashInOp h hmid hcrash => exact absurd rfl hnone
    | crashInRecover h hmid hcrash => exact absurd rfl hnone

/-- At first nothing has been returned for. -/
theorem inv_start {s : State} (h : system.start s) : Inv s := by
  cases h
  exact ⟨.empty, (fun e he => by cases he), stores_empty⟩

/-- **Topic metadata survives a crash exactly where every `topic.json`
does.** In a run whose crashes so far spared them, and after one more step
that nobody is alive after: a new store opens, for any ring and settings, and
lists every topic that `create` or a first `append` had returned for, with
the number of partitions it had, if and only if the last crash has left every
`topic.json` whole. -/
theorem metadata_survives_iff {s s' : State} {e : Event}
    (h : (system.given fun _ => Spares).Reachable s) (hstep : system.step s e s')
    (hnone : s'.topic = none) (ring : Ring) (settings : Settings) :
    Recovers s' ring settings ↔ s'.root.Whole := by
  have hs : Inv s := System.Reachable.invariant (S := system.given fun _ => Spares)
    (fun _ hs => inv_start hs) (fun _ _ _ hs hstep => inv_step hs hstep.1 hstep.2) h
  obtain ⟨mid, hbetween, hcrash, -⟩ := crash_finds hs hstep hnone
  constructor
  · intro hrec
    by_contra hwhole
    obtain ⟨name, text, hmeta, hname, hloads⟩ := unreadable_of_not_whole hbetween hcrash hwhole
    obtain ⟨err, herr⟩ := newStore_unreadable hname hmeta hloads ring settings
    obtain ⟨store, v, hnew, -⟩ := hrec
    rw [hnew] at herr
    cases herr
  · intro hwhole
    obtain ⟨c, hstores, hret⟩ := stores_of_whole hbetween hcrash hwhole
    exact recovers_of_stores hstores hret ring settings

section Examples

/-- A crash may spare everything. -/
theorem crash_self {root : Root} (h : Between returned root) (name : String) (p : ℕ) :
    Option.Rel Dir.Crash (root.part name p) (root.part name p) := by
  cases hd : root.part name p with
  | none => exact .none
  | some d =>
    obtain ⟨⟨records, rss, rs, t, n, hstored, -⟩, -⟩ := h.part hd
    exact .some hstored.crash_self

omit [Crc32] in
/-- It may spare a `topic.json`. -/
theorem crash_metaFile_self (o : Option (List Char)) : TopicJson.Crash o o := by
  cases o with
  | none => exact .absent
  | some text =>
    have := TopicJson.Crash.cut text text.length
    rwa [List.take_length] at this

/-- On a root that stores a catalog all of them are whole. -/
theorem whole_of_stores {root : Root} {c : Catalog} (h : root.Stores c) : root.Whole := by
  intro name text hm
  rw [h.metaFile] at hm
  obtain ⟨n, -, rfl⟩ := Option.map_eq_some_iff.mp hm
  exact ⟨n, rfl⟩

/-- A topic of three partitions, just created. -/
theorem created : ∃ t root,
    (system.given fun _ => Spares).Reachable ⟨some t, root, [("orders", 3)]⟩ := by
  let life : Life := ⟨"data", 6, ⟨none, none⟩, ⟨4096, by decide⟩, fun _ _ => true, by decide⟩
  obtain ⟨t, hinit, hrep, hholder⟩ := Topic.rep_init life.path life.syncPolicy life.owns
    (v := .of Root.empty) life.partitions_pos life.maxSegmentBytes.2 stores_empty
  have hcreate := (Topic.create_follows hrep "orders" (some 3)).answer
  have hthree : (Catalog.create { Catalog.empty with turn := 0 } t.holder "orders" (some 3)).1
      = .ok 3 := rfl
  rw [hthree] at hcreate
  cases ht : t.create (.of Root.empty) "orders" (some 3) with
  | mk res rest =>
  obtain ⟨t', v⟩ := rest
  rw [ht] at hcreate
  cases hcreate
  have hstart : (system.given fun _ => Spares).Reachable State.empty := .start rfl
  have hbegin : Step State.empty (.start life) ⟨some t, Root.empty, []⟩ := Step.start hinit
  have hexec : Op.exec t (.of Root.empty) (.create "orders" (some 3))
      = ([("orders", 3)], t', v) := by
    simp only [Op.exec, ht]
  have hop : Step ⟨some t, Root.empty, []⟩ (.op (.create "orders" (some 3)))
      ⟨some t', v.root, [("orders", 3)]⟩ := Step.op hexec
  exact ⟨t', v.root, (hstart.step ⟨hbegin, trivial⟩).step ⟨hop, trivial⟩⟩

omit [Crc32] in
/-- A crash that spares the one `topic.json` there is. -/
theorem metadata_survives_spared : ∃ s, (@system Crc32.zlib).Reachable s ∧ s.topic = none
    ∧ s.returned = [("orders", 3)]
    ∧ ∀ ring settings, @Recovers Crc32.zlib s ring settings := by
  let _ := Crc32.zlib
  obtain ⟨t, root, hreach⟩ := created
  have hinv : Inv ⟨some t, root, [("orders", 3)]⟩ :=
    System.Reachable.invariant (S := system.given fun _ => Spares)
      (fun _ hs => inv_start hs) (fun _ _ _ hs hstep => inv_step hs hstep.1 hstep.2) hreach
  obtain ⟨c, hstores, -⟩ := hinv.stores
  have hcrash : root.Crash root :=
    ⟨fun name => crash_metaFile_self _, crash_self hinv.between⟩
  have hstep : system.step ⟨some t, root, [("orders", 3)]⟩ (.crash root)
      ⟨none, root, [("orders", 3)]⟩ := Step.crash hcrash
  exact ⟨_, hreach.of_given.step hstep, rfl, rfl, fun ring settings =>
    (metadata_survives_iff hreach hstep rfl ring settings).mpr (whole_of_stores hstores)⟩

omit [Crc32] in
/-- **A crash can lose a topic**, and with it the whole store: `create` has
returned, the text of `topic.json` is gone, and no store opens any more. -/
theorem metadata_lost : ∃ s, (@system Crc32.zlib).Reachable s ∧ s.topic = none
    ∧ s.returned = [("orders", 3)]
    ∧ ∀ ring settings, ¬@Recovers Crc32.zlib s ring settings := by
  let _ := Crc32.zlib
  obtain ⟨t, root, hreach⟩ := created
  have hinv : Inv ⟨some t, root, [("orders", 3)]⟩ :=
    System.Reachable.invariant (S := system.given fun _ => Spares)
      (fun _ hs => inv_start hs) (fun _ _ _ hs hstep => inv_step hs hstep.1 hstep.2) hreach
  have hmeta : root.metaFile "orders" = some (TopicJson.dumps 3) :=
    hinv.between.returned ("orders", 3) List.mem_cons_self
  have hcrash : root.Crash (root.setMeta "orders" []) := by
    refine ⟨fun name => ?_, fun name p => ?_⟩
    · rw [Root.metaFile_setMeta]
      split_ifs with hname
      · rw [hname, hmeta]
        exact .cut _ 0
      · exact crash_metaFile_self _
    · rw [Root.part_setMeta]
      exact crash_self hinv.between name p
  refine ⟨_, hreach.of_given.step (Step.crash hcrash), rfl, rfl, fun ring settings hrec => ?_⟩
  have hempty : (root.setMeta "orders" []).metaFile "orders" = some [] := by
    rw [Root.metaFile_setMeta, if_pos rfl]
  obtain ⟨e, he⟩ := newStore_unreadable (by decide) hempty (by decide) ring settings
  obtain ⟨store, v, hnew, -⟩ := hrec
  rw [hnew] at he
  cases he

end Examples

end Outage

end Pyka
