import Pyka.Storage.AppendOnly
import Pyka.Topic.Topic

/-!
# What a topic registry is for

A registry said without files and caches: how many partitions each topic has,
and the records of each partition stored here (`Catalog`). A topic gets its
number of partitions once; a partition is a list of records to which an append
adds at the end.

## What stays visible

The operations give the answers of those of `Topic`, their exceptions
included. Of what the process has open, nothing is left: that a topic is
opened when it is first come to shows in one way only, that from then on there
is a directory for each of its partitions stored here (`Catalog.touch`).
Limits on segments, syncs and the recovery of files do not show at all, which
is the point of a catalog: `Topic.TopicSpec` proves that the registry gives
the same answers whatever these are.

## What an operation comes to

For each operation there is one lemma that says all it can do, with the
reasons for which it is refused (`create_cases`, `existing_cases`,
`route_cases`, `append_cases`); what is shown of catalogs later goes by these,
and not by the definitions. Two relations sum them up. `Settles` is what an
operation does that adds no record, and it is closed under composition; `Adds`
is what an append does that is answered. Every operation is one or the other
(`append_outcome`), so that a property of runs is shown for two kinds of steps
and not for six operations.

Last, an append is answered exactly where nothing speaks against it
(`append_isOk_iff`), and a read and an opening likewise: no case of failure is
left that one would have to think of.
-/

namespace Pyka

open Struct (Bytes)

/-- **Topics and their partitions.** Names and numbers are those of every
topic there could be; one that does not exist has no count. -/
structure Catalog where
  counts : String → Option ℕ
  /-- The records of a partition that has a directory here. -/
  logs : String → ℕ → Option (List Record)
  /-- The turn of the next record without a key. -/
  turn : ℕ

/-- What a process is started with: which partitions are its own, and how
many a topic gets that nobody says a number for. -/
structure Holder where
  owns : String → ℕ → Bool
  defaultPartitions : ℕ

/-- How many partitions a new topic gets: the number asked for, or else the
one that the process was started with. -/
def Holder.countOf (h : Holder) (partitions : Option ℕ) : ℕ :=
  match partitions with
  | none => h.defaultPartitions
  | some n => if n = 0 then h.defaultPartitions else n

theorem Holder.countOf_pos {h : Holder} (hd : 0 < h.defaultPartitions) (partitions : Option ℕ) :
    0 < h.countOf partitions := by
  unfold countOf
  cases partitions with
  | none => exact hd
  | some n =>
    by_cases hn : n = 0
    · simpa [hn] using hd
    · simpa [hn] using Nat.pos_of_ne_zero hn

namespace Catalog

/-- No topics, no records, and the first turn. -/
def empty : Catalog := ⟨fun _ => none, fun _ _ => none, 0⟩

/-- The records of a partition, none where it has no directory: what a read of
it from the beginning yields. -/
def records (c : Catalog) (name : String) (p : ℕ) : List Record := (c.logs name p).getD []

/-- **A topic is opened**: it has its number of partitions from now on, and
those stored here have their directories, empty where they are new. -/
def touch (c : Catalog) (h : Holder) (name : String) (n : ℕ) : Catalog :=
  { c with
    counts := Function.update c.counts name (some n)
    logs := fun name' p =>
      if name' = name ∧ p < n ∧ h.owns name p = true then some (c.records name p)
      else c.logs name' p }

/-- A record is added to a partition, behind those that are there. -/
def push (c : Catalog) (name : String) (p : ℕ) (r : Record) : Catalog :=
  { c with logs := fun name' p' =>
      if name' = name ∧ p' = p then some (c.records name p ++ [r]) else c.logs name' p' }

/-- Open a topic, creating it where need be. A topic that is there keeps its
number, whatever number is asked for. -/
def openAs (c : Catalog) (h : Holder) (name : String) (partitions : Option ℕ) : ℕ × Catalog :=
  let n := (c.counts name).getD (h.countOf partitions)
  (n, c.touch h name n)

/-- `Topic.create`: the answer is the number of partitions, old or new. -/
def create (c : Catalog) (h : Holder) (name : String) (partitions : Option ℕ) :
    Except PyError ℕ × Catalog :=
  match validateName name with
  | .error e => (.error e, c)
  | .ok () =>
    let (n, c) := c.openAs h name partitions
    (.ok n, c)

/-- `Topic._topic`: a topic that is there is opened, one that is not is an
error. -/
def existing (c : Catalog) (h : Holder) (name : String) : Except PyError ℕ × Catalog :=
  match validateName name with
  | .error e => (.error e, c)
  | .ok () =>
    match c.counts name with
    | none => (.error (.unknownTopic name), c)
    | some n => (.ok n, c.touch h name n)

/-- `Topic._check_partition`: out of range and not stored here are two errors,
and the texts are those of the registry. -/
def checkPartition (h : Holder) (name : String) (n : ℕ) (partition : ℤ) : Except PyError ℕ := do
  raiseIf (¬(0 ≤ partition ∧ partition < n))
    (.valueError (s!"topic {pyRepr name} has {n} partition(s), " ++ s!"asked for {partition}"))
  if h.owns name partition.toNat then return partition.toNat
  else .error (.partitionNotLocal s!"partition {partition} of {pyRepr name} is not stored here")

/-- A partition passes that is one of the topic's and stored here. -/
theorem checkPartition_eq_ok {h : Holder} {name : String} {n : ℕ} {partition : ℤ} {p : ℕ} :
    checkPartition h name n partition = .ok p
      ↔ partition = p ∧ p < n ∧ h.owns name p = true := by
  unfold checkPartition
  simp only [bind_eq_ok, raiseIf_eq_ok]
  constructor
  · rintro ⟨-, hr, h'⟩
    obtain ⟨hr, hr'⟩ := not_not.mp hr
    split_ifs at h' with howns
    cases h'
    exact ⟨by omega, by omega, howns⟩
  · rintro ⟨rfl, hlt, howns⟩
    refine ⟨(), by simpa using hlt, ?_⟩
    rw [Int.toNat_natCast, if_pos howns]
    rfl

/-- `Topic.read_from`: the records of the partition without those before the
offset. -/
def readFrom (c : Catalog) (h : Holder) (name : String) (offset : ℤ) (partition : ℤ) :
    Except PyError (List Record) × Catalog :=
  let (res, c) := c.existing h name
  (res.bind fun n => (checkPartition h name n partition).bind fun p =>
    if offset < 0 then
      .error (.offsetOutOfRange s!"offset {offset} is before this log starts ({(0 : ℤ)})")
    else .ok ((c.records name p).drop offset.toNat), c)

section Codec

variable [Crc32]

/-- `Partitioner.partition_for`, of a topic that has partitions; so there is
nothing to refuse, and the answer is a number and the turn after it. -/
def partitionFor (turn : ℕ) (key : Option Bytes) (n : ℕ) : ℕ × ℕ :=
  match key with
  | none => (turn % n, turn + 1)
  | some key => (keyPartition key n, turn)

/-- `Topic.route`: the topic is opened, and a record without a key takes a
turn. -/
def route (c : Catalog) (h : Holder) (name : String) (key : Option Bytes) :
    Except PyError ℕ × Catalog :=
  match c.existing h name with
  | (.error e, c) => (.error e, c)
  | (.ok n, c) =>
    let (p, turn) := partitionFor c.turn key n
    (.ok p, { c with turn })

/-- An append to a partition stored here: the record is added if it can be
encoded, with the number of records as its offset. -/
def appendTo (c : Catalog) (name : String) (p : ℕ) (key value : Option Bytes)
    (timestamp : Option ℤ) (clock : ℤ) : Except PyError (ℤ × ℤ) × Catalog :=
  let r : Record := ⟨(c.records name p).length, timestamp.getD clock, key, value⟩
  match r.encode with
  | .error e => (.error e, c)
  | .ok _ => (.ok (p, r.offset), c.push name p r)

/-- Where an append goes, and the turn after it. -/
def target (turn : ℕ) (key : Option Bytes) (partition : Option ℤ) (n : ℕ) : ℤ × ℕ :=
  match partition with
  | some p => (p, turn)
  | none =>
    let (p, turn) := partitionFor turn key n
    (p, turn)

/-- `Topic.append`: the topic is opened, the turn may move on, and after that
one record is added or none. -/
def append (c : Catalog) (h : Holder) (name : String) (key value : Option Bytes)
    (timestamp : Option ℤ) (partition : Option ℤ) (clock : ℤ) :
    Except PyError (ℤ × ℤ) × Catalog :=
  match validateName name with
  | .error e => (.error e, c)
  | .ok () =>
    let (n, c) := c.openAs h name none
    let (partition, turn) := target c.turn key partition n
    let c := { c with turn }
    match checkPartition h name n partition with
    | .error e => (.error e, c)
    | .ok p => c.appendTo name p key value timestamp clock

end Codec

/-! ## What they do

How each change of a catalog answers the questions asked of it. Counts,
records and the turn are looked at one at a time; what a step does not change
is a lemma as well. -/

variable {c c' : Catalog} {h : Holder} {name name' : String} {n p p' : ℕ} {r : Record}

@[simp] theorem turn_touch : (c.touch h name n).turn = c.turn := rfl

@[simp] theorem counts_touch : (c.touch h name n).counts = Function.update c.counts name (some n) :=
  rfl

/-- **Opening adds no record.** -/
@[simp] theorem records_touch : (c.touch h name n).records name' p = c.records name' p := by
  unfold records touch
  simp only
  split_ifs with hc
  · rw [hc.1]
    rfl
  · rfl

/-- A partition stored here has a directory once its topic was opened. -/
theorem logs_touch_of_owns (hp : p < n) (ho : h.owns name p = true) :
    (c.touch h name n).logs name p = some (c.records name p) :=
  if_pos ⟨rfl, hp, ho⟩

@[simp] theorem counts_push : (c.push name p r).counts = c.counts := rfl

@[simp] theorem turn_push : (c.push name p r).turn = c.turn := rfl

@[simp] theorem records_push : (c.push name p r).records name' p'
    = if name' = name ∧ p' = p then c.records name p ++ [r] else c.records name' p' := by
  unfold records push
  simp only
  split_ifs
  · rfl
  · rfl

/-- Opening a topic that is open does nothing. -/
theorem touch_eq_self (hc : c.counts name = some n)
    (hl : ∀ p < n, h.owns name p = true → (c.logs name p).isSome) : c.touch h name n = c := by
  obtain ⟨counts, logs, turn⟩ := c
  unfold touch
  congr 1
  · funext name'
    by_cases hn : name' = name
    · rw [hn, Function.update_self]
      exact hc.symm
    · rw [Function.update_of_ne hn]
  · funext name' p
    split_ifs with hc
    · obtain ⟨rfl, hp, ho⟩ := hc
      obtain ⟨rs, hrs⟩ := Option.isSome_iff_exists.mp (hl p hp ho)
      have hrs : logs name' p = some rs := hrs
      simp [records, hrs]
    · rfl

/-! ### What they can come to

One lemma for each operation, with the refusals first and in the order in
which the source makes its checks. -/

/-- **What opening comes to**: the topic has `n` partitions from then on,
and had them before if it was there. -/
theorem openAs_spec {partitions : Option ℕ} (ho : c.openAs h name partitions = (n, c')) :
    c' = c.touch h name n ∧ (∀ m, c.counts name = some m → m = n)
      ∧ (c.counts name = none → n = h.countOf partitions) := by
  unfold openAs at ho
  simp only [Prod.mk.injEq] at ho
  obtain ⟨rfl, rfl⟩ := ho
  refine ⟨rfl, fun m hm => ?_, fun hnone => ?_⟩
  · rw [hm]
    rfl
  · rw [hnone]
    rfl

/-- What the topics' numbers of partitions are once a topic has been opened,
or its name refused. -/
def counted (c : Catalog) (h : Holder) (name : String) (partitions : Option ℕ) :
    String → Option ℕ :=
  match validateName name with
  | .error _ => c.counts
  | .ok () => Function.update c.counts name (some ((c.counts name).getD (h.countOf partitions)))

/-- A topic that was opened has a number of partitions: its own, or the one it
got. -/
theorem counted_self (hname : validateName name = .ok ()) (partitions : Option ℕ) :
    c.counted h name partitions name = some ((c.counts name).getD (h.countOf partitions)) := by
  unfold counted
  rw [hname]
  exact Function.update_self ..

/-- Opening a topic changes the counts as `counted` says. -/
theorem openAs_counts {partitions : Option ℕ} (hname : validateName name = .ok ())
    (ho : c.openAs h name partitions = (n, c')) : c'.counts = c.counted h name partitions := by
  unfold openAs at ho
  simp only [Prod.mk.injEq] at ho
  obtain ⟨-, rfl⟩ := ho
  unfold counted
  rw [hname, counts_touch]

/-- **What `create` comes to.** -/
theorem create_cases {partitions : Option ℕ} {answer : Except PyError ℕ}
    (hc : c.create h name partitions = (answer, c')) :
    (∃ e, validateName name = .error e ∧ answer = .error e ∧ c' = c)
    ∨ ∃ n, validateName name = .ok () ∧ c.openAs h name partitions = (n, c') ∧ answer = .ok n := by
  unfold create at hc
  cases hname : validateName name with
  | error e =>
    simp only [hname, Prod.mk.injEq] at hc
    exact Or.inl ⟨e, rfl, hc.1.symm, hc.2.symm⟩
  | ok u =>
    simp only [hname, Prod.mk.injEq] at hc
    exact Or.inr ⟨_, rfl, Prod.ext rfl hc.2, hc.1.symm⟩

/-- So does creating it, whatever the answer. -/
theorem create_counts {partitions : Option ℕ} {answer : Except PyError ℕ}
    (hc : c.create h name partitions = (answer, c')) : c'.counts = c.counted h name partitions := by
  rcases create_cases hc with ⟨e, hname, -, rfl⟩ | ⟨n, hname, hopen, -⟩
  · unfold counted
    rw [hname]
  · exact openAs_counts hname hopen

/-- **What asking for a topic comes to.** -/
theorem existing_cases {answer : Except PyError ℕ} (hc : c.existing h name = (answer, c')) :
    (∃ e, answer = .error e ∧ c' = c ∧ (validateName name = .error e
        ∨ validateName name = .ok () ∧ c.counts name = none ∧ e = .unknownTopic name))
    ∨ ∃ n, validateName name = .ok () ∧ c.counts name = some n ∧ answer = .ok n
        ∧ c' = c.touch h name n := by
  unfold existing at hc
  cases hname : validateName name with
  | error e =>
    simp only [hname, Prod.mk.injEq] at hc
    exact Or.inl ⟨e, hc.1.symm, hc.2.symm, Or.inl rfl⟩
  | ok u =>
    cases hn : c.counts name with
    | none =>
      simp only [hname, hn, Prod.mk.injEq] at hc
      exact Or.inl ⟨_, hc.1.symm, hc.2.symm, Or.inr ⟨rfl, rfl, rfl⟩⟩
    | some n =>
      simp only [hname, hn, Prod.mk.injEq] at hc
      exact Or.inr ⟨n, rfl, rfl, hc.1.symm, hc.2.symm⟩

/-- Asking for a topic changes no count, since it creates none. -/
theorem existing_counts {answer : Except PyError ℕ} (hc : c.existing h name = (answer, c')) :
    c'.counts = c.counts := by
  rcases existing_cases hc with ⟨e, -, rfl, -⟩ | ⟨n, -, hn, -, rfl⟩
  · rfl
  · rw [counts_touch, ← hn, Function.update_eq_self]

/-- Nor does a read, whether it is answered or refused. -/
theorem readFrom_counts {offset partition : ℤ} {answer : Except PyError (List Record)}
    (hc : c.readFrom h name offset partition = (answer, c')) : c'.counts = c.counts := by
  cases he : c.existing h name with
  | mk res c₁ =>
    simp only [Catalog.readFrom, he, Prod.mk.injEq] at hc
    exact hc.2 ▸ existing_counts he

section Codec

variable [Crc32]

/-- **What `route` comes to.** -/
theorem route_cases {key : Option Bytes} {answer : Except PyError ℕ}
    (hc : c.route h name key = (answer, c')) :
    (∃ e, answer = .error e ∧ c.existing h name = (.error e, c'))
    ∨ ∃ n, c.existing h name = (.ok n, c.touch h name n)
        ∧ answer = .ok (partitionFor c.turn key n).1
        ∧ c' = { c.touch h name n with turn := (partitionFor c.turn key n).2 } := by
  unfold route at hc
  cases he : c.existing h name with
  | mk res c₁ =>
    cases res with
    | error e =>
      simp only [he, Prod.mk.injEq] at hc
      exact Or.inl ⟨e, hc.1.symm, by rw [hc.2]⟩
    | ok n =>
      rcases existing_cases he with ⟨e, h', -⟩ | ⟨m, -, -, hm, rfl⟩
      · cases h'
      · cases hm
        simp only [he, Prod.mk.injEq] at hc
        exact Or.inr ⟨n, rfl, hc.1.symm, hc.2.symm⟩

theorem route_counts {key : Option Bytes} {answer : Except PyError ℕ}
    (hc : c.route h name key = (answer, c')) : c'.counts = c.counts := by
  rcases route_cases hc with ⟨e, -, he⟩ | ⟨n, he, -, rfl⟩
  · exact existing_counts he
  · have hcounts := existing_counts he
    exact hcounts

/-- **What `append` comes to**: the name is refused, or the topic is opened
and then the partition or the record refused, or the record is added. -/
theorem append_cases {key value : Option Bytes} {timestamp : Option ℤ} {partition : Option ℤ}
    {clock : ℤ} {answer : Except PyError (ℤ × ℤ)}
    (hc : c.append h name key value timestamp partition clock = (answer, c')) :
    (∃ e, validateName name = .error e ∧ answer = .error e ∧ c' = c)
    ∨ ∃ n c₁, validateName name = .ok () ∧ c.openAs h name none = (n, c₁)
      ∧ ((∃ e, checkPartition h name n (target c₁.turn key partition n).1 = .error e
            ∧ answer = .error e ∧ c' = { c₁ with turn := (target c₁.turn key partition n).2 })
        ∨ ∃ (p : ℕ) (r : Record), (target c₁.turn key partition n).1 = p ∧ p < n
            ∧ h.owns name p = true
            ∧ r = ⟨(c.records name p).length, timestamp.getD clock, key, value⟩
            ∧ ((∃ e, r.encode = .error e ∧ answer = .error e
                ∧ c' = { c₁ with turn := (target c₁.turn key partition n).2 })
              ∨ r.Encodable ∧ answer = .ok (p, r.offset)
                ∧ c' = push { c₁ with turn := (target c₁.turn key partition n).2 } name p r)) := by
  unfold append at hc
  cases hname : validateName name with
  | error e =>
    simp only [hname, Prod.mk.injEq] at hc
    exact Or.inl ⟨e, rfl, hc.1.symm, hc.2.symm⟩
  | ok u =>
    cases hopen : c.openAs h name none with
    | mk n c₁ =>
    refine Or.inr ⟨n, c₁, rfl, rfl, ?_⟩
    obtain ⟨hc₁, -, -⟩ := openAs_spec hopen
    cases hcheck : checkPartition h name n (target c₁.turn key partition n).1 with
    | error e =>
      simp only [hname, hopen, hcheck, Prod.mk.injEq] at hc
      exact Or.inl ⟨e, rfl, hc.1.symm, hc.2.symm⟩
    | ok p =>
      obtain ⟨htarget, hp, ho⟩ := checkPartition_eq_ok.mp hcheck
      refine Or.inr ⟨p, ⟨(c.records name p).length, timestamp.getD clock, key, value⟩, htarget, hp,
        ho, rfl, ?_⟩
      have hrecs : records { c₁ with turn := (target c₁.turn key partition n).2 } name p
          = c.records name p := by
        rw [hc₁]
        exact records_touch
      simp only [hname, hopen, hcheck, appendTo, hrecs] at hc
      cases hencode : Record.encode ⟨(c.records name p).length, timestamp.getD clock, key,
        value⟩ with
      | error e =>
        simp only [hencode, Prod.mk.injEq] at hc
        exact Or.inl ⟨e, rfl, hc.1.symm, hc.2.symm⟩
      | ok bs =>
        simp only [hencode, Prod.mk.injEq] at hc
        exact Or.inr ⟨((Record.encode_eq_ok_iff _ _).mp hencode).1, hc.1.symm, hc.2.symm⟩

/-- An append creates the topic where the name is a good one, even if it is
refused then. -/
theorem append_counts {key value : Option Bytes} {timestamp : Option ℤ} {partition : Option ℤ}
    {clock : ℤ} {answer : Except PyError (ℤ × ℤ)}
    (hc : c.append h name key value timestamp partition clock = (answer, c')) :
    c'.counts = c.counted h name none := by
  rcases append_cases hc with ⟨e, hname, -, rfl⟩ | ⟨n, c₁, hname, hopen, happ⟩
  · unfold counted
    rw [hname]
  · rw [← openAs_counts hname hopen]
    rcases happ with ⟨e, -, -, rfl⟩ | ⟨p, r, -, -, -, -, ⟨e, -, -, rfl⟩ | ⟨-, -, rfl⟩⟩ <;> rfl

end Codec

/-- **What is there is found**, and opened if it was not. -/
theorem existing_eq_ok (hname : validateName name = .ok ()) (hn : c.counts name = some n) :
    c.existing h name = (.ok n, c.touch h name n) := by
  unfold existing
  rw [hname, hn]

/-- **A read that nothing speaks against** is answered. -/
theorem readFrom_eq_ok {offset partition : ℤ} (hname : validateName name = .ok ())
    (hn : c.counts name = some n) (hpart : partition = p) (hp : p < n)
    (ho : h.owns name p = true) (hoff : 0 ≤ offset) :
    (c.readFrom h name offset partition).1 = .ok ((c.records name p).drop offset.toNat) := by
  unfold readFrom
  rw [existing_eq_ok hname hn]
  simp only [Except.bind, checkPartition_eq_ok.mpr ⟨hpart, hp, ho⟩, if_neg (not_lt.mpr hoff),
    records_touch]

/-- **An append that nothing speaks against** is answered. -/
theorem append_eq_ok [Crc32] {key value : Option Bytes} {timestamp partition : Option ℤ} {clock : ℤ}
    (hname : validateName name = .ok ()) (hn : c.counts name = some n)
    (htarget : (target c.turn key partition n).1 = p) (hp : p < n) (ho : h.owns name p = true)
    (henc : Record.Encodable ⟨(c.records name p).length, timestamp.getD clock, key, value⟩) :
    (c.append h name key value timestamp partition clock).1
      = .ok (p, ((c.records name p).length : ℤ)) := by
  have hopen : c.openAs h name none = (n, c.touch h name n) := by
    unfold openAs
    rw [hn]
    rfl
  unfold append
  rw [hname, hopen]
  simp only [turn_touch, checkPartition_eq_ok.mpr ⟨htarget, hp, ho⟩]
  have hrecs : records { c.touch h name n with turn := (target c.turn key partition n).2 } name p
      = c.records name p := records_touch
  unfold appendTo
  simp only [hrecs, (Record.encode_eq_ok_iff _ _).mpr ⟨henc, rfl⟩]

/-! ### Adding no record

An operation that adds no record can still open a topic, create it, or move
the turn on. What is left alone is said by name. -/

/-- **A step that adds no record**: topics keep their numbers of partitions,
and a directory that is new is one of those stored here. -/
structure Settles (h : Holder) (c c' : Catalog) : Prop where
  counts : ∀ {name n}, c.counts name = some n → c'.counts name = some n
  records : ∀ name p, c'.records name p = c.records name p
  logs : ∀ {name p}, (c'.logs name p).isSome → (c.logs name p).isSome ∨ h.owns name p = true

namespace Settles

variable {c'' : Catalog}

/-- Doing nothing settles, and so does moving the turn. -/
theorem refl (h : Holder) (c : Catalog) (turn : ℕ) : c.Settles h { c with turn } :=
  ⟨id, fun _ _ => rfl, Or.inl⟩

/-- Two such steps after each other are one. -/
theorem trans (h₁ : c.Settles h c') (h₂ : c'.Settles h c'') : c.Settles h c'' :=
  ⟨fun hn => h₂.counts (h₁.counts hn), fun name p => (h₂.records name p).trans (h₁.records name p),
    fun hl => (h₂.logs hl).elim h₁.logs Or.inr⟩

/-- Opening a topic, as long as its number of partitions is the one it has. -/
theorem touch (hsame : ∀ m, c.counts name = some m → m = n) : c.Settles h (c.touch h name n) where
  counts {name' m} hm := by
    rw [counts_touch]
    by_cases hnn : name' = name
    · rw [hnn, Function.update_self, hsame m (hnn ▸ hm)]
    · rwa [Function.update_of_ne hnn]
  records _ _ := records_touch
  logs {name' p} hl := by
    by_cases hp : name' = name ∧ p < n ∧ h.owns name p = true
    · exact Or.inr (hp.1 ▸ hp.2.2)
    · have hsame : (c.touch h name n).logs name' p = c.logs name' p := if_neg hp
      exact Or.inl (by rwa [hsame] at hl)

theorem openAs {partitions : Option ℕ} (ho : c.openAs h name partitions = (n, c')) :
    c.Settles h c' := by
  obtain ⟨rfl, hsame, -⟩ := openAs_spec ho
  exact touch hsame

theorem create {partitions : Option ℕ} {answer : Except PyError ℕ}
    (hc : c.create h name partitions = (answer, c')) : c.Settles h c' := by
  rcases create_cases hc with ⟨e, -, -, rfl⟩ | ⟨n, -, hopen, -⟩
  · exact refl h _ _
  · exact openAs hopen

theorem existing {answer : Except PyError ℕ} (hc : c.existing h name = (answer, c')) :
    c.Settles h c' := by
  rcases existing_cases hc with ⟨e, -, rfl, -⟩ | ⟨n, -, hn, -, rfl⟩
  · exact refl h _ _
  · exact touch fun m hm => Option.some.inj (hm.symm.trans hn)

theorem readFrom {offset partition : ℤ} {answer : Except PyError (List Record)}
    (hc : c.readFrom h name offset partition = (answer, c')) : c.Settles h c' := by
  cases he : c.existing h name with
  | mk res c₁ =>
    simp only [Catalog.readFrom, he, Prod.mk.injEq] at hc
    exact hc.2 ▸ existing he

theorem route [Crc32] {key : Option Bytes} {answer : Except PyError ℕ}
    (hc : c.route h name key = (answer, c')) : c.Settles h c' := by
  rcases route_cases hc with ⟨e, -, he⟩ | ⟨n, he, -, rfl⟩
  · exact existing he
  · exact (existing he).trans (refl h _ _)

end Settles

/-- **A step that adds one record** to a partition stored here, at the offset
that is next, and changes the records of no other. -/
structure Adds (h : Holder) (c c' : Catalog) (name : String) (p : ℕ) (r : Record) : Prop where
  counts : ∀ {name n}, c.counts name = some n → c'.counts name = some n
  count : ∃ n, c'.counts name = some n ∧ p < n
  owns : h.owns name p = true
  offset : r.offset = (c.records name p).length
  records : ∀ name' p', c'.records name' p'
    = if name' = name ∧ p' = p then c.records name p ++ [r] else c.records name' p'
  logs : ∀ {name p}, (c'.logs name p).isSome → (c.logs name p).isSome ∨ h.owns name p = true

/-- **An append adds one record or none**, and answers accordingly. -/
theorem append_outcome [Crc32] {key value : Option Bytes} {timestamp partition : Option ℤ}
    {clock : ℤ} {answer : Except PyError (ℤ × ℤ)}
    (hc : c.append h name key value timestamp partition clock = (answer, c')) :
    (∃ e, answer = .error e ∧ c.Settles h c')
    ∨ ∃ (p : ℕ) (r : Record), answer = .ok (p, r.offset)
        ∧ (∃ n, c'.counts name = some n ∧ (target c.turn key partition n).1 = p)
        ∧ r.timestamp = timestamp.getD clock ∧ r.key = key ∧ r.value = value
        ∧ c.Adds h c' name p r := by
  rcases append_cases hc with ⟨e, -, rfl, rfl⟩ | ⟨n, c₁, -, hopen, happ⟩
  · exact Or.inl ⟨e, rfl, .refl h _ _⟩
  · have hset := Settles.openAs hopen
    rcases happ with ⟨e, -, rfl, rfl⟩ | ⟨p, r, htarget, hp, ho, rfl,
      ⟨e, -, rfl, rfl⟩ | ⟨-, rfl, rfl⟩⟩
    · exact Or.inl ⟨e, rfl, hset.trans (.refl h _ _)⟩
    · exact Or.inl ⟨e, rfl, hset.trans (.refl h _ _)⟩
    · obtain ⟨hc₁, -, -⟩ := openAs_spec hopen
      have hcount : c₁.counts name = some n := hc₁ ▸ Function.update_self ..
      refine Or.inr ⟨p, _, rfl, ⟨n, hcount, ?_⟩, rfl, rfl, rfl, hset.counts, ⟨n, hcount, hp⟩,
        ho, rfl,
        fun name' p' => ?_, fun {name' p'} hl => ?_⟩
      · rw [hc₁] at htarget
        exact htarget
      · rw [records_push]
        have hrecs : ∀ name' q, Catalog.records { c₁ with
            turn := (target c₁.turn key partition n).2 } name' q = c.records name' q :=
          hset.records
        rw [hrecs, hrecs]
      · unfold push at hl
        simp only at hl
        split_ifs at hl with hc
        · exact Or.inr (by rw [hc.1, hc.2]; exact ho)
        · exact hset.logs hl

/-- **An append adds a record exactly where nothing speaks against it.** -/
theorem append_isOk_iff [Crc32] {key value : Option Bytes} {timestamp partition : Option ℤ}
    {clock : ℤ} :
    (∃ place, (c.append h name key value timestamp partition clock).1 = .ok place)
      ↔ validateName name = .ok ()
        ∧ ∃ p : ℕ, (target c.turn key partition ((c.counts name).getD h.defaultPartitions)).1 = p
          ∧ p < (c.counts name).getD h.defaultPartitions ∧ h.owns name p = true
          ∧ Record.Encodable ⟨(c.records name p).length, timestamp.getD clock, key, value⟩ := by
  cases hc : c.append h name key value timestamp partition clock with
  | mk answer c' =>
  rcases append_cases hc with ⟨e, hname, rfl, -⟩ | ⟨n, c₁, hname, hopen, happ⟩
  · exact ⟨fun ⟨_, hplace⟩ => (by cases hplace), fun ⟨hok, _⟩ => by rw [hname] at hok; cases hok⟩
  · have hn : (c.counts name).getD h.defaultPartitions = n := congrArg Prod.fst hopen
    obtain ⟨hc₁, -, -⟩ := openAs_spec hopen
    have hturn : c₁.turn = c.turn := by rw [hc₁, turn_touch]
    rw [hturn] at happ
    rw [hn]
    rcases happ with ⟨e, hcheck, rfl, -⟩ | ⟨p, r, htarget, hp, ho, rfl,
      ⟨e, henc, rfl, -⟩ | ⟨henc, rfl, -⟩⟩
    · refine ⟨fun ⟨_, hplace⟩ => (by cases hplace), fun ⟨_, p, htarget, hp, ho, _⟩ => ?_⟩
      rw [checkPartition_eq_ok.mpr ⟨htarget, hp, ho⟩] at hcheck
      cases hcheck
    · refine ⟨fun ⟨_, hplace⟩ => (by cases hplace), fun ⟨_, p', htarget', _, _, henc'⟩ => ?_⟩
      obtain rfl : p = p' := Int.ofNat.inj (htarget.symm.trans htarget')
      rw [Record.encode_of_encodable henc'] at henc
      cases henc
    · exact ⟨fun _ => ⟨hname, p, htarget, hp, ho, henc⟩, fun _ => ⟨_, rfl⟩⟩

end Catalog

end Pyka
