import Pyka.Base.Rounds
import Pyka.Topic.Refused

/-!
# Records without a key

A record that has no key, and that nobody has chosen a partition for, goes to
the next partition in turn. There is one turn for the whole registry: every
such record moves it on, also one for another topic and one that is then
refused. So the records of one topic are spread evenly exactly as long as the
turns that fall to it are (`Spread.spread_iff`).

## What even means

In each round of as many records as the topic has partitions, every partition
gets one: no partition then has two records more than another at any moment,
rounds that are not finished included. That this is the same as the turns
being fair is arithmetic about remainders and has nothing to do with topics;
it is in `Base.Rounds`. Here the two sides are connected with the registry:
the turns are counted over a run (`turns`), and the records are counted in the
partitions' lists, as they are stored.

## What moves the turn

The turn moves on when a record without a key reaches the partitioner, and
that is when its name is a good one (`Act.turns`): the topic has been opened
by then, or created. Whether the record is stored is decided afterwards, by
what can be encoded (`Act.stores`). So a turn may be taken and nothing stored,
and it may be taken for another topic; both leave a gap in the turns that fall
to this one. With a single topic, and records that can all be encoded, there
are no gaps and the spread is even.

All partitions are stored here. A registry that stores a part of them refuses
the others' turns, and that is a matter of redirecting (`Broker.Redirect`).
-/

namespace Pyka

open Struct (Bytes)

namespace Spread

/-- **What comes**: a topic is created, or a record is appended that nobody
has chosen a partition for. -/
inductive Act
  | create (name : String) (partitions : Option ℕ)
  | append (name : String) (key value : Option Bytes) (timestamp : Option ℤ) (clock : ℤ)
      (elapsed : ℚ)

inductive Answer
  | count (answer : Except PyError ℕ)
  | placed (answer : Except PyError (ℤ × ℤ))

/-- A registry and its data root. -/
structure State where
  topic : Topic
  root : Root

/-- The partition a topic's record without a key was stored in, read off the
act and its answer. -/
def spot (name : String) : Act × Answer → Option ℕ
  | (.append name' none _ _ _ _, .placed (.ok (p, _))) =>
    if name' = name then some p.toNat else none
  | _ => none

/-- **Where a topic's records without a key went**, in the order they were
accepted. -/
def placed (name : String) (log : List (Act × Answer)) : List ℕ := log.filterMap (spot name)

/-- How many records of a partition have no key: what is counted of what is
stored. -/
def keyless (records : List Record) : ℕ := records.countP fun r => r.key.isNone

/-- The record takes a turn: it has no key, and its topic's name is accepted. -/
def Act.turns : Act → Bool
  | append name none .. => isValidName name
  | _ => false

variable [Crc32]

/-- **A registry to which records come**, for any topics, in any order, with
topics made in between. -/
def machine : Machine State Act Answer where
  step s
    | .create name partitions =>
      let (res, t, v) := s.topic.create (.of s.root) name partitions
      (.count res, ⟨t, v.root⟩)
    | .append name key value timestamp clock elapsed =>
      let (res, t, v) := s.topic.append (.of s.root) name key value timestamp none clock elapsed
      (.placed res, ⟨t, v.root⟩)

/-- A record without a key, for this topic, which can be stored at this turn.
It depends on the turn because the offset of the record is part of what is
encoded. -/
def Act.stores (s : State) (turn : ℕ) (name : String) : Act → Bool
  | append name' none value timestamp clock _ =>
    name' = name && isValidName name && decide (Record.Encodable
      ⟨(s.root.records name (turn % s.topic.countOn s.root name)).length, timestamp.getD clock,
        none, value⟩)
  | _ => false

/-- **The turns that fall to a topic.** The turn is the number of records
without a key that have come, for whatever topic. -/
def turns (name : String) : State → ℕ → List Act → List ℕ
  | _, _, [] => []
  | s, turn, act :: acts =>
    let rest := turns name (machine.step s act).2 (if act.turns then turn + 1 else turn) acts
    if act.stores s turn name then turn :: rest else rest

/-- **What one step does**, seen from the catalog: the turn moves on or not,
and a record without a key is added where the answer says one was, and nowhere
else. -/
structure Goes (s : State) (c : Catalog) (act : Act) (answer : Answer) (s' : State) (c' : Catalog) :
    Prop where
  rep : s'.topic.Rep (.of s'.root) c'
  owns : s'.topic.owns = s.topic.owns
  counts : ∀ {name n}, c.counts name = some n → c'.counts name = some n
  turn : c'.turn = if act.turns then c.turn + 1 else c.turn
  stored : ∀ {name}, act.stores s c.turn name = true →
    ∃ n, c'.counts name = some n ∧ spot name (act, answer) = some (c.turn % n)
  refused : ∀ {name}, ¬act.stores s c.turn name = true → spot name (act, answer) = none
  keyless : ∀ name p, keyless (c'.records name p)
    = keyless (c.records name p) + (spot name (act, answer)).toList.count p

variable {s : State} {c : Catalog}

/-- Creating a topic takes no turn and stores no record. -/
theorem create_goes (h : s.topic.Rep (.of s.root) c) (name : String) (partitions : Option ℕ) :
    ∃ c', Goes s c (.create name partitions) (machine.step s (.create name partitions)).1
      (machine.step s (.create name partitions)).2 c' := by
  have hf := Topic.create_follows h name partitions
  cases hc : c.create s.topic.holder name partitions with
  | mk answer c' =>
  rw [hc] at hf
  have hset := Catalog.Settles.create hc
  have hturn : c'.turn = c.turn := by
    rcases Catalog.create_cases hc with ⟨e, -, -, rfl⟩ | ⟨n, -, hopen, -⟩
    · rfl
    · rw [(Catalog.openAs_spec hopen).1]
      rfl
  exact ⟨c', ⟨hf.rep.of, congrArg Holder.owns hf.holder, hset.counts, hturn, nofun, fun _ => rfl,
    fun name p => congrArg keyless (hset.records name p)⟩⟩

/-- A record with a key takes no turn, and is not counted. -/
theorem keyed_goes (h : s.topic.Rep (.of s.root) c) (name : String) (key : Bytes)
    (value : Option Bytes) (timestamp : Option ℤ) (clock : ℤ) (elapsed : ℚ) :
    ∃ c', Goes s c (.append name (some key) value timestamp clock elapsed)
      (machine.step s (.append name (some key) value timestamp clock elapsed)).1
      (machine.step s (.append name (some key) value timestamp clock elapsed)).2 c' := by
  have hf := Topic.append_follows h name (some key) value timestamp none clock elapsed
  cases hc : c.append s.topic.holder name (some key) value timestamp none clock with
  | mk answer c' =>
  rw [hc] at hf
  have hturn : c'.turn = c.turn := by
    rcases Catalog.append_cases hc with ⟨e, -, -, rfl⟩ | ⟨n, c₁, -, hopen, happ⟩
    · rfl
    · have hkept : c₁.turn = c.turn := by rw [(Catalog.openAs_spec hopen).1, Catalog.turn_touch]
      rcases happ with ⟨e, -, -, rfl⟩ | ⟨p, r, -, -, -, -, ⟨e, -, -, rfl⟩ | ⟨-, -, rfl⟩⟩ <;>
        exact hkept
  have hkept : (∀ {name n}, c.counts name = some n → c'.counts name = some n)
      ∧ ∀ name p, keyless (c'.records name p) = keyless (c.records name p) := by
    rcases Catalog.append_outcome hc with ⟨e, -, hset⟩ | ⟨p, r, -, -, -, hkey, -, hadd⟩
    · exact ⟨hset.counts, fun name p => congrArg keyless (hset.records name p)⟩
    · refine ⟨hadd.counts, fun name' p' => ?_⟩
      rw [hadd.records]
      split_ifs with hsame
      · rw [hsame.1, hsame.2]
        unfold keyless
        rw [List.countP_append, List.countP_singleton, hkey]
        rfl
      · rfl
  exact ⟨c', ⟨hf.rep.of, congrArg Holder.owns hf.holder, hkept.1, hturn, nofun,
    fun _ => rfl, hkept.2⟩⟩

/-- **A record without a key takes its turn**, and is stored if it can be. -/
theorem keyless_goes (h : s.topic.Rep (.of s.root) c)
    (howns : ∀ name p, s.topic.owns name p = true) (name : String) (value : Option Bytes)
    (timestamp : Option ℤ) (clock : ℤ) (elapsed : ℚ) :
    ∃ c', Goes s c (.append name none value timestamp clock elapsed)
      (machine.step s (.append name none value timestamp clock elapsed)).1
      (machine.step s (.append name none value timestamp clock elapsed)).2 c' := by
  have hf := Topic.append_follows h name none value timestamp none clock elapsed
  cases hc : c.append s.topic.holder name none value timestamp none clock with
  | mk answer c' =>
  rw [hc] at hf
  have hanswer : (machine.step s (.append name none value timestamp clock elapsed)).1
      = .placed answer := congrArg Answer.placed hf.answer
  rw [hanswer]
  have hstores :
      ∀ {name'}, Act.stores s c.turn name' (.append name none value timestamp clock elapsed) = true
      ↔ name = name' ∧ validateName name = .ok () ∧ Record.Encodable
        ⟨(c.records name (c.turn % (c.counts name).getD s.topic.holder.defaultPartitions)).length,
          timestamp.getD clock, none, value⟩ := fun {name'} => by
    unfold Act.stores
    rw [Bool.and_eq_true, Bool.and_eq_true, decide_eq_true_iff, decide_eq_true_iff, isValidName_iff,
      ← h.countOn_eq]
    constructor
    · rintro ⟨⟨rfl, hname⟩, henc⟩
      exact ⟨rfl, hname, h.stores.records_eq name _ ▸ henc⟩
    · rintro ⟨rfl, hname, henc⟩
      exact ⟨⟨rfl, hname⟩, (h.stores.records_eq name _).symm ▸ henc⟩
  refine ⟨c', ?_⟩
  rcases Catalog.append_cases hc with ⟨e, hname, rfl, rfl⟩ | ⟨n, c₁, hname, hopen, happ⟩
  · -- the name is refused
    have hno : validateName name ≠ .ok () := fun hok => by rw [hok] at hname; cases hname
    have hturns : isValidName name = false := Bool.eq_false_iff.mpr fun hok =>
      hno (isValidName_iff.mp hok)
    exact ⟨hf.rep.of, congrArg Holder.owns hf.holder, id, by simp only [Act.turns, hturns]; rfl,
      fun hst => absurd (hstores.mp hst).2.1 hno, fun _ => rfl, fun _ _ => rfl⟩
  · obtain ⟨hc₁, -, -⟩ := Catalog.openAs_spec hopen
    have hn : (c.counts name).getD s.topic.holder.defaultPartitions = n := congrArg Prod.fst hopen
    have hset := Catalog.Settles.openAs hopen
    have hcount : c₁.counts name = some n := hc₁ ▸ Function.update_self ..
    have hturns : Act.turns (.append name none value timestamp clock elapsed) = true :=
      isValidName_iff.mpr hname
    have hturn : c₁.turn = c.turn := by rw [hc₁, Catalog.turn_touch]
    have hpos : 0 < n := by
      rcases hcn : c.counts name with _ | m
      · rw [hcn] at hn
        exact hn ▸ h.default_pos
      · rw [hcn] at hn
        exact hn ▸ (h.stores.names hcn).2
    rw [hn] at hstores
    simp only [hturn, Catalog.target, Catalog.partitionFor] at happ
    rcases happ with ⟨e, hcheck, -, -⟩ | ⟨p, r, htarget, hp, ho, rfl, hencode⟩
    · -- every partition is stored here
      rw [Catalog.checkPartition_eq_ok.mpr ⟨rfl, Nat.mod_lt _ hpos, howns name _⟩] at hcheck
      cases hcheck
    obtain rfl : c.turn % n = p := Int.ofNat.inj htarget
    rcases hencode with ⟨e, henc, rfl, rfl⟩ | ⟨henc, rfl, rfl⟩
    · refine ⟨hf.rep.of, congrArg Holder.owns hf.holder, hset.counts, (if_pos hturns).symm,
        fun hst => ?_, fun _ => rfl, fun name' p' => congrArg keyless (hset.records name' p')⟩
      rw [Record.encode_of_encodable (hstores.mp hst).2.2] at henc
      cases henc
    · have hspot : ∀ name', spot name' (.append name none value timestamp clock elapsed,
          .placed (.ok (((c.turn % n : ℕ) : ℤ), ((c.records name (c.turn % n)).length : ℤ))))
          = if name = name' then some (c.turn % n) else none := fun _ => rfl
      refine ⟨hf.rep.of, congrArg Holder.owns hf.holder, hset.counts, (if_pos hturns).symm,
        fun hst => ⟨n, ?_, ?_⟩, fun hst => ?_, fun name' p' => ?_⟩
      · obtain ⟨rfl, -, -⟩ := hstores.mp hst
        exact hcount
      · obtain ⟨rfl, -, -⟩ := hstores.mp hst
        rw [hspot, if_pos rfl]
      · rw [hspot, if_neg]
        rintro rfl
        exact hst (hstores.mpr ⟨rfl, hname, henc⟩)
      · rw [Catalog.records_push, hspot]
        have hrecs : ∀ name' q, Catalog.records { c₁ with turn := c.turn + 1 } name' q
            = c.records name' q :=
          hset.records
        rw [hrecs, hrecs]
        by_cases hsame : name = name'
        · subst hsame
          rw [if_pos rfl, Option.toList_some, List.count_singleton]
          by_cases hp' : p' = c.turn % n
          · rw [if_pos ⟨rfl, hp'⟩, hp', if_pos (beq_self_eq_true _)]
            exact List.countP_append
          · rw [if_neg fun h => hp' h.2, if_neg fun h => hp' (eq_of_beq h).symm]
            rfl
        · rw [if_neg fun h => hsame h.1.symm, if_neg hsame]
          rfl

/-- **What a step does**, in each of the three cases: a creation, a key, no
key. -/
theorem goes (h : s.topic.Rep (.of s.root) c) (howns : ∀ name p, s.topic.owns name p = true)
    (act : Act) : ∃ c', Goes s c act (machine.step s act).1 (machine.step s act).2 c' := by
  cases act with
  | create name partitions => exact create_goes h name partitions
  | append name key value timestamp clock elapsed =>
    cases key with
    | none => exact keyless_goes h howns name value timestamp clock elapsed
    | some key => exact keyed_goes h name key value timestamp clock elapsed

/-- **What a run does**: the records of a topic go where the turns that fall to
it lead. -/
theorem run_goes (h : s.topic.Rep (.of s.root) c) (howns : ∀ name p, s.topic.owns name p = true)
    (acts : List Act) :
    ∃ c', (machine.run s acts).2.topic.Rep (.of (machine.run s acts).2.root) c'
      ∧ (∀ {name n}, c.counts name = some n → c'.counts name = some n)
      ∧ (∀ {name n}, (∀ m, c'.counts name = some m → m = n) →
        placed name (acts.zip (machine.run s acts).1) = (turns name s c.turn acts).map (· % n))
      ∧ ∀ name p, keyless (c'.records name p)
        = keyless (c.records name p) + (placed name (acts.zip (machine.run s acts).1)).count p := by
  induction acts generalizing s c with
  | nil => exact ⟨c, h, id, fun _ => rfl, fun _ _ => rfl⟩
  | cons act acts ih =>
    obtain ⟨c₁, hgo⟩ := goes h howns act
    obtain ⟨c', hrep, hcounts, hplaced, hkeyless⟩ := ih hgo.rep (hgo.owns ▸ howns)
    have hcons : ∀ name, placed name ((act :: acts).zip (machine.run s (act :: acts)).1)
        = (spot name (act, (machine.step s act).1)).toList
          ++ placed name (acts.zip (machine.run (machine.step s act).2 acts).1) := fun name => by
      show List.filterMap (spot name) ((act, (machine.step s act).1) :: _) = _
      rw [List.filterMap_cons]
      cases spot name (act, (machine.step s act).1) <;> rfl
    refine ⟨c', hrep, fun hn => hcounts (hgo.counts hn), fun {name n} hn => ?_, fun name p => ?_⟩
    · rw [hcons, hplaced hn, hgo.turn]
      conv_rhs => unfold turns
      by_cases hst : act.stores s c.turn name = true
      · obtain ⟨m, hm, hspot⟩ := hgo.stored hst
        rw [hspot, if_pos hst, hn m (hcounts hm)]
        rfl
      · rw [hgo.refused hst, if_neg hst]
        rfl
    · rw [hcons, hkeyless, hgo.keyless, List.count_append, Nat.add_assoc]

/-- **Where the records without a key go.** A registry stores every partition.
Whatever unrouted records come to it, for whatever topics: of a topic's records
without a key, each partition has one more for each that was answered to have
been placed there; and at every moment no partition has two more than another
exactly where the turns that fall to the topic are fair. That is, where the
numbers of records without a key that came to the whole registry before each
of its own are, in every round of as many as it has partitions, different
modulo that number. -/
theorem spread_iff (h : s.topic.Rep (.of s.root) c) (howns : ∀ name p, s.topic.owns name p = true)
    (acts : List Act) (name : String) :
    let out := machine.run s acts
    let n := out.2.topic.countOn out.2.root name
    (∀ p, keyless (out.2.root.records name p)
        = keyless (s.root.records name p) + (placed name (acts.zip out.1)).count p)
      ∧ ((∀ k, Rounds.Level n (placed name ((acts.zip out.1).take k)))
        ↔ Rounds.Fair n ((turns name s s.topic.partitioner.next acts).map (· % n))) := by
  obtain ⟨c', hrep, -, hplaced, hkeyless⟩ := run_goes h howns acts
  intro out n
  have hn : n = (c'.counts name).getD out.2.topic.holder.defaultPartitions := hrep.countOn_eq name
  have hpos : 0 < n := by
    rw [hn]
    cases hcn : c'.counts name with
    | none => exact hrep.default_pos
    | some m => exact (hrep.stores.names hcn).2
  have hall : placed name (acts.zip out.1)
      = (turns name s s.topic.partitioner.next acts).map (· % n) := by
    rw [show s.topic.partitioner.next = c.turn from h.turn]
    refine hplaced fun m hm => ?_
    rw [hn, hm]
    rfl
  refine ⟨fun p => ?_, ?_⟩
  · have hafter : out.2.root.records name p = c'.records name p := hrep.stores.records_eq name p
    have hbefore : s.root.records name p = c.records name p := h.stores.records_eq name p
    rw [hafter, hbefore]
    exact hkeyless name p
  · rw [← hall, ← Rounds.level_iff]
    · exact Rounds.forall_take_filterMap
    · rw [hall]
      simp only [List.mem_map, forall_exists_index, and_imp, forall_apply_eq_imp_iff₂]
      exact fun turn _ => Nat.mod_lt turn hpos

/-! ## Two topics

The smallest run that is not even: between two records of one topic comes a
record of another, and the two land in the same partition. -/

/-- A registry just made, with nothing on disk. -/
def State.fresh : State := ⟨.fresh, .empty⟩

/-- A record without a key, for a topic. -/
def Act.of (name : String) : Act := .append name none none none 0 0

/-- Records for two topics, in turn. -/
def twoTopics : List Act := [.of "a", .of "b", .of "a"]

omit [Crc32] in
/-- **Records for two topics are not spread**: both records of the first topic
go to partition `0`, and none to partition `1`. -/
theorem uneven : let _ := Crc32.zlib
    let out := machine.run .fresh twoTopics
    placed "a" (twoTopics.zip out.1) = [0, 0]
      ∧ out.2.topic.countOn out.2.root "a" = 2
      ∧ ¬Rounds.Level 2 (placed "a" (twoTopics.zip out.1)) := by
  decide +kernel

/-- Records for one topic without a key, and one with a key for another, which
takes no turn. -/
def oneTopic : List Act := [.of "a", .append "b" (some [1]) none none 0 0, .of "a", .of "a"]

omit [Crc32] in
theorem spread_iff_one : let _ := Crc32.zlib
    let out := machine.run .fresh oneTopic
    ∀ k, Rounds.Level 2 (placed "a" ((oneTopic.zip out.1).take k)) := by
  intro _ out
  obtain ⟨-, hiff⟩ := spread_iff (s := .fresh) Topic.rep_fresh (fun _ _ => rfl) oneTopic "a"
  have hn : out.2.topic.countOn out.2.root "a" = 2 := by decide +kernel
  have hturns : turns "a" .fresh 0 oneTopic = [0, 1, 2] := by decide +kernel
  rw [hn] at hiff
  refine hiff.mpr ?_
  rw [show State.fresh.topic.partitioner.next = 0 from rfl, hturns]
  have hlast : Rounds.Fair 2 [0] := (Rounds.fair_of_length_le (by decide)).mpr (by decide)
  have hfirst : [0, 1].length = 2 := rfl
  exact (Rounds.fair_append hfirst).mpr ⟨by decide, hlast⟩

end Spread

end Pyka
