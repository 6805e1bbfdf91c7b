import Pyka.Topic.TopicSpec

/-!
# The lives of a registry

One data root and the registries that live on it one after the other, each
started with its own defaults and its own share of the partitions, used in any
way, and closed. From when a topic is first there it has one number of
partitions, on disk, in the cache and in every answer, and a key one partition
in which its records stand in the order they were accepted
(`Lives.count_and_routing_fixed`).

## Why this is a matter of lives

Within one process the count of a topic could be a field that nobody writes.
What makes it a promise is that the next process, started with another
default, finds the file and keeps to it, and that a process which stores none
of the partitions a key goes to gives the same answer for the key. So the
machine here has starting and closing as acts among the others, in any order:
a start while a registry is alive, or a request while none is, comes to
nothing and answers `idle`.

## What is said of an answer

`Tells` and `Knows` are conditions on one act and its answer, given a topic's
number of partitions: the first, that the answer names no other number and no
other partition for a key, the second, that there is an answer at all. The
records of a key that were accepted are read off the acts and answers alone
(`accepted`), without looking at what is stored; that they are in the
partition's list, and in this order, is then a statement about the store.
`Moves` puts these together for one step, there is one lemma for each kind of
request, and the run lemma follows by induction on the acts.
-/

namespace Pyka

open Struct (Bytes)

/-- What a registry is started with: where its root is, what a topic gets that
nobody says a number for, when to sync, how large a segment gets, and its
share of the partitions. None of it need be as in the life before. -/
structure Life where
  path : String
  partitions : ℕ
  syncPolicy : SyncPolicy
  maxSegmentBytes : SegmentLimit
  owns : String → ℕ → Bool
  partitions_pos : 0 < partitions

namespace Lives

/-- **What can be asked of a registry**, with the clocks that it reads as
arguments. -/
inductive Request
  | create (name : String) (partitions : Option ℕ)
  | append (name : String) (key value : Option Bytes) (timestamp : Option ℤ)
      (partition : Option ℤ) (clock : ℤ) (elapsed : ℚ)
  | route (name : String) (key : Option Bytes)
  | partitionsOf (name : String)

/-- What happens to a data root: a registry is made on it, asked, or closed. -/
inductive Act
  | start (life : Life)
  | ask (request : Request)
  | close

/-- The answers, by kind; an exception is one of them. -/
inductive Answer
  /-- There is nothing to ask, or something to ask already. -/
  | idle
  | count (answer : Except PyError ℕ)
  | placed (answer : Except PyError (ℤ × ℤ))
  | routed (answer : Except PyError ℕ)
  | done (answer : Except PyError Unit)

/-- A data root, and the registry alive on it, if there is one. The root
outlives the registry. -/
structure State where
  topic : Option Topic
  root : Root

/-- Nothing yet: no registry, and no topic. -/
def State.empty : State := ⟨none, .empty⟩

section Codec

variable [Crc32]

/-- Ask a registry: each request is the method of its name. -/
def Request.exec (t : Topic) (v : Volume) : Request → Answer × Topic × Volume
  | create name partitions =>
    let (res, t, v) := t.create v name partitions
    (.count res, t, v)
  | append name key value timestamp partition clock elapsed =>
    let (res, t, v) := t.append v name key value timestamp partition clock elapsed
    (.placed res, t, v)
  | route name key =>
    let (res, t, v) := t.route v name key
    (.routed res, t, v)
  | partitionsOf name =>
    let (res, t, v) := t.partitionsOf v name
    (.count res, t, v)

/-- **A data root over lives.** A start finds the root as the registry before
left it; one that is refused leaves none alive. -/
def machine : Machine State Act Answer where
  step s
    | .start life =>
      match s.topic with
      | some _ => (.idle, s)
      | none =>
        match Topic.init life.path life.partitions life.syncPolicy life.maxSegmentBytes
          life.owns with
        | .error e => (.done (.error e), s)
        | .ok t => (.done (.ok ()), { s with topic := some t })
    | .ask request =>
      match s.topic with
      | none => (.idle, s)
      | some t =>
        let (answer, t, v) := request.exec t (.of s.root)
        (answer, ⟨some t, v.root⟩)
    | .close =>
      match s.topic with
      | none => (.idle, s)
      | some t =>
        let (res, _, v) := t.close (.of s.root)
        (.done res, ⟨none, v.root⟩)

end Codec

/-! ## What the answers say

All of this is about what is seen from outside: an act, and the answer to it. -/

/-- **An answer says nothing else than that a topic has `n` partitions.** -/
def Tells [Crc32] (name : String) (n : ℕ) : Act × Answer → Prop
  | (.ask (.create name' _), .count (.ok m)) => name' = name → m = n
  | (.ask (.partitionsOf name'), .count (.ok m)) => name' = name → m = n
  | (.ask (.route name' (some key)), .routed (.ok p)) => name' = name → p = keyPartition key n
  | (.ask (.append name' (some key) _ _ none _ _), .placed (.ok (p, _))) =>
    name' = name → p = keyPartition key n
  | (.ask (.append name' (some key) _ _ none _ _), .placed (.error (.partitionNotLocal msg))) =>
    name' = name →
      msg = s!"partition {(keyPartition key n : ℤ)} of {pyRepr name} is not stored here"
  | _ => True

/-- **An answer knows the topic**: asked for its number of partitions or for
a route, a registry that is alive gives one. -/
def Knows (name : String) : Act × Answer → Prop
  | (.ask (.create name' _), answer) => name' = name → answer ≠ .idle → ∃ n, answer = .count (.ok n)
  | (.ask (.partitionsOf name'), answer) =>
    name' = name → answer ≠ .idle → ∃ n, answer = .count (.ok n)
  | (.ask (.route name' _), answer) => name' = name → answer ≠ .idle → ∃ p, answer = .routed (.ok p)
  | _ => True

/-- The records of a key that were accepted without having been given a
partition. -/
def accepted (name : String) (key : Bytes) : Act × Answer → List Record
  | (.ask (.append name' (some key') value timestamp none clock _), .placed (.ok (_, offset))) =>
    if name' = name ∧ key' = key then [⟨offset, timestamp.getD clock, some key', value⟩] else []
  | _ => []

variable [Crc32]

/-- **What one step does**, seen from one topic: its number of partitions
stays, the answer says no other, and a record is added to a partition where
the answer says one was. -/
structure Moves (c c' : Catalog) (e : Act × Answer) : Prop where
  counts : ∀ {name n}, c.counts name = some n → c'.counts name = some n
  tells : ∀ {name n}, (∀ m, c'.counts name = some m → m = n) → Tells name n e
  knows : ∀ {name n}, c.counts name = some n → Knows name e
  accepted : ∀ {name n} (key : Bytes), (∀ m, c'.counts name = some m → m = n) → ∃ more,
    c'.records name (keyPartition key n) = c.records name (keyPartition key n) ++ more
      ∧ (accepted name key e).Sublist more

omit [Crc32] in
/-- The topic opened has the number of partitions it was opened with. -/
theorem eq_of_touch {c : Catalog} {h : Holder} {name name' : String} {n m : ℕ}
    (hm : ∀ k, (c.touch h name n).counts name' = some k → k = m) (hnn : name = name') : n = m :=
  hm n (by rw [Catalog.counts_touch, hnn, Function.update_self])

/-- Creating a topic: the number is the one it had, or the one it gets now. -/
theorem create_moves {c c' : Catalog} {h : Holder} {name : String} {partitions : Option ℕ}
    {answer : Except PyError ℕ} (hc : c.create h name partitions = (answer, c'))
    (hvalid : ∀ {name n}, c.counts name = some n → validateName name = .ok ()) :
    Moves c c' (.ask (.create name partitions), .count answer) := by
  rcases Catalog.create_cases hc with ⟨e, hname, rfl, rfl⟩ | ⟨n, hname, hopen, rfl⟩
  · refine ⟨id, fun _ => trivial, fun hn hnn => ?_, fun key _ => ⟨[], by simp, List.Sublist.slnil⟩⟩
    subst hnn
    rw [hvalid hn] at hname
    cases hname
  · obtain ⟨rfl, hsame, -⟩ := Catalog.openAs_spec hopen
    exact ⟨(Catalog.Settles.touch hsame).counts, eq_of_touch, fun _ _ _ => ⟨n, rfl⟩,
      fun key _ => ⟨[], by simp, List.Sublist.slnil⟩⟩

/-- Asking for the number of partitions: it is the topic's. -/
theorem partitionsOf_moves {c c' : Catalog} {h : Holder} {name : String}
    {answer : Except PyError ℕ} (hc : c.existing h name = (answer, c'))
    (hvalid : ∀ {name n}, c.counts name = some n → validateName name = .ok ()) :
    Moves c c' (.ask (.partitionsOf name), .count answer) := by
  rcases Catalog.existing_cases hc with ⟨e, rfl, rfl, he⟩ | ⟨n, hname, hn, rfl, rfl⟩
  · refine ⟨id, fun _ => trivial, fun hn hnn => ?_, fun key _ => ⟨[], by simp, List.Sublist.slnil⟩⟩
    subst hnn
    rcases he with hname | ⟨-, hnone, -⟩
    · rw [hvalid hn] at hname
      cases hname
    · rw [hn] at hnone
      cases hnone
  · exact ⟨(Catalog.Settles.touch fun m hm => Option.some.inj (hm.symm.trans hn)).counts,
      eq_of_touch,
      fun _ _ _ => ⟨n, rfl⟩, fun key _ => ⟨[], by simp, List.Sublist.slnil⟩⟩

/-- Asking for a route: a key goes where its checksum says, modulo the topic's
number. -/
theorem route_moves {c c' : Catalog} {h : Holder} {name : String} {key : Option Bytes}
    {answer : Except PyError ℕ} (hc : c.route h name key = (answer, c'))
    (hvalid : ∀ {name n}, c.counts name = some n → validateName name = .ok ()) :
    Moves c c' (.ask (.route name key), .routed answer) := by
  rcases Catalog.route_cases hc with ⟨e, rfl, he⟩ | ⟨n, hexists, rfl, rfl⟩
  · obtain ⟨hcounts, -, hknows, haccepted⟩ := partitionsOf_moves he hvalid
    refine ⟨hcounts, fun _ => ?_, fun hn hnn hidle => ?_, haccepted⟩
    · cases key <;> trivial
    · obtain ⟨n, hn⟩ := hknows hn hnn Answer.noConfusion
      cases hn
  · obtain ⟨hcounts, -, -, -⟩ := partitionsOf_moves hexists hvalid
    refine ⟨hcounts, fun hm => ?_, fun _ _ _ => ⟨_, rfl⟩, fun k _ => ⟨[], ?_, List.Sublist.slnil⟩⟩
    · cases key with
      | none => trivial
      | some key =>
        intro hnn
        rw [← eq_of_touch (h := h) hm hnn]
        rfl
    · rw [List.append_nil]
      exact Catalog.records_touch

/-- An append: where the answer is a place, a record was added there, and it
is the one that `accepted` reads off the act and the answer. -/
theorem append_moves {c c' : Catalog} {h : Holder} {name : String} {key value : Option Bytes}
    {timestamp partition : Option ℤ} {clock : ℤ} {elapsed : ℚ}
    {answer : Except PyError (ℤ × ℤ)}
    (hc : c.append h name key value timestamp partition clock = (answer, c')) :
    Moves c c' (.ask (.append name key value timestamp partition clock elapsed),
      .placed answer) := by
  have hnone : ∀ {e : PyError} (name' : String) (key' : Bytes), accepted name' key'
      (.ask (.append name key value timestamp partition clock elapsed), .placed (.error e))
        = [] := by
    intro e name' key'
    cases key <;> cases partition <;> rfl
  rcases Catalog.append_cases hc with ⟨e, hname, rfl, rfl⟩ | ⟨n, c₁, hname, hopen, happ⟩
  · refine ⟨id, fun _ => ?_, fun _ => trivial, fun key' _ => ⟨[], by simp, by rw [hnone]⟩⟩
    have hval := validateName_error hname
    -- a bad name is a `ValueError`
    cases key <;> cases partition <;> cases e <;> trivial
  · obtain ⟨rfl, hsame, -⟩ := Catalog.openAs_spec hopen
    have hcounts : ∀ {name' m}, c.counts name' = some m →
        (c.touch h name n).counts name' = some m := (Catalog.Settles.touch hsame).counts
    rcases happ with ⟨e, hcheck, rfl, rfl⟩ | ⟨p, r, htarget, hp, ho, hr, hrest⟩
    · refine ⟨hcounts, fun hm => ?_, fun _ => trivial, fun key' _ => ⟨[], ?_, by rw [hnone]⟩⟩
      · cases key with
        | none => cases e <;> trivial
        | some key =>
          cases partition with
          | some p => cases e <;> trivial
          | none =>
            cases e with
            | partitionNotLocal msg =>
              intro hnn
              rw [← eq_of_touch (h := h) hm hnn, ← hnn]
              unfold Catalog.checkPartition at hcheck
              simp only [bind_eq_error, raiseIf_eq_error] at hcheck
              rcases hcheck with ⟨-, hcheck⟩ | ⟨-, -, hcheck⟩
              · cases hcheck
              · split_ifs at hcheck
                · cases hcheck
                · cases hcheck
                  rfl
            | _ => trivial
      · rw [List.append_nil]
        exact Catalog.records_touch
    · have htells : ∀ (offset : ℤ) {name' m},
          (∀ k, (c.touch h name n).counts name' = some k → k = m) →
          Tells name' m (.ask (.append name key value timestamp partition clock elapsed),
            .placed (.ok (p, offset))) := by
        intro offset name' m hm
        cases key with
        | none => trivial
        | some key =>
          cases partition with
          | some q => trivial
          | none =>
            intro hnn
            rw [← eq_of_touch hm hnn]
            exact htarget.symm
      rcases hrest with ⟨e, hencode, rfl, rfl⟩ | ⟨-, rfl, rfl⟩
      · refine ⟨hcounts, fun hm => ?_, fun _ => trivial, fun key' _ => ⟨[], ?_, by rw [hnone]⟩⟩
        · rcases Record.encode_error hencode with rfl | ⟨msg, rfl⟩ <;>
            cases key <;> cases partition <;> trivial
        · rw [List.append_nil]
          exact Catalog.records_touch
      · refine ⟨hcounts, fun hm => htells _ hm, fun _ => trivial, fun {name' m} key' hm => ?_⟩
        rw [Catalog.records_push]
        have hrecs : ∀ name' q, Catalog.records { c.touch h name n with
              turn := (Catalog.target (c.touch h name n).turn key partition n).2 } name' q
            = c.records name' q := fun name' q => Catalog.records_touch
        split_ifs with hc
        · refine ⟨[r], by rw [hrecs, hc.1, hc.2], ?_⟩
          cases key with
          | none => exact List.nil_sublist _
          | some key =>
            cases partition with
            | some q => exact List.nil_sublist _
            | none =>
              simp only [accepted]
              split_ifs
              · rw [hr]
              · exact List.nil_sublist _
        · -- a record of the key would be in the key's partition
          refine ⟨[], by rw [hrecs, List.append_nil], ?_⟩
          cases key with
          | none => exact List.Sublist.slnil
          | some key =>
            cases partition with
            | some q => exact List.Sublist.slnil
            | none =>
              simp only [accepted]
              split_ifs with hk
              · obtain ⟨rfl, rfl⟩ := hk
                have hp' : (p : ℤ) = keyPartition key m := htells 0 hm rfl
                exact absurd ⟨rfl, by exact_mod_cast hp'.symm⟩ hc
              · exact List.Sublist.slnil

/-- **A state that stands for a catalog**: the root stores it, and a registry
that is alive stands for it as well. -/
def Good (s : State) (c : Catalog) : Prop :=
  match s.topic with
  | none => s.root.Stores c
  | some t => t.Rep (.of s.root) c

/-- Whether a registry is alive or not, the root stores the catalog. -/
theorem Good.stores {s : State} {c : Catalog} (h : Good s c) : s.root.Stores c := by
  unfold Good at h
  cases ht : s.topic with
  | none => rwa [ht] at h
  | some t =>
    rw [ht] at h
    exact h.stores

/-- A step that does nothing, or only moves the turn. -/
theorem moves_refl (c : Catalog) (turn : ℕ) {e : Act × Answer}
    (htells : ∀ {name n}, Tells name n e) (hknows : ∀ {name}, Knows name e)
    (hacc : ∀ {name key}, accepted name key e = []) : Moves c { c with turn } e :=
  ⟨id, fun _ => htells, fun _ => hknows, fun key _ => ⟨[], (List.append_nil _).symm, by rw [hacc]⟩⟩

/-- **One step**, whatever the act, and whether a registry is alive or not. -/
theorem step_moves {s : State} {c : Catalog} (h : Good s c) (act : Act) :
    ∃ c', Good (machine.step s act).2 c' ∧ Moves c c' (act, (machine.step s act).1) := by
  obtain ⟨topic, root⟩ := s
  have hstores := h.stores
  have hvalid : ∀ {name n}, c.counts name = some n → validateName name = .ok () := fun hn =>
    (hstores.names hn).1
  cases act with
  | start life =>
    cases topic with
    | some t => exact ⟨c, h, moves_refl c c.turn trivial trivial rfl⟩
    | none =>
      obtain ⟨t, hinit, hrep, -⟩ := Topic.rep_init life.path life.syncPolicy life.owns
        (v := .of root) life.partitions_pos life.maxSegmentBytes.2 hstores
      simp only [machine, hinit]
      exact ⟨_, hrep, moves_refl c 0 trivial trivial rfl⟩
  | close =>
    cases topic with
    | none => exact ⟨c, h, moves_refl c c.turn trivial trivial rfl⟩
    | some t =>
      obtain ⟨hf, -⟩ := Topic.close_follows h
      exact ⟨c, hf.rep.stores, moves_refl c c.turn trivial trivial rfl⟩
  | ask request =>
    cases topic with
    | none =>
      refine ⟨c, h, moves_refl c c.turn ?_ ?_ ?_⟩
      · intro name n
        rcases request with _ | ⟨_, _ | _, _, _, _ | _, _, _⟩ | ⟨_, _ | _⟩ | _ <;> trivial
      · intro name
        cases request with
        | append => trivial
        | _ => exact fun _ hidle => absurd rfl hidle
      · intro name key
        rcases request with _ | ⟨_, _ | _, _, _, _ | _, _, _⟩ | ⟨_, _ | _⟩ | _ <;> rfl
    | some t =>
      cases request with
      | create name partitions =>
        have hf := Topic.create_follows h name partitions
        refine ⟨_, hf.rep.of, ?_⟩
        show Moves c _ (_, .count (t.create (.of root) name partitions).1)
        rw [hf.answer]
        exact create_moves rfl hvalid
      | append name key value timestamp partition clock elapsed =>
        have hf := Topic.append_follows h name key value timestamp partition clock elapsed
        refine ⟨_, hf.rep.of, ?_⟩
        show Moves c _ (_,
          .placed (t.append (.of root) name key value timestamp partition clock elapsed).1)
        rw [hf.answer]
        exact append_moves rfl
      | route name key =>
        have hf := Topic.route_follows h name key
        refine ⟨_, hf.rep.of, ?_⟩
        show Moves c _ (_, .routed (t.route (.of root) name key).1)
        rw [hf.answer]
        exact route_moves rfl hvalid
      | partitionsOf name =>
        have hf := Topic.partitionsOf_follows h name
        refine ⟨_, hf.rep.of, ?_⟩
        show Moves c _ (_, .count (t.partitionsOf (.of root) name).1)
        rw [hf.answer]
        exact partitionsOf_moves rfl hvalid

/-- The acts of a run, each with its answer. -/
def history (s : State) (acts : List Act) : List (Act × Answer) :=
  acts.zip (machine.run s acts).1

/-- **A whole run** does what its steps do: counts stay, the answers agree
with them, and the records accepted of a key are added in order. By induction
on the acts. -/
theorem run_moves {s : State} {c : Catalog} (h : Good s c) (acts : List Act) :
    ∃ c', Good (machine.run s acts).2 c'
      ∧ (∀ {name n}, c.counts name = some n → c'.counts name = some n)
      ∧ (∀ {name n}, (∀ m, c'.counts name = some m → m = n) → ∀ e ∈ history s acts, Tells name n e)
      ∧ (∀ {name n}, c.counts name = some n → ∀ e ∈ history s acts, Knows name e)
      ∧ ∀ {name n} (key : Bytes), (∀ m, c'.counts name = some m → m = n) → ∃ more,
          c'.records name (keyPartition key n) = c.records name (keyPartition key n) ++ more
            ∧ ((history s acts).flatMap (accepted name key)).Sublist more := by
  induction acts generalizing s c with
  | nil =>
    exact ⟨c, h, id, by simp [history], by simp [history],
      fun key _ => ⟨[], (List.append_nil _).symm, List.Sublist.slnil⟩⟩
  | cons act acts ih =>
    obtain ⟨c₁, h₁, hmoves⟩ := step_moves h act
    obtain ⟨c₂, h₂, hcounts, htells, hknows, hacc⟩ := ih h₁
    have hhist : history s (act :: acts)
        = (act, (machine.step s act).1) :: history (machine.step s act).2 acts := rfl
    refine ⟨c₂, h₂, fun hn => hcounts (hmoves.counts hn), fun hm e he => ?_, fun hn e he => ?_,
      fun key hm => ?_⟩
    · rw [hhist] at he
      rcases List.mem_cons.mp he with rfl | he
      · exact hmoves.tells fun m hm' => hm m (hcounts hm')
      · exact htells hm e he
    · rw [hhist] at he
      rcases List.mem_cons.mp he with rfl | he
      · exact hmoves.knows hn
      · exact hknows (hmoves.counts hn) e he
    · obtain ⟨more₁, hrecs₁, hsub₁⟩ := hmoves.accepted key fun m hm' => hm m (hcounts hm')
      obtain ⟨more₂, hrecs₂, hsub₂⟩ := hacc key hm
      refine ⟨more₁ ++ more₂, by rw [hrecs₂, hrecs₁, List.append_assoc], ?_⟩
      rw [hhist, List.flatMap_cons]
      exact hsub₁.append hsub₂

/-- **A topic's number of partitions and the routing of its keys never
change.** Over any lives on a data root that was empty at first: from when a
topic is there it has one number of partitions, `topic.json` and the cache
hold it and every answer gives it; a key has one partition in every answer,
and the records of the key that were accepted stand in it in the order they
were accepted. -/
theorem count_and_routing_fixed (before after : List Act) {name : String}
    (hexists : ((machine.run State.empty before).2.root.metaFile name).isSome) :
    ∃ n, 1 ≤ n
      ∧ (machine.run State.empty before).2.root.metaFile name = some (TopicJson.dumps n)
      ∧ (machine.run State.empty (before ++ after)).2.root.metaFile name = some (TopicJson.dumps n)
      ∧ (∀ t topic, (machine.run State.empty (before ++ after)).2.topic = some t →
          t.opened.lookup name = some topic → topic.partitions = n)
      ∧ (∀ e ∈ history State.empty (before ++ after), Tells name n e)
      ∧ (∀ e ∈ history (machine.run State.empty before).2 after, Knows name e)
      ∧ ∀ key, ((history State.empty (before ++ after)).flatMap (accepted name key)).Sublist
          ((machine.run State.empty (before ++ after)).2.root.records name
            (keyPartition key n)) := by
  have hempty : Good State.empty .empty := stores_empty
  obtain ⟨c₁, h₁, -⟩ := run_moves hempty before
  obtain ⟨n, hn⟩ : ∃ n, c₁.counts name = some n := by
    rw [h₁.stores.metaFile, Option.isSome_map] at hexists
    exact Option.isSome_iff_exists.mp hexists
  obtain ⟨c₂, h₂, hcounts, -, hknows, -⟩ := run_moves h₁ after
  have hrun : (machine.run State.empty (before ++ after)).2
      = (machine.run (machine.run State.empty before).2 after).2 := by
    rw [Machine.run_append]
  rw [← hrun] at h₂
  have hmeta : (machine.run State.empty (before ++ after)).2.root.metaFile name
      = some (TopicJson.dumps n) := by
    rw [h₂.stores.metaFile, hcounts hn]
    rfl
  obtain ⟨c, h, -, htells, -, hacc⟩ := run_moves hempty (before ++ after)
  have hsame : ∀ m, c.counts name = some m → m = n := fun m hm => by
    rw [h.stores.metaFile, hm] at hmeta
    exact TopicJson.dumps_injective (Option.some.inj hmeta)
  refine ⟨n, (h₁.stores.names hn).2, by rw [h₁.stores.metaFile, hn]; rfl, hmeta,
    fun t topic ht hlook => ?_, htells hsame, hknows hn, fun key => ?_⟩
  · unfold Good at h₂
    rw [ht] at h₂
    exact Option.some.inj ((h₂.opened hlook).count.symm.trans (hcounts hn))
  · obtain ⟨more, hrecs, hsub⟩ := hacc key hsame
    rw [h.stores.records_eq, hrecs]
    exact hsub

omit [Crc32] in
theorem count_and_routing_fixed_create_twice : let _ := Crc32.zlib
    let life : Life := ⟨"data", 2, .never, ⟨2 ^ 30, by decide⟩, fun _ _ => false, by decide⟩
    let before : List Act := [.start life, .ask (.create "orders" none)]
    let after : List Act := [.ask (.create "orders" (some 7)), .close]
    ((machine.run State.empty before).2.root.metaFile "orders").isSome
      ∧ ∃ n, 1 ≤ n ∧ (machine.run State.empty (before ++ after)).2.root.metaFile "orders"
        = some (TopicJson.dumps n) := by
  intro _ life before after
  have hexists : ((machine.run State.empty before).2.root.metaFile "orders").isSome := by
    decide +kernel
  obtain ⟨n, hn, -, hmeta, -⟩ := count_and_routing_fixed before after hexists
  exact ⟨hexists, n, hn, hmeta⟩

end Lives

end Pyka
