import Pyka.Cluster.Cluster

/-!
# Resizing a cluster

The number of brokers, or the way they share out the partitions, changes
offline: every broker is stopped, the directory of each partition is moved to
the disk of its new owner, and the brokers are started with the new ring.
Nothing of it is done by the code, which only refuses to serve what has not
been moved. Where all of it has been moved (`Cluster.Moved`), the new brokers
are a cluster in order, each partition goes on where it was, and no record is
lost (`Cluster.resized`).

## What has to be moved

Each partition's directory, to its new owner and to nobody else, and the
`topic.json` of each topic, to every broker that has a partition of it. The
operator's manual speaks of the first only. But a directory alone does not
make a topic: a registry lists what has a `topic.json`, and a broker that is
new has none. One that finds a partition's directory without it does not look
into it, and the first record for the topic would create it anew, with another
number of partitions perhaps.

## What is kept

Records, and their order in each partition. The number of partitions of a
topic is kept as well, since it is read from the file, so every key goes to
the partition it went to, on whichever broker that is now. That the brokers
begin with the first turn again is so after every start.

The run before the move and the one after it are runs of two clusters, of
which the second starts from disks and not from nothing; what is proved of a
cluster in order is proved from any such start.
-/

namespace Pyka

namespace Cluster

/-- **The partitions have been moved.** -/
structure Moved (old new : Cluster) (roots : Fin old.brokers → Root)
    (roots' : Fin new.brokers → Root) : Prop where
  /-- Each partition is with its new owner only, as its old one had it. -/
  part : ∀ i j name (p : ℕ), (old.ring i).owns name p = .ok true →
    (roots' j).part name p
      = if (new.ring j).ownsPartition name p then (roots i).part name p else none
  /-- The new owner knows the topic. -/
  known : ∀ j name p, (roots' j).part name p ≠ none →
    ∃ n, (roots' j).metaFile name = some (TopicJson.dumps n) ∧ p < n
  /-- What a broker knows of a topic, it has from one that was there. -/
  topics : ∀ j name text, (roots' j).metaFile name = some text →
    ∃ i, (roots i).metaFile name = some text

variable [Crc32] {old new : Cluster} {roots : Fin old.brokers → Root}
  {roots' : Fin new.brokers → Root} {cs : Fin old.brokers → Catalog}

/-- **Each new broker stores a catalog** of what it owns. -/
theorem Moved.stores (hm : Moved old new roots roots') (hs : ∀ i, (roots i).Stores (cs i))
    (j : Fin new.brokers) :
    ∃ c : Catalog, (roots' j).Stores c
      ∧ ∀ name p, (c.logs name p).isSome → (new.ring j).ownsPartition name p = true := by
  have hone : ∀ name (p : ℕ), ∃ i, (old.ring i).owns name p = .ok true := fun name p =>
    (old.exists_owner name (Int.natCast_nonneg p)).exists
  choose owner howner using hone
  have hpart : ∀ name p, (roots' j).part name p
      = if (new.ring j).ownsPartition name p then (roots (owner name p)).part name p else none :=
    fun name p => hm.part _ j name p (howner name p)
  have hlogs : ∀ name p, Option.Rel (fun d rs => Keeps d.logs.view rs 0) ((roots' j).part name p)
      (if (new.ring j).ownsPartition name p then (cs (owner name p)).logs name p else none) := by
    intro name p
    rw [hpart]
    split_ifs with ho
    · exact (hs _).part name p
    · exact .none
  refine ⟨⟨fun name => ((roots' j).metaFile name).bind TopicJson.loads,
    fun name p =>
      if (new.ring j).ownsPartition name p then (cs (owner name p)).logs name p else none,
    0⟩, ⟨fun name => ?_, hlogs, fun {name n} hn => ?_, fun {name p rs} hl => ?_⟩,
      fun name p hl => ?_⟩
  · cases htext : (roots' j).metaFile name with
    | none =>
      show none = (((roots' j).metaFile name).bind TopicJson.loads).map TopicJson.dumps
      rw [htext]
      rfl
    | some text =>
      obtain ⟨i, hi⟩ := hm.topics j name text htext
      rw [(hs i).metaFile, Option.map_eq_some_iff] at hi
      obtain ⟨n, -, rfl⟩ := hi
      show _ = (((roots' j).metaFile name).bind TopicJson.loads).map TopicJson.dumps
      rw [htext, Option.bind_some, TopicJson.loads_dumps]
      rfl
  · obtain ⟨text, htext, hloads⟩ := Option.bind_eq_some_iff.mp hn
    obtain ⟨i, hi⟩ := hm.topics j name text htext
    rw [(hs i).metaFile, Option.map_eq_some_iff] at hi
    obtain ⟨m, hm, rfl⟩ := hi
    rw [TopicJson.loads_dumps] at hloads
    cases hloads
    exact (hs i).names hm
  · have hsome : (roots' j).part name p ≠ none := by
      have hrel := hlogs name p
      have hl : (if (new.ring j).ownsPartition name p then (cs (owner name p)).logs name p
          else none)
          = some rs := hl
      rw [hl] at hrel
      intro hnone
      rw [hnone] at hrel
      cases hrel
    obtain ⟨n, hn, hlt⟩ := hm.known j name p hsome
    refine ⟨n, ?_, hlt⟩
    show ((roots' j).metaFile name).bind TopicJson.loads = some n
    rw [hn, Option.bind_some, TopicJson.loads_dumps]
  · by_contra ho
    have hl : (if (new.ring j).ownsPartition name p then (cs (owner name p)).logs name p
        else none).isSome := hl
    rw [if_neg ho] at hl
    cases hl

/-- **The new brokers are a cluster in order**, before any of them is started. -/
theorem Moved.good (hm : Moved old new roots roots') (hs : ∀ i, (roots i).Stores (cs i)) :
    ∃ cs', Good new (fun j => ⟨none, roots' j⟩) cs' := by
  choose cs' hstores hparts using hm.stores hs
  exact ⟨cs', fun j => ⟨hstores j, fun s hs => (by cases hs), hparts j⟩, fun j s hs => by cases hs⟩

/-- **No step of a cluster loses a record**: every partition starts with what
it had. -/
theorem Good.step_prefix {cl : Cluster} {nodes : State cl} {cs : Fin cl.brokers → Catalog}
    (h : Good cl nodes cs) (e : Act cl) (i : Fin cl.brokers) (name : String) (p : ℕ) :
    (nodes i).root.records name p <+: ((cl.machine.step nodes e).2 i).root.records name p := by
  obtain ⟨-, -, hserves⟩ := h.step e
  by_cases hadds : ∃ response, (cl.machine.step nodes e).1 = .produced (.ok response)
  · obtain ⟨response, hanswer⟩ := hadds
    obtain ⟨request, clock, elapsed, hact⟩ := Node.produced_step hanswer
    obtain ⟨q, r, -, -, -, -, -, -, -, -, -, hrecords⟩ := hserves.accepted hact hanswer
    rw [hrecords]
    split_ifs
    · exact List.prefix_append ..
    · exact List.prefix_rfl
  · rw [hserves.unchanged (fun response hr => hadds ⟨response, hr⟩) i name p]

/-- **Nor does a run of it.** -/
theorem Good.run_prefix {cl : Cluster} {nodes : State cl} {cs : Fin cl.brokers → Catalog}
    (h : Good cl nodes cs) (acts : List (Act cl)) (i : Fin cl.brokers) (name : String) (p : ℕ) :
    (nodes i).root.records name p <+: ((cl.machine.run nodes acts).2 i).root.records name p := by
  induction acts generalizing nodes cs with
  | nil => exact List.prefix_rfl
  | cons e acts ih =>
    obtain ⟨cs', h', -⟩ := h.step e
    exact (h.step_prefix e i name p).trans (ih h')

/-- **Resizing loses nothing.** Whatever the brokers of a cluster have been
through, let the partitions be moved to the disks of other brokers, as their
ring has it. Then the others are a cluster in order, whatever they go through
from there: a broker that starts becomes ready and has no orphans, a partition
is with its new owner only, what is stored next goes behind what there is, and
each partition still starts with the records that it had before. -/
theorem resized (old new : Cluster) (acts : List (Act old)) {roots' : Fin new.brokers → Root}
    (hm : Moved old new (fun i => ((old.machine.run State.empty acts).2 i).root) roots')
    (acts' : List (Act new)) :
    let nodes := (new.machine.run (fun j => ⟨none, roots' j⟩) acts').2
    (∀ i j name (p : ℕ), (old.ring i).owns name p = .ok true → (new.ring j).owns name p = .ok true →
        ((old.machine.run State.empty acts).2 i).root.records name p
          <+: (nodes j).root.records name p)
      ∧ (∀ j name p, (nodes j).root.part name p ≠ none → (new.ring j).owns name p = .ok true)
      ∧ ∀ e : Act new, Serves new nodes e (new.machine.step nodes e).1
        (new.machine.step nodes e).2 := by
  intro nodes
  obtain ⟨cs, hold⟩ := (good_empty old).run acts
  obtain ⟨cs₁, hstart⟩ := hm.good fun i => (hold.owned i).good.stores
  obtain ⟨cs', hnew⟩ := hstart.run acts'
  refine ⟨fun i j name p ho ho' => ?_, fun j name p hp => ?_, fun e => ?_⟩
  · have hsame : (roots' j).records name p
        = ((old.machine.run State.empty acts).2 i).root.records name p := by
      unfold Root.records
      rw [hm.part i j name p ho]
      rw [Ring.ownsPartition_eq] at ho'
      rw [if_pos (Except.ok.inj ho')]
    rw [← hsame]
    exact hstart.run_prefix acts' j name p
  · have hl := Option.isSome_iff_ne_none.mpr hp
    rw [(hnew.owned j).good.stores.isSome_part] at hl
    rw [Ring.ownsPartition_eq, (hnew.owned j).parts name p hl]
  · obtain ⟨-, -, hserves⟩ := hnew.step e
    exact hserves

omit [Crc32] in
/-- One broker's topic of two partitions, shared out between two. -/
theorem resized_two : let _ := Crc32.zlib
    let old : Cluster := ⟨1, fun b => .ok s!"pyka-{b}", .modulo, Nat.one_pos⟩
    let new : Cluster := ⟨2, fun b => .ok s!"pyka-{b}", .modulo, Nat.two_pos⟩
    let settings : Settings := ⟨"data", 1, .never, ⟨2 ^ 30, default_max_segment_bytes⟩, false,
      Nat.one_pos⟩
    let root := ((old.machine.run State.empty [.start 0 settings,
      .ask 0 (.create "orders" (some 2)),
      .ask 0 (.produce ⟨"orders", none, some [97], some 5, none, some 1⟩ 7 0)]).2 0).root
    let roots' : Fin new.brokers → Root := fun j =>
      (Root.empty.setMeta "orders" (TopicJson.dumps 2)).setPart "orders" j
        ((root.part "orders" j).getD .empty)
    let acts' : List (Act new) := [.start 1 settings,
      .ask 1 (.produce ⟨"orders", none, some [98], some 6, none, some 1⟩ 7 0)]
    Moved old new (fun _ => root) roots'
      ∧ root.records "orders" 1
        <+: ((new.machine.run (fun j => ⟨none, roots' j⟩) acts').2 1).root.records "orders" 1 := by
  intro _ old new settings root roots' acts'
  have hkeys : root.keys = ["orders"] := by decide +kernel
  have hmeta : root.metaFile "orders" = some (TopicJson.dumps 2) := by decide +kernel
  have hparts : (root.lookup "orders").map (fun dir => dir.parts.keys) = some [1, 0] := by
    decide +kernel
  have hlow : ∀ p, p < 2 → (root.part "orders" p).isSome := by decide +kernel
  have hhigh : ∀ p, 2 ≤ p → root.part "orders" p = none := by
    intro p hp
    obtain ⟨dir, hdir, hkeys⟩ := Option.map_eq_some_iff.mp hparts
    rw [Root.part, hdir, Option.bind_some, AList.lookup_eq_none, AList.mem_keys, hkeys]
    simp only [List.mem_cons, List.not_mem_nil, or_false]
    omega
  have hother : ∀ name, name ≠ "orders" → ∀ p, root.part name p = none := by
    intro name hname p
    have hnone : root.lookup name = none := by
      rw [AList.lookup_eq_none, AList.mem_keys, hkeys]
      simpa using hname
    rw [Root.part, hnone, Option.bind_none]
  have howns : ∀ j : Fin 2, ∀ p : Fin 2, (new.ring j).ownsPartition "orders" p
      = decide (p = j) := by
    decide +kernel
  have hpart : ∀ (j : Fin 2) name (p : ℕ), (roots' j).part name p
      = if name = "orders" ∧ p = j then some ((root.part "orders" j).getD .empty) else none :=
    fun j name p => by simp [roots']
  have hm : Moved old new (fun _ => root) roots' := by
    refine ⟨fun i j name p _ => ?_, fun j name p hp => ?_, fun j name text htext => ?_⟩
    · rw [hpart]
      by_cases hname : name = "orders"
      · subst hname
        by_cases hp : p < 2
        · have ho := howns j ⟨p, hp⟩
          obtain ⟨dir, hdir⟩ := Option.isSome_iff_exists.mp (hlow p hp)
          by_cases hj : p = j
          · rw [ho, if_pos ⟨rfl, hj⟩, if_pos (decide_eq_true (Fin.ext hj)), ← hj, hdir]
            rfl
          · rw [ho, if_neg fun h => hj h.2,
              if_neg fun h => hj (congrArg Fin.val (of_decide_eq_true h))]
        · have hj : (j : ℕ) < 2 := j.2
          rw [if_neg (by omega), hhigh p (by omega), ite_self]
      · rw [if_neg fun h => hname h.1, hother name hname, ite_self]
    · rw [hpart] at hp
      split_ifs at hp with h
      · refine ⟨2, ?_, h.2 ▸ j.2⟩
        simp [roots', h.1]
      · exact absurd rfl hp
    · refine ⟨0, ?_⟩
      have hname : name = "orders" ∧ TopicJson.dumps 2 = text := by simpa [roots'] using htext
      rw [hname.1, ← hname.2]
      exact hmeta
  have hfor : (old.ring 0).owns "orders" 1 = .ok true := by decide +kernel
  have hfor' : (new.ring 1).owns "orders" 1 = .ok true := by decide +kernel
  have hm' : Moved old new (fun i => ((old.machine.run State.empty [.start 0 settings,
      .ask 0 (.create "orders" (some 2)),
      .ask 0 (.produce ⟨"orders", none, some [97], some 5, none, some 1⟩ 7 0)]).2 i).root)
        roots' := by
    convert hm using 2 with i
    rw [Subsingleton.elim i 0]
  exact ⟨hm, (resized old new _ hm' acts').1 0 1 "orders" 1 hfor hfor'⟩

end Cluster

end Pyka
