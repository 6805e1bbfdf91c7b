import Pyka.Broker.Node

/-!
# A start that is refused, and taken back

A broker that is started with another ring than the one its data was written
under may find partitions that are not its own any more, and refuse to become
ready. One would then start it with the ring there was. But `Store.open`
recovers every topic before it looks for orphans, and recovering a topic makes
a directory for each partition the new ring gives to this broker – which are
orphans to the old one. `Node.taken_back_iff` says when that happens.

## What a refused start ought to leave

The broker refuses so that nothing happens to data which is somewhere else,
and an operator who has made a mistake can undo it. So a refused start is
taken back (`Node.TakenBack`) if the partition directories are the ones there
were, and the broker becomes ready when it is started as before, with no
orphans. Records are not in question: a start adds none and loses none, and a
directory that was made in vain is empty.

## When it does

Exactly where every partition, of the topics on disk, that the new ring gives
to this broker has its directory already. A broker that was alone has all of
them, once its topics have been opened. Between two other sizes, by `partition
% brokers`, a broker may lose some partitions and get others, and the
directories of those are made. Starting it with the old ring then finds
orphans which only that start has made.

The condition does not ask whether the start was refused. One that is not
makes the same directories.
-/

namespace Pyka

/-- Opening a topic makes the directories of its partitions stored here. -/
theorem Catalog.isSome_touch (c : Catalog) (h : Holder) (name name' : String) (n p : ℕ) :
    ((c.touch h name n).logs name' p).isSome
      ↔ (c.logs name' p).isSome ∨ (name' = name ∧ p < n ∧ h.owns name p = true) := by
  show (if name' = name ∧ p < n ∧ h.owns name p = true then some (c.records name p)
    else c.logs name' p).isSome = true ↔ _
  split_ifs with hown
  · exact iff_of_true rfl (Or.inr hown)
  · rw [or_iff_left hown]

variable [Crc32]

namespace Store

variable {s : Store} {v : Volume} {c : Catalog}

/-- **The directories that opening topics makes**: those of their partitions
stored here, of topics in the list. -/
theorem createAll_parts (names : List String) {t : Topic} (h : t.Rep v c)
    (hnames : ∀ name ∈ names, (c.counts name).isSome) (name : String) (p : ℕ) :
    ((createAll names t v).2.2.root.part name p).isSome
      ↔ (v.root.part name p).isSome
        ∨ ∃ n, name ∈ names ∧ c.counts name = some n ∧ p < n ∧ t.owns name p = true := by
  induction names generalizing t v c with
  | nil =>
    refine (or_iff_left ?_).symm
    rintro ⟨n, hmem, -⟩
    cases hmem
  | cons first names ih =>
    obtain ⟨n, hn⟩ := Option.isSome_iff_exists.mp (hnames first List.mem_cons_self)
    have hf := Topic.create_follows h first none
    have hcreate : c.create t.holder first none = (.ok n, c.touch t.holder first n) := by
      unfold Catalog.create Catalog.openAs
      rw [(h.stores.names hn).1, hn]
      rfl
    rw [hcreate] at hf
    have hcounts : (c.touch t.holder first n).counts = c.counts := by
      rw [Catalog.counts_touch, ← hn, Function.update_eq_self]
    cases ht : t.create v first none with
    | mk res rest =>
    obtain ⟨t₁, v₁⟩ := rest
    rw [ht] at hf
    obtain rfl : res = .ok n := hf.answer
    have hrep : t₁.Rep v₁ (c.touch t.holder first n) := hf.rep
    have howns : t₁.owns = t.owns := congrArg Holder.owns hf.holder
    have hgo : createAll (first :: names) t v = createAll names t₁ v₁ := by
      rw [createAll, ht]
    rw [hgo, ih hrep (by
        rw [hcounts]
        exact fun name' hn' => hnames name' (List.mem_cons_of_mem _ hn')),
      hrep.stores.isSome_part, h.stores.isSome_part, Catalog.isSome_touch, hcounts, howns, or_assoc]
    refine or_congr_right ⟨?_, ?_⟩
    · rintro (⟨rfl, hp, ho⟩ | ⟨m, hmem, hm⟩)
      · exact ⟨n, List.mem_cons_self, hn, hp, ho⟩
      · exact ⟨m, List.mem_cons_of_mem _ hmem, hm⟩
    · rintro ⟨m, hmem, hm, hp, ho⟩
      rcases List.mem_cons.mp hmem with rfl | hmem
      · obtain rfl : n = m := Option.some.inj (hn.symm.trans hm)
        exact Or.inl ⟨rfl, hp, ho⟩
      · exact Or.inr ⟨m, hmem, hm, hp, ho⟩

/-- **The directories that opening a store makes**: of every topic on disk,
those that the ring gives to it. -/
theorem open_parts (h : s.Rep v c) (name : String) (p : ℕ) :
    ((s.open v).2.2.root.part name p).isSome
      ↔ (v.root.part name p).isSome
        ∨ ∃ n, c.counts name = some n ∧ p < n ∧ s.ring.ownsPartition name p = true := by
  have hnames := mem_names rfl h.topic.stores
  have hvolume : (s.open v).2.2 = (createAll (Topic.names v) s.topic v).2.2 := by
    unfold Store.open
    cases hall : createAll (Topic.names v) s.topic v with
    | mk res rest =>
    cases res <;> simp only [hall]
  rw [hvolume, createAll_parts _ h.topic fun name hn => (hnames name).mp hn, h.owns]
  refine or_congr_right (exists_congr fun n => and_iff_right_of_imp fun hn => ?_)
  exact (hnames name).mpr (Option.isSome_of_eq_some hn.1)

end Store

namespace Node

variable {c : Catalog}

/-- **The directories that starting a broker makes**, whether or not it
becomes ready. -/
theorem start_parts {root : Root} (hroot : root.Stores c) (ring : Ring) (settings : Settings)
    (name : String) (p : ℕ) :
    ((machine.step ⟨none, root⟩ (.start ring settings)).2.root.part name p).isSome
      ↔ (root.part name p).isSome
        ∨ ∃ n, c.counts name = some n ∧ p < n ∧ ring.ownsPartition name p = true := by
  obtain ⟨t, hinit, hstore, -⟩ := Store.init_rep hroot settings.path settings.syncPolicy
    ring settings.allowOrphans settings.partitions_pos settings.maxSegmentBytes.2
  have hopen : (machine.step ⟨none, root⟩ (.start ring settings)).2.root
      = (Store.open ⟨ring, t, .init, false, settings.allowOrphans, []⟩ (.of root)).2.2.root := by
    simp only [machine, hinit]
  rw [hopen]
  exact Store.open_parts hstore name p

/-- **Lives under one ring** leave nothing that belongs to another broker. -/
theorem Owned.run_of_ring {ring : Ring} {n : Node} (hn : Owned ring n c) {acts : List Act}
    (hacts : ∀ ring' settings, Act.start ring' settings ∈ acts → ring' = ring) :
    ∃ c', Owned ring (machine.run n acts).2 c' := by
  induction acts generalizing n c with
  | nil => exact ⟨c, hn⟩
  | cons act acts ih =>
    obtain ⟨c₁, h₁⟩ : ∃ c₁, Owned ring (machine.step n act).2 c₁ := by
      by_cases hstart : ∃ ring' settings, act = .start ring' settings
      · obtain ⟨ring', settings, rfl⟩ := hstart
        obtain rfl := hacts ring' settings List.mem_cons_self
        obtain ⟨store, root⟩ := n
        cases store with
        | some s => exact ⟨c, hn⟩
        | none =>
          obtain ⟨s, v', c', hstep, hgood, ⟨hring, -⟩, -, hset, -⟩ :=
            start_spec hn.good.stores ring' settings
          refine ⟨c', by rw [hstep]; exact hgood, fun s' hs' => ?_, fun name p hl => ?_⟩
          · rw [hstep] at hs'
            cases hs'
            exact hring
          · exact (hset.logs hl).elim (hn.parts name p) id
      · exact hn.step act fun ring' settings heq => hstart ⟨ring', settings, heq⟩
    exact ih h₁ fun ring' settings hmem => hacts ring' settings (List.mem_cons_of_mem _ hmem)

/-- **A refused start that can be taken back**: the partition directories are
the ones there were, and when the store that refused has ended, a broker that
starts with the ring there was is ready and finds no orphans. -/
def TakenBack (root : Root) (refused : Node) (stop : Act) (ring : Ring) (settings : Settings) :
    Prop :=
  (∀ name p, (refused.root.part name p).isSome ↔ (root.part name p).isSome)
    ∧ ∃ s, (machine.run refused [stop, .start ring settings]).2.store = some s
      ∧ s.ready = true ∧ s.orphans = []

/-- **When a refused start can be taken back.** On a data root on which all
brokers were started with one ring, a broker is started with another one. If
it does not become ready, that can be taken back exactly where every partition,
of the topics on disk, that the new ring gives to this broker has its
directory already. (The same holds if it does become ready.) -/
theorem taken_back_iff (before : List Act) (ring ring' : Ring) (settings settings' : Settings)
    (hbefore : ∀ r st, Act.start r st ∈ before → r = ring)
    (hdown : (machine.run empty before).2.store = none) {stop : Act}
    (hstop : stop = .close ∨ stop = .kill) :
    TakenBack (machine.run empty before).2.root
        (machine.step (machine.run empty before).2 (.start ring' settings')).2 stop ring settings
      ↔ ∀ name n (p : ℕ), (machine.run empty before).2.root.metaFile name
        = some (TopicJson.dumps n) →
        p < n → ring'.owns name p = .ok true →
        ((machine.run empty before).2.root.part name p).isSome := by
  have hempty : Owned ring empty .empty :=
    ⟨stores_empty, fun _ h => (by cases h), fun _ _ h => (by cases h)⟩
  obtain ⟨c, hn⟩ := hempty.run_of_ring hbefore
  generalize (machine.run empty before).2 = n at hn hdown ⊢
  obtain ⟨store, root⟩ := n
  cases hdown
  have hroot : root.Stores c := hn.good.stores
  have hcount : ∀ name n, root.metaFile name = some (TopicJson.dumps n) ↔ c.counts name = some n :=
    fun name n => by
      rw [hroot.metaFile, Option.map_eq_some_iff]
      refine ⟨fun ⟨m, hm, heq⟩ => TopicJson.dumps_injective heq ▸ hm, fun h => ⟨n, h, rfl⟩⟩
  have hmade := start_parts hroot ring' settings'
  simp only [hcount, Ring.ownsPartition_eq, Except.ok.injEq]
  constructor
  · rintro ⟨hsame, -⟩ name n p hn hp ho
    exact (hsame name p).mp ((hmade name p).mpr (Or.inr ⟨n, hn, hp, ho⟩))
  · intro hthere
    have hsame : ∀ name p,
        ((machine.step ⟨none, root⟩ (.start ring' settings')).2.root.part name p).isSome
          ↔ (root.part name p).isSome := fun name p => by
      rw [hmade, or_iff_left_of_imp]
      rintro ⟨n, hn, hp, ho⟩
      exact hthere name n p hn hp ho
    refine ⟨hsame, ?_⟩
    obtain ⟨s', v', c', hstep, hgood, -⟩ := start_spec hroot ring' settings'
    rw [hstep] at hsame ⊢
    -- what is left when the store has ended
    obtain ⟨root₂, hend, hstores⟩ : ∃ root₂, (machine.step ⟨some s', v'.root⟩ stop).2
        = ⟨none, root₂⟩
        ∧ root₂.Stores c' := by
      rcases hstop with rfl | rfl
      · obtain ⟨v₂, hclose, hgood₂⟩ := close_spec hgood
        exact ⟨v₂.root, by rw [hclose], hgood₂⟩
      · exact ⟨v'.root, rfl, hgood.stores⟩
    obtain ⟨s₃, v₃, c₃, hagain, hgood₃, -, -, hset, horphans, hne, hready, -⟩ :=
      start_spec hstores ring settings
    have hparts : ∀ name p, (v₃.root.part name p).isSome → ring.ownsPartition name p = true :=
      fun name p hsome => by
        rw [hgood₃.stores.isSome_part] at hsome
        refine (hset.logs hsome).elim (fun hl => ?_) id
        have hold := (hsame name p).mp (by rw [hgood.stores.isSome_part]; exact hl)
        rw [hroot.isSome_part] at hold
        exact hn.parts name p hold
    have hnone : s₃.orphans = [] := by
      by_contra hsome
      obtain ⟨⟨name, ps⟩, es, hes⟩ := List.exists_cons_of_ne_nil hsome
      have hmem : (name, ps) ∈ s₃.orphans := by
        rw [hes]
        exact List.mem_cons_self
      obtain ⟨p, qs, hps⟩ := List.exists_cons_of_ne_nil (hne _ hmem)
      have hps : ps = p :: qs := hps
      obtain ⟨hsome, hother⟩ := (horphans name p).mp ⟨ps, hmem, hps ▸ List.mem_cons_self⟩
      rw [Ring.ownsPartition_eq, hparts name p hsome] at hother
      cases hother
    refine ⟨s₃, ?_, hready.mpr (Or.inl hnone), hnone⟩
    simp only [Machine.run, hend, hagain]

/-! ## Two brokers, and a third one

The first broker of two has partitions 0 and 2 of four. Of three it would have
0 and 3. -/

/-- The first broker of a cluster with so many others. -/
def beside (others : ℕ) : Ring :=
  ⟨others + 1, 0, fun b => .ok s!"pyka-{b}", .modulo, Nat.succ_pos others⟩

/-- Topics get four partitions. -/
def four : Settings :=
  ⟨"data", 4, .never, ⟨2 ^ 30, default_max_segment_bytes⟩, false, Nat.succ_pos 3⟩

/-- A broker lives, and a topic is created. -/
def life (ring : Ring) : List Act := [.start ring four, .ask (.create "orders" none), .close]

omit [Crc32] in
/-- **A third broker for a moment** is one for good: the first one refuses to
serve, for it has partition 2, and has made a directory for partition 3, which
is an orphan for it when there are two brokers again. -/
theorem refused_start_stays : let _ := Crc32.zlib
    let n := (machine.run empty (life (beside 1))).2
    let refused := (machine.step n (.start (beside 2) four)).2
    n.store = none
      ∧ refused.store.map (fun s => (s.ready, s.orphans)) = some (false, [("orders", [2])])
      ∧ (n.root.part "orders" 3).isSome = false ∧ (refused.root.part "orders" 3).isSome = true
      ∧ (machine.run refused [.close, .start (beside 1) four]).2.store.map
          (fun s => (s.ready, s.orphans)) = some (false, [("orders", [3])])
      ∧ ¬TakenBack n.root refused .close (beside 1) four := by
  intro _ n refused
  have hbefore : (n.root.part "orders" 3).isSome = false := by decide +kernel
  have hafter : (refused.root.part "orders" 3).isSome = true := by decide +kernel
  refine ⟨by decide +kernel, by decide +kernel, hbefore, hafter, by decide +kernel, fun hback => ?_⟩
  have hnow := (hback.1 "orders" 3).mp hafter
  rw [hbefore] at hnow
  cases hnow

omit [Crc32] in
/-- A root with one topic, which is here as a whole. -/
theorem isSome_part_of_keys {root : Root} {topic name : String} {m n p : ℕ}
    (hkeys : root.keys = [topic]) (htopic : root.metaFile topic = some (TopicJson.dumps m))
    (hall : ∀ p < m, (root.part topic p).isSome)
    (hn : root.metaFile name = some (TopicJson.dumps n))
    (hp : p < n) : (root.part name p).isSome := by
  have hmem : name ∈ root.keys := by
    rw [← AList.mem_keys, ← AList.lookup_isSome]
    unfold Root.metaFile at hn
    cases hl : root.lookup name with
    | none => rw [hl] at hn; cases hn
    | some dir => rfl
  rw [hkeys, List.mem_singleton] at hmem
  subst hmem
  obtain rfl := TopicJson.dumps_injective (Option.some.inj (hn.symm.trans htopic))
  exact hall p hp

omit [Crc32] in
/-- **A second broker for a moment**: the one there was has all directories,
so a start with another ring makes none. -/
theorem taken_back_iff_alone : let _ := Crc32.zlib
    let n := (machine.run empty (life (beside 0))).2
    let refused := (machine.step n (.start (beside 1) four)).2
    refused.store.map Store.ready = some false
      ∧ TakenBack n.root refused .kill (beside 0) four := by
  intro _
  have hrings : ∀ r st, Act.start r st ∈ life (beside 0) → r = beside 0 := fun r st hmem => by
    rcases List.mem_cons.mp hmem with heq | hmem
    · cases heq
      rfl
    · simp at hmem
  have hdown : (machine.run empty (life (beside 0))).2.store = none := by decide +kernel
  have hkeys : (machine.run empty (life (beside 0))).2.root.keys = ["orders"] := by decide +kernel
  have hfour : (machine.run empty (life (beside 0))).2.root.metaFile "orders"
      = some (TopicJson.dumps 4) := by decide +kernel
  have hall : ∀ p < 4, ((machine.run empty (life (beside 0))).2.root.part "orders" p).isSome := by
    decide +kernel
  have hback := (taken_back_iff _ (beside 0) (beside 1) four four hrings hdown (Or.inr rfl)).mpr
    fun name n p hn hp _ => isSome_part_of_keys hkeys hfour hall hn hp
  exact ⟨by decide +kernel, hback⟩

end Node

end Pyka
