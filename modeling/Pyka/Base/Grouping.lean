import Mathlib.Data.List.Induction
import Mathlib.Data.List.Nodup
import Mathlib.Data.List.Perm.Basic
import Mathlib.Data.Nat.Notation

/-!
# Groups and bins

Items put into groups by a key (`Grouping.add`): the groups in the order in
which their keys first come, the items of a group in the order in which they
come – a dictionary of lists that keeps the order of insertion. Items put into
bins (`Bins.put`), each at the end of its own.

## Groups

The groups one after another are the items in another order
(`Grouping.foldl_add_spec`). Which order that is matters to a caller that
hands over the groups and cares about some of the items among themselves:
items that can only be of one group keep theirs. This is stated with a
predicate `q` rather than with the key itself, because the items a caller
cares about – those of one bin, say – may be told apart by something finer
than the key.

## Bins

The place of an item is its bin and its number there (`Bins.places`), which is
what a log answers an append with. There it is found, whatever comes after it
(`Bins.found`), and no two items have the same place (`Bins.nodup_places`).
Bins forget the order of items that go to different ones
(`Bins.putAll_congr`): together with the rule for groups, handing over the
items group by group fills the bins as handing them over one by one does.
-/

variable {α β κ : Type*}

namespace Grouping

/-- The items of all groups, one group after another and each in its order. -/
def items (groups : List (κ × List α)) : List α := groups.flatMap Prod.snd

/-- **Groups by a key**: each key has one group, of items that have it. -/
structure Keyed (key : α → κ) (groups : List (κ × List α)) : Prop where
  nodup : (groups.map Prod.fst).Nodup
  key : ∀ g ∈ groups, ∀ a ∈ g.2, key a = g.1
  nonempty : ∀ g ∈ groups, g.2 ≠ []

variable {key : α → κ} {k : κ} {a : α} {groups : List (κ × List α)}

/-- No groups at all are groups by any key. -/
theorem Keyed.nil (key : α → κ) : Keyed key [] :=
  ⟨List.nodup_nil, fun _ h => (by cases h), fun _ h => by cases h⟩

/-- The groups after the first are groups by the same key. -/
theorem Keyed.tail {g : κ × List α} (h : Keyed key (g :: groups)) : Keyed key groups :=
  ⟨(List.nodup_cons.mp h.nodup).2, fun g' hg' => h.key g' (List.mem_cons_of_mem _ hg'),
    fun g' hg' => h.nonempty g' (List.mem_cons_of_mem _ hg')⟩

/-- An item of the groups after the first has another key. -/
theorem Keyed.ne_of_mem_tail {g : κ × List α} (h : Keyed key (g :: groups)) {b : α}
    (hb : b ∈ items groups) : key b ≠ g.1 := by
  intro heq
  obtain ⟨g', hg', hb⟩ := List.mem_flatMap.mp hb
  have hkey := h.key g' (List.mem_cons_of_mem _ hg') b hb
  rw [heq] at hkey
  exact (List.nodup_cons.mp h.nodup).1 (hkey ▸ List.mem_map_of_mem hg')

variable [DecidableEq κ]

/-- Put an item into its group, a new one at the end where there is none. -/
def add (k : κ) (a : α) : List (κ × List α) → List (κ × List α)
  | [] => [(k, [a])]
  | (k', as) :: groups => if k' = k then (k', as ++ [a]) :: groups else (k', as) :: add k a groups

/-- Putting an item in adds that item to all of them, somewhere. -/
theorem items_add_perm (k : κ) (a : α) (groups : List (κ × List α)) :
    (items (add k a groups)).Perm (items groups ++ [a]) := by
  induction groups with
  | nil => exact .refl _
  | cons g groups ih =>
    obtain ⟨k', as⟩ := g
    unfold add
    split_ifs
    · show ((as ++ [a]) ++ items groups).Perm ((as ++ items groups) ++ [a])
      rw [List.append_assoc, List.append_assoc]
      exact .append_left as List.perm_append_comm
    · show (as ++ items (add k a groups)).Perm ((as ++ items groups) ++ [a])
      rw [List.append_assoc]
      exact .append_left as ih

/-- A key of the groups after an item is put in is that of the item, or was
there. -/
theorem mem_keys_add {k' : κ} (h : k' ∈ (add k a groups).map Prod.fst) :
    k' = k ∨ k' ∈ groups.map Prod.fst := by
  induction groups with
  | nil => exact Or.inl (List.mem_singleton.mp h)
  | cons g groups ih =>
    unfold add at h
    split_ifs at h with heq
    · exact Or.inr h
    · rcases List.mem_cons.mp h with rfl | h
      · exact Or.inr List.mem_cons_self
      · exact (ih h).imp_right (List.mem_cons_of_mem _)

/-- Each key still has one group: a new one is made only where there is none. -/
theorem nodup_keys_add (h : (groups.map Prod.fst).Nodup) (k : κ) (a : α) :
    ((add k a groups).map Prod.fst).Nodup := by
  induction groups with
  | nil => exact List.nodup_singleton _
  | cons g groups ih =>
    obtain ⟨hnotin, hrest⟩ := List.nodup_cons.mp h
    unfold add
    split_ifs with heq
    · exact h
    · refine List.nodup_cons.mpr ⟨fun hmem => ?_, ih hrest⟩
      rcases mem_keys_add hmem with hk | hk
      · exact heq hk
      · exact hnotin hk

/-- **Putting an item in keeps groups by a key.** -/
theorem Keyed.add (h : Keyed key groups) (a : α) : Keyed key (add (key a) a groups) := by
  suffices hrest : (∀ g ∈ Grouping.add (key a) a groups, ∀ b ∈ g.2, key b = g.1)
      ∧ ∀ g ∈ Grouping.add (key a) a groups, g.2 ≠ [] from
    ⟨nodup_keys_add h.nodup _ _, hrest.1, hrest.2⟩
  induction groups with
  | nil =>
    refine ⟨fun g hg b hb => ?_, fun g hg => ?_⟩
    · rw [List.mem_singleton.mp hg] at hb ⊢
      rw [List.mem_singleton.mp hb]
    · rw [List.mem_singleton.mp hg]
      exact List.cons_ne_nil _ _
  | cons g groups ih =>
    obtain ⟨hkeys, hnonempty⟩ := ih h.tail
    unfold Grouping.add
    split_ifs with heq
    · refine ⟨fun g' hg' b hb => ?_, fun g' hg' => ?_⟩
      · rcases List.mem_cons.mp hg' with rfl | hg'
        · rcases List.mem_append.mp hb with hb | hb
          · exact h.key g List.mem_cons_self b hb
          · rw [List.mem_singleton.mp hb]
            exact heq.symm
        · exact h.key g' (List.mem_cons_of_mem _ hg') b hb
      · rcases List.mem_cons.mp hg' with rfl | hg'
        · exact List.append_ne_nil_of_right_ne_nil _ (List.cons_ne_nil _ _)
        · exact h.nonempty g' (List.mem_cons_of_mem _ hg')
    · refine ⟨fun g' hg' => ?_, fun g' hg' => ?_⟩
      · rcases List.mem_cons.mp hg' with rfl | hg'
        · exact h.key _ List.mem_cons_self
        · exact hkeys g' hg'
      · rcases List.mem_cons.mp hg' with rfl | hg'
        · exact h.nonempty _ List.mem_cons_self
        · exact hnonempty g' hg'

/-- Items that can only be of one group keep their order: the new one comes
behind those it shares its group with. -/
theorem Keyed.filter_items_add (h : Keyed key groups) (a : α) {q : α → Bool}
    (hq : ∀ b, q a = true → q b = true → key b = key a) :
    (items (Grouping.add (key a) a groups)).filter q = (items groups).filter q ++ [a].filter q := by
  induction groups with
  | nil => rfl
  | cons g groups ih =>
    obtain ⟨k', as⟩ := g
    unfold Grouping.add
    split_ifs with heq
    · show ((as ++ [a]) ++ items groups).filter q = (as ++ items groups).filter q ++ [a].filter q
      simp only [List.filter_append, List.append_assoc]
      refine congrArg _ ?_
      cases hqa : q a with
      | false => simp [hqa]
      | true =>
        -- what comes after the group of the item is not among them
        have hnil : (items groups).filter q = [] :=
          List.filter_eq_nil_iff.mpr fun b hb hqb =>
            h.ne_of_mem_tail hb ((hq b hqa hqb).trans heq.symm)
        rw [hnil, List.append_nil, List.nil_append]
    · show (as ++ items (Grouping.add (key a) a groups)).filter q
        = (as ++ items groups).filter q ++ _
      rw [List.filter_append, List.filter_append, ih h.tail, List.append_assoc]

/-- **The items that have a key** are those of its group. -/
theorem Keyed.filter_items (h : Keyed key groups) {g : κ × List α} (hg : g ∈ groups) :
    ((items groups).filter fun a => key a = g.1) = g.2 := by
  induction groups with
  | nil => cases hg
  | cons g' groups ih =>
    show ((g'.2 ++ items groups).filter fun a => key a = g.1) = g.2
    rw [List.filter_append]
    rcases List.mem_cons.mp hg with rfl | hg
    · have hall : (g.2.filter fun a => key a = g.1) = g.2 :=
        List.filter_eq_self.mpr fun a ha => decide_eq_true (h.key g List.mem_cons_self a ha)
      have hnone : ((items groups).filter fun a => key a = g.1) = [] :=
        List.filter_eq_nil_iff.mpr fun a ha heq => h.ne_of_mem_tail ha (of_decide_eq_true heq)
      rw [hall, hnone, List.append_nil]
    · have hnone : (g'.2.filter fun a => key a = g.1) = [] :=
        List.filter_eq_nil_iff.mpr fun a ha heq => by
          have hkey := (h.key g' List.mem_cons_self a ha).symm.trans (of_decide_eq_true heq)
          exact (List.nodup_cons.mp h.nodup).1 (hkey ▸ List.mem_map_of_mem hg)
      rw [hnone, List.nil_append, ih h.tail hg]

/-- **The groups one after another are the items in another order**, each
group of items that have its key, and items that can only be of one group
keep their order. -/
theorem foldl_add_spec (key : α → κ) (as : List α) :
    Keyed key (as.foldl (fun groups a => add (key a) a groups) [])
      ∧ (items (as.foldl (fun groups a => add (key a) a groups) [])).Perm as
      ∧ ∀ q : α → Bool, (∀ a b, q a = true → q b = true → key b = key a) →
        (items (as.foldl (fun groups a => add (key a) a groups) [])).filter q = as.filter q := by
  induction as using List.reverseRecOn with
  | nil => exact ⟨.nil key, .refl _, fun _ _ => rfl⟩
  | append_singleton as a ih =>
    obtain ⟨hkeyed, hperm, hfilter⟩ := ih
    simp only [List.foldl_append, List.foldl_cons, List.foldl_nil]
    refine ⟨hkeyed.add a, (items_add_perm _ a _).trans (hperm.append_right [a]), fun q hq => ?_⟩
    rw [hkeyed.filter_items_add a fun b => hq a b, hfilter q hq, List.filter_append]

/-- Grouping what items become, by a key that they had: it may be done before
the groups are made or after. -/
theorem foldl_add_map (key : α → κ) (f : α → β) (as : List α) (groups : List (κ × List α)) :
    as.foldl (fun groups a => add (key a) (f a) groups) (groups.map (Prod.map id (List.map f)))
      = (as.foldl (fun groups a => add (key a) a groups) groups).map
        (Prod.map id (List.map f)) := by
  induction as generalizing groups with
  | nil => rfl
  | cons a as ih =>
    have hadd : add (key a) (f a) (groups.map (Prod.map id (List.map f)))
        = (add (key a) a groups).map (Prod.map id (List.map f)) := by
      induction groups with
      | nil => rfl
      | cons g groups ih =>
        obtain ⟨k', bs⟩ := g
        rw [List.map_cons]
        unfold add
        show (if k' = key a then _ else _) = _
        split_ifs
        · simp [Prod.map]
        · rw [ih, List.map_cons]
    rw [List.foldl_cons, List.foldl_cons, hadd, ih]

end Grouping

namespace Bins

variable [DecidableEq κ]

/-- Put an item at the end of its bin. -/
def put (bins : κ → List α) (e : κ × α) : κ → List α :=
  Function.update bins e.1 (bins e.1 ++ [e.2])

/-- Put items into their bins, one after another. -/
def putAll (bins : κ → List α) (es : List (κ × α)) : κ → List α := es.foldl put bins

/-- **Where each item is put**: its bin, and how many are there before it. -/
def places (bins : κ → List α) : List (κ × α) → List (κ × ℕ)
  | [] => []
  | e :: es => (e.1, (bins e.1).length) :: places (put bins e) es

variable {bins : κ → List α} {e : κ × α} {es : List (κ × α)}

/-- The bin of an item gets it at its end. -/
theorem put_self (bins : κ → List α) (e : κ × α) : put bins e e.1 = bins e.1 ++ [e.2] :=
  Function.update_self ..

/-- The other bins are as they were. -/
theorem put_of_ne {k : κ} (h : k ≠ e.1) : put bins e k = bins k := Function.update_of_ne h ..

/-- **What is in a bin** is what was there, and what was put there, in order. -/
theorem putAll_apply (bins : κ → List α) (es : List (κ × α)) (k : κ) :
    putAll bins es k = bins k ++ (es.filter fun e => e.1 = k).map Prod.snd := by
  induction es generalizing bins with
  | nil => exact (List.append_nil _).symm
  | cons e es ih =>
    show putAll (put bins e) es k = _
    rw [ih]
    by_cases hk : e.1 = k
    · subst hk
      rw [put_self, List.filter_cons_of_pos (p := fun e' : κ × α => e'.1 = e.1)
        (decide_eq_true rfl),
        List.append_assoc]
      rfl
    · rw [put_of_ne (Ne.symm hk), List.filter_cons_of_neg (by simpa using hk)]

/-- Putting items in can be done in parts. -/
theorem putAll_append (bins : κ → List α) (es es' : List (κ × α)) :
    putAll bins (es ++ es') = putAll (putAll bins es) es' := List.foldl_append ..

/-- Bins do not depend on the order of items that go to different ones: only
what goes into each, in its order, counts. -/
theorem putAll_congr {es' : List (κ × α)}
    (h : ∀ k, (es.filter fun e => e.1 = k) = es'.filter fun e => e.1 = k) :
    putAll bins es = putAll bins es' := by
  funext k
  rw [putAll_apply, putAll_apply, h]

/-- Bins only grow. -/
theorem length_putAll_le (bins : κ → List α) (es es' : List (κ × α)) (k : κ) :
    (putAll bins es k).length ≤ (putAll bins (es ++ es') k).length := by
  rw [putAll_append, putAll_apply (putAll bins es), List.length_append]
  exact Nat.le_add_right _ _

/-- The places of items that are put in later start from what is there then. -/
theorem places_append (bins : κ → List α) (es es' : List (κ × α)) :
    places bins (es ++ es') = places bins es ++ places (putAll bins es) es' := by
  induction es generalizing bins with
  | nil => rfl
  | cons e es ih => exact congrArg _ (ih (put bins e))

/-- **Each item is found where it is put**, whatever is put there after it. -/
theorem found {full : κ → List α} (hfull : ∀ k, putAll bins es k <+: full k) :
    List.Forall₂ (fun e place => place.1 = e.1 ∧ (full place.1)[place.2]? = some e.2) es
      (places bins es) := by
  induction es generalizing bins with
  | nil => exact .nil
  | cons e es ih =>
    refine .cons ⟨rfl, ?_⟩ (ih hfull)
    have hpre : put bins e e.1 <+: full e.1 := by
      refine .trans ?_ (hfull e.1)
      show put bins e e.1 <+: putAll (put bins e) es e.1
      rw [putAll_apply]
      exact List.prefix_append _ _
    rw [put_self] at hpre
    obtain ⟨more, hmore⟩ := hpre
    show (full e.1)[(bins e.1).length]? = some e.2
    rw [← hmore, List.append_assoc, List.getElem?_append_right (Nat.le_refl _), Nat.sub_self]
    rfl

/-- An item comes after what is in its bin. -/
theorem le_of_mem_places {place : κ × ℕ} (h : place ∈ places bins es) :
    (bins place.1).length ≤ place.2 := by
  induction es generalizing bins with
  | nil => cases h
  | cons e es ih =>
    rcases List.mem_cons.mp h with rfl | h
    · exact Nat.le_refl _
    · refine Nat.le_trans ?_ (ih h)
      by_cases hk : place.1 = e.1
      · rw [hk, put_self, List.length_append]
        exact Nat.le_add_right _ _
      · exact Nat.le_of_eq (by rw [put_of_ne hk])

/-- **No two items are put at the same place**: what is put into a bin later
comes after what is in it. -/
theorem nodup_places (bins : κ → List α) (es : List (κ × α)) : (places bins es).Nodup := by
  induction es generalizing bins with
  | nil => exact List.nodup_nil
  | cons e es ih =>
    refine List.nodup_cons.mpr ⟨fun hmem => ?_, ih _⟩
    have hle := le_of_mem_places hmem
    rw [put_self, List.length_append, List.length_singleton] at hle
    exact Nat.not_succ_le_self _ hle

end Bins
