import Mathlib.Data.List.Basic
import Mathlib.Algebra.Order.Ring.Int

/-!
# Reading a list a page at a time

A source answers with at most so many items whose keys are at or past an
offset. A reader asks it again and again, each time from behind the last item
it got, until a page is shorter than it asked for or it has as many items as
it wants. `Paging.loop` is that reader, and `Paging.loop_eq` says that it gets
what one read would have given it, however long its pages are.

## What the reader relies on

The keys increase, so that "behind the last item" is an offset: the items past
the key of a page's last item are the ones the page left out
(`Paging.since_next`). The keys need not be consecutive, and an offset need
not be the key of an item. The source answers a page with the first items at
or past the offset, as many as it is asked for, and is left as it was by the
question; the state is there because a source may keep something of its own,
such as what it has opened.

## When it ends

A page that is as long as it was asked to be may have more behind it, so the
reader asks once more and gets an empty page. The number of pages is therefore
bounded by one more than the number of items, and the loop is given so many to
go through (`pages`); a reader that runs out of them has no answer, which
`Paging.loop_eq` excludes.
-/

namespace Paging

variable {α ε σ : Type}

/-- The first items of a list: so many, or all of them. -/
def firstOf (wanted : Option ℤ) (xs : List α) : List α :=
  match wanted with
  | none => xs
  | some n => xs.take n.toNat

/-- How many items the next page is asked for: a page, or what is still wanted
if that is less. -/
def limit (size : ℕ) (wanted : Option ℤ) : ℤ :=
  match wanted with
  | none => size
  | some n => min size n

/-- The items whose keys are at or past an offset. -/
def since (key : α → ℤ) (xs : List α) (offset : ℤ) : List α :=
  xs.filter fun x => decide (offset ≤ key x)

/-- **Read page after page**, for so many pages at most: the items, and the
error that ended the reading if one did. -/
def loop (fetch : σ → ℤ → ℤ → Except ε (List α) × σ) (key : α → ℤ) (size : ℕ) :
    ℕ → σ → ℤ → Option ℤ → Option (List α × Option ε × σ)
  | 0, _, _, _ => none
  | pages + 1, s, offset, wanted =>
    match fetch s offset (limit size wanted) with
    | (.error e, s) => some ([], some e, s)
    | (.ok page, s) =>
      let offset := (page.getLast?.map fun x => key x + 1).getD offset
      let left := wanted.map (· - (page.length : ℤ))
      if left.any (· ≤ 0) then some (page, none, s)
      else if (page.length : ℤ) = limit size wanted then
        (loop fetch key size pages s offset left).map fun more => (page ++ more.1, more.2)
      else some (page, none, s)

section Items

variable {key : α → ℤ} {xs : List α}

/-- Later items are among the earlier ones: asking twice is asking from the
later offset. -/
theorem since_since {offset offset' : ℤ} (h : offset ≤ offset') :
    since key (since key xs offset) offset' = since key xs offset' := by
  unfold since
  rw [List.filter_filter]
  refine List.filter_congr fun x _ => ?_
  rw [← Bool.decide_and]
  exact decide_eq_decide.mpr (and_iff_left_of_imp h.trans)

/-- **What is behind a front of a list** whose keys increase: the items past
the last key of the front. -/
theorem since_next (hkeys : xs.Pairwise fun x y => key x < key y) {offset : ℤ} {n : ℕ} {x : α}
    (hx : ((since key xs offset).take n).getLast? = some x) :
    since key xs (key x + 1) = (since key xs offset).drop n := by
  have hmem : x ∈ since key xs offset := List.mem_of_mem_take (List.mem_of_getLast? hx)
  have hoff : offset ≤ key x := of_decide_eq_true (List.mem_filter.mp hmem).2
  have hsorted : (since key xs offset).Pairwise fun x y => key x < key y :=
    hkeys.sublist List.filter_sublist
  obtain ⟨front, hfront⟩ := List.getLast?_eq_some_iff.mp hx
  rw [← List.take_append_drop n (since key xs offset), hfront, List.append_assoc,
    List.pairwise_append, List.singleton_append, List.pairwise_cons] at hsorted
  obtain ⟨-, ⟨hbehind, -⟩, hbefore⟩ := hsorted
  have hfrontNil : since key (front ++ [x]) (key x + 1) = [] := by
    refine List.filter_eq_nil_iff.mpr fun y hy => ?_
    rw [decide_eq_true_eq]
    rcases List.mem_append.mp hy with hy | hy
    · have := hbefore y hy x List.mem_cons_self
      omega
    · rw [List.mem_singleton.mp hy]
      omega
  have hbehindAll : since key ((since key xs offset).drop n) (key x + 1)
      = (since key xs offset).drop n :=
    List.filter_eq_self.mpr fun y hy => decide_eq_true (hbehind y hy)
  calc since key xs (key x + 1)
      = since key (since key xs offset) (key x + 1) := (since_since (by omega)).symm
    _ = since key (front ++ [x] ++ (since key xs offset).drop n) (key x + 1) := by
        rw [← hfront, List.take_append_drop]
    _ = (since key xs offset).drop n := by
        rw [since, List.filter_append]
        exact (congrArg₂ (· ++ ·) hfrontNil hbehindAll).trans (List.nil_append _)

end Items

section Loop

variable {fetch : σ → ℤ → ℤ → Except ε (List α) × σ} {key : α → ℤ} {size : ℕ} {xs : List α} {s : σ}

/-- A page is never asked for nothing. -/
theorem limit_pos (hsize : 1 ≤ size) {wanted : Option ℤ} (hwanted : ∀ n ∈ wanted, 0 < n) :
    0 < limit size wanted := by
  cases wanted with
  | none => exact Int.natCast_pos.mpr hsize
  | some n => exact lt_min (Int.natCast_pos.mpr hsize) (hwanted n rfl)

/-- A page and what is still wanted behind it are what was wanted before the
page. -/
theorem take_append_firstOf {wanted : Option ℤ} {l : ℤ} (hl : 0 ≤ l) (hle : ∀ n ∈ wanted, l ≤ n)
    (ys : List α) : ys.take l.toNat ++ firstOf (wanted.map (· - l)) (ys.drop l.toNat)
      = firstOf wanted ys := by
  cases wanted with
  | none => exact List.take_append_drop _ _
  | some n =>
    have hn := hle n rfl
    show ys.take l.toNat ++ (ys.drop l.toNat).take (n - l).toNat = ys.take n.toNat
    rw [← List.take_add]
    congr 1
    omega

/-- **One page after the other is one read.** A source that does not change
answers with the items at or past an offset, as many as it is asked for. Then
whatever the size of a page, the reader gets the items from its first offset
on, or as many of them as it wants. -/
theorem loop_eq (hkeys : xs.Pairwise fun x y => key x < key y) (hsize : 1 ≤ size) {start : ℤ}
    (hfetch : ∀ offset limit, start ≤ offset → 0 < limit →
      fetch s offset limit = (.ok ((since key xs offset).take limit.toNat), s))
    {offset : ℤ} (hoff : start ≤ offset) {wanted : Option ℤ} (hwanted : ∀ n ∈ wanted, 0 < n)
    {pages : ℕ} (hpages : (since key xs offset).length < pages) :
    loop fetch key size pages s offset wanted
      = some (firstOf wanted (since key xs offset), none, s) := by
  -- the pages are counted down, and each leaves less to be read
  induction pages generalizing offset wanted with
  | zero => cases hpages
  | succ pages ih =>
    have hpos := limit_pos hsize hwanted
    have hle : ∀ n ∈ wanted, limit size wanted ≤ n := fun n hn => by
      obtain rfl : wanted = some n := hn
      exact min_le_right _ _
    generalize hlimit : limit size wanted = l at hpos hle
    rw [loop, hlimit, hfetch offset l hoff hpos]
    generalize hitems : since key xs offset = items at hpages
    simp only
    by_cases hfull : l ≤ items.length
    · -- a whole page: the rest of the items is behind its last one
      have hlen : ((items.take l.toNat).length : ℤ) = l := by
        rw [List.length_take]
        omega
      obtain ⟨x, hx⟩ : ∃ x, (items.take l.toNat).getLast? = some x := by
        rw [← Option.isSome_iff_exists, List.getLast?_isSome, ← List.length_pos_iff]
        omega
      have hnext : since key xs (key x + 1) = items.drop l.toNat := by
        rw [← hitems] at hx ⊢
        exact since_next hkeys hx
      have hstart : start ≤ key x + 1 := by
        have hmem : x ∈ since key xs offset :=
          hitems ▸ List.mem_of_mem_take (List.mem_of_getLast? hx)
        have := of_decide_eq_true (List.mem_filter.mp hmem).2
        omega
      have hrest : (since key xs (key x + 1)).length < pages := by
        rw [hnext, List.length_drop]
        omega
      rw [hlen, hx, ← take_append_firstOf hpos.le hle items]
      have hgo : ∀ left : Option ℤ, (∀ n ∈ left, 0 < n) →
          (loop fetch key size pages s (key x + 1) left).map
              (fun more => (items.take l.toNat ++ more.1, more.2))
            = some (items.take l.toNat ++ firstOf left (items.drop l.toNat), none, s) :=
        fun left hleft => by
          rw [ih hstart hleft hrest, hnext]
          rfl
      cases wanted with
      | none => exact (if_neg Bool.false_ne_true).trans ((if_pos rfl).trans (hgo none (by simp)))
      | some n =>
        by_cases hdone : n - l ≤ 0
        · have hnone : (n - l).toNat = 0 := by omega
          rw [if_pos (by simpa using hdone)]
          show some (items.take l.toNat, none, s)
            = some (items.take l.toNat ++ (items.drop l.toNat).take (n - l).toNat, none, s)
          rw [hnone, List.take_zero, List.append_nil]
        · rw [if_neg (by simpa using hdone), if_pos rfl]
          refine hgo (some (n - l)) fun m hm => ?_
          obtain rfl : n - l = m := Option.some.inj hm
          omega
    · -- the last page
      have hall : items.take l.toNat = items := List.take_of_length_le (by omega)
      rw [hall]
      cases wanted with
      | none => exact (if_neg Bool.false_ne_true).trans (if_neg (by omega))
      | some n =>
        have hn := hle n rfl
        rw [if_neg (by simp only [Option.map_some, Option.any_some, decide_eq_true_eq]; omega),
          if_neg (by omega)]
        show some (items, none, s) = some (items.take n.toNat, none, s)
        rw [List.take_of_length_le (by omega)]

/-- A source that answers with an error: the reader gets nothing else from it,
and the error. -/
theorem loop_error {s' : σ} {e : ε} {offset : ℤ} {wanted : Option ℤ}
    (hfetch : fetch s offset (limit size wanted) = (.error e, s')) (pages : ℕ) :
    loop fetch key size (pages + 1) s offset wanted = some ([], some e, s') := by
  rw [loop, hfetch]

end Loop

end Paging
