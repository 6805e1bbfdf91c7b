import Mathlib.Data.List.Sort
import Mathlib.Order.Nat

/-!
# Binary search for an insertion point

`bisectRight a x key` halves the interval `[lo, hi)` of candidate insertion
points until one is left. On a list sorted by `key` the answer is the number
of entries at or before `x` (`key_le_of_lt_bisectRight`,
`lt_key_of_bisectRight_le`).

## Lists that are not sorted

On a list that is *not* sorted the answer still says something: the entry just
before it was compared and was not after `x` (`key_le_of_bisectRight`),
because `lo` only ever moves past an entry that was compared. A caller that
reads its list from a file nobody vouches for – a table of hints, say – has no
order to rely on, and this one fact is what is left to it. The order is
therefore a hypothesis of the results in the section `Sorted` and of no
others.

## How the loop is reasoned about

The loop has one rule, `bisectLoop_inv`: a property of `lo` that survives
moving past an entry at or before `x` holds of the answer, and so does a
property of `hi` that survives moving down to an entry after `x`. Every result
below is that rule at two properties. The loop itself is unfolded in the proof
of the rule and nowhere else, so that a search that halves differently would
need this one proof again and no other.

Keys are of any linear order, and `key` is any function to them: a list of
pairs is searched by its first components, and a list of keys by the identity.
-/

namespace Bisect

variable {α κ : Type*} [LinearOrder κ]

/-- The loop: `lo` and `hi` enclose the insertion point, and the entry in the
middle says which half to go on with. The middle is in the list as long as
`hi` is at most its length; a middle that is not ends the search. -/
def bisectLoop (a : List α) (x : κ) (key : α → κ) (lo hi : ℕ) : ℕ :=
  if lo < hi then
    match a[(lo + hi) / 2]? with
    | some e =>
      if x < key e then bisectLoop a x key lo ((lo + hi) / 2)
      else bisectLoop a x key ((lo + hi) / 2 + 1) hi
    | none => lo
  else lo
termination_by hi - lo

/-- Where to insert `x` so that it comes after any equal entry: the search
over the whole list. -/
def bisectRight (a : List α) (x : κ) (key : α → κ) : ℕ :=
  bisectLoop a x key 0 a.length

/-- **What the loop keeps**: any property of `lo` that moving past an entry
at or before `x` preserves holds of the answer, and dually for `hi`. -/
theorem bisectLoop_inv (a : List α) (x : κ) (key : α → κ) (P Q : ℕ → Prop)
    (hP : ∀ m e, a[m]? = some e → key e ≤ x → P (m + 1))
    (hQ : ∀ m e, a[m]? = some e → x < key e → Q m)
    (lo hi : ℕ) (hlo : P lo) (hhi : Q hi) (hle : lo ≤ hi) (hlen : hi ≤ a.length) :
    P (bisectLoop a x key lo hi) ∧ Q (bisectLoop a x key lo hi)
      ∧ bisectLoop a x key lo hi ≤ a.length := by
  induction lo, hi using bisectLoop.induct a x key with
  | case1 lo hi hlt e he hx ih =>
    rw [bisectLoop, if_pos hlt, he]
    simp only [if_pos hx]
    exact ih hlo (hQ _ e he hx) (by omega) (by omega)
  | case2 lo hi hlt e he hx ih =>
    rw [bisectLoop, if_pos hlt, he]
    simp only [if_neg hx]
    exact ih (hP _ e he (not_lt.mp hx)) hhi (by omega) (by omega)
  | case3 lo hi hlt hnone =>
    have := List.getElem?_eq_none_iff.mp hnone
    omega
  | case4 lo hi hnlt =>
    have heq : lo = hi := by omega
    subst heq
    rw [bisectLoop, if_neg hnlt]
    exact ⟨hlo, hhi, hlen⟩

/-- The insertion point is in the list, or just behind it. -/
theorem bisectRight_le_length (a : List α) (x : κ) (key : α → κ) :
    bisectRight a x key ≤ a.length :=
  (bisectLoop_inv a x key (fun _ => True) (fun _ => True) (fun _ _ _ _ => trivial)
    (fun _ _ _ _ => trivial) 0 a.length trivial trivial (Nat.zero_le _) le_rfl).2.2

/-- **On any list**, sorted or not, the entry before the insertion point is
at or before `x`. -/
theorem key_le_of_bisectRight {a : List α} {x : κ} {key : α → κ} {i : ℕ}
    (h : bisectRight a x key = i + 1) : ∃ e, a[i]? = some e ∧ key e ≤ x := by
  have hinv := (bisectLoop_inv a x key
    (fun m => ∀ j, m = j + 1 → ∃ e, a[j]? = some e ∧ key e ≤ x) (fun _ => True)
    (fun m e he hx j hj => ⟨e, by rwa [← Nat.succ.inj hj], hx⟩)
    (fun _ _ _ _ => trivial) 0 a.length (fun j hj => absurd hj (by omega)) trivial
    (Nat.zero_le _) le_rfl).1
  exact hinv i h

section Sorted

variable {a : List α} {key : α → κ} (hs : a.Pairwise (fun e e' => key e ≤ key e'))
include hs

/-- On a sorted list, entries before the insertion point are at or before `x`:
each is at or before one that was compared. -/
theorem key_le_of_lt_bisectRight (x : κ) {j : ℕ} (hj : j < bisectRight a x key)
    {e : α} (he : a[j]? = some e) : key e ≤ x := by
  have hinv := (bisectLoop_inv a x key
    (fun m => ∀ j < m, ∀ e, a[j]? = some e → key e ≤ x) (fun _ => True)
    (fun m e he hx j hj e' he' => by
      rcases Nat.lt_succ_iff_lt_or_eq.mp hj with hlt | rfl
      · obtain ⟨hj', rfl⟩ := List.getElem?_eq_some_iff.mp he'
        obtain ⟨hm, rfl⟩ := List.getElem?_eq_some_iff.mp he
        exact (List.pairwise_iff_getElem.mp hs j m hj' hm hlt).trans hx
      · cases he.symm.trans he'
        exact hx)
    (fun _ _ _ _ => trivial) 0 a.length (fun j hj => absurd hj (by omega)) trivial
    (Nat.zero_le _) le_rfl).1
  exact hinv j hj e he

/-- On a sorted list, entries from the insertion point on are after `x`: each
is at or past one that was compared. -/
theorem lt_key_of_bisectRight_le (x : κ) {j : ℕ} (hj : bisectRight a x key ≤ j)
    {e : α} (he : a[j]? = some e) : x < key e := by
  have hinv := (bisectLoop_inv a x key (fun _ => True)
    (fun m => ∀ j, m ≤ j → ∀ e, a[j]? = some e → x < key e)
    (fun _ _ _ _ => trivial)
    (fun m e he hx j hj e' he' => by
      rcases hj.lt_or_eq with hlt | rfl
      · obtain ⟨hj', rfl⟩ := List.getElem?_eq_some_iff.mp he'
        obtain ⟨hm, rfl⟩ := List.getElem?_eq_some_iff.mp he
        exact hx.trans_le (List.pairwise_iff_getElem.mp hs m j hm hj' hlt)
      · cases he.symm.trans he'
        exact hx)
    0 a.length trivial
    (fun j hj e he => by
      have := List.getElem?_eq_none_iff.mpr hj
      rw [this] at he; cases he)
    (Nat.zero_le _) le_rfl).2.1
  exact hinv j hj e he

/-- **A search that finds something**: where the first entry is at or before
`x`, the one before the insertion point is the last such. -/
theorem exists_last (x : κ) {e₀ : α} (h₀ : a[0]? = some e₀) (hle : key e₀ ≤ x) :
    ∃ i e, bisectRight a x key = i + 1 ∧ a[i]? = some e ∧ key e ≤ x
      ∧ ∀ j e', i < j → a[j]? = some e' → x < key e' := by
  cases hi : bisectRight a x key with
  | zero => exact absurd hle (not_le.mpr (lt_key_of_bisectRight_le hs x hi.le h₀))
  | succ i =>
    obtain ⟨e, he, hx⟩ := key_le_of_bisectRight hi
    exact ⟨i, e, rfl, he, hx, fun j e' hlt he' =>
      lt_key_of_bisectRight_le hs x (hi.trans_le hlt) he'⟩

end Sorted

end Bisect
