import Mathlib.Data.Prod.Lex
import Pyka.Base.Bisect

/-!
# The next point on a circle

Points with a key and a label, on a circle that is walked by increasing key
and, past the largest, starts over. `next points x h` is the first of them
after `x`: a binary search among the sorted keys, wrapping around at the end.
Points with one key are told apart by their labels, so that which of two
colliding points comes first does not depend on the order they were put on the
circle in.

## What is next, without the search

`IsNext S x p` says of a *set* of points which one comes next, in two cases:
it is the least of the points after `x`, or there are none after `x` and it is
the least of all. There is one such point at most (`IsNext.unique`), and the
search finds it (`next_isNext`). Everything else is about `IsNext`, so the
sorting and the halving are behind this one theorem.

## Points that are added

A point that is next among some points is next among fewer of them, as long as
it is one of those (`IsNext.mono`). Read the other way round this is what
consistent hashing is for: when points are added, what was next stays next
unless one of the added points is now next itself (`next_of_subset`).
-/

namespace Circle

variable {κ β : Type*} [LinearOrder κ] [LinearOrder β]

/-- **The first point of a set after `x`**, or the first of all where none is.
The order is that of the pairs: by key, and by label where keys are equal. -/
def IsNext (S : Set (κ × β)) (x : κ) (p : κ × β) : Prop :=
  p ∈ S ∧ ((x < p.1 ∧ ∀ q ∈ S, x < q.1 → toLex p ≤ toLex q)
    ∨ ((∀ q ∈ S, q.1 ≤ x) ∧ ∀ q ∈ S, toLex p ≤ toLex q))

namespace IsNext

variable {S T : Set (κ × β)} {x : κ} {p q : κ × β}

/-- **Fewer points**: what is next among all of them is next among those it
is one of. -/
theorem mono (h : IsNext T x p) (hST : S ⊆ T) (hp : p ∈ S) : IsNext S x p := by
  obtain ⟨-, ⟨hlt, hmin⟩ | ⟨hall, hmin⟩⟩ := h
  · exact ⟨hp, Or.inl ⟨hlt, fun q hq => hmin q (hST hq)⟩⟩
  · exact ⟨hp, Or.inr ⟨fun q hq => hall q (hST hq), fun q hq => hmin q (hST hq)⟩⟩

/-- There is one next point at most: of two candidates each is at or before
the other. -/
theorem unique (hp : IsNext S x p) (hq : IsNext S x q) : p = q := by
  have hle : ∀ {p q}, IsNext S x p → IsNext S x q → toLex p ≤ toLex q := by
    rintro p q ⟨hp, ⟨hlt, hmin⟩ | ⟨hall, hmin⟩⟩ ⟨hq, hq'⟩
    · refine hmin q hq ?_
      rcases hq' with ⟨hlt', -⟩ | ⟨hall', -⟩
      · exact hlt'
      · exact absurd hlt (not_lt.mpr (hall' p hp))
    · exact hmin q hq
  exact toLex.injective (le_antisymm (hle hp hq) (hle hq hp))

end IsNext

/-- The points of a list in the order of the circle. -/
def sorted (points : List (κ × β)) : List (κ × β) :=
  points.insertionSort fun p q => toLex p ≤ toLex q

/-- Sorting neither adds a point nor drops one. -/
theorem mem_sorted {points : List (κ × β)} {p : κ × β} : p ∈ sorted points ↔ p ∈ points :=
  (List.perm_insertionSort _ points).mem_iff

/-- Sorting keeps the number of points, those that are there twice included. -/
theorem length_sorted (points : List (κ × β)) : (sorted points).length = points.length :=
  List.length_insertionSort _ points

theorem sorted_pairwise (points : List (κ × β)) :
    (sorted points).Pairwise fun p q => toLex p ≤ toLex q :=
  List.pairwise_insertionSort _ points

/-- Points of smaller index come before: the sorted list, read by positions
rather than as a pairwise relation. -/
theorem sorted_le {points : List (κ × β)} {i j : ℕ} {p q : κ × β}
    (hp : (sorted points)[i]? = some p) (hq : (sorted points)[j]? = some q) (hij : i ≤ j) :
    toLex p ≤ toLex q := by
  rcases hij.lt_or_eq with hlt | rfl
  · obtain ⟨hi, rfl⟩ := List.getElem?_eq_some_iff.mp hp
    obtain ⟨hj, rfl⟩ := List.getElem?_eq_some_iff.mp hq
    exact List.pairwise_iff_getElem.mp (sorted_pairwise points) i j hi hj hlt
  · cases hp.symm.trans hq
    exact le_rfl

/-- **Walk from `x` to the next point**: search among the keys, and start over
at the first point where the search comes out behind the last one. -/
def next (points : List (κ × β)) (x : κ) (h : 0 < points.length) : κ × β :=
  let circle := sorted points
  let index := Bisect.bisectRight (circle.map Prod.fst) x id
  circle.get ⟨index % circle.length, Nat.mod_lt _ (by rwa [length_sorted])⟩

/-- **The search finds the next point.** Where it comes out inside the list
the point there is the least of those after `x`; where it comes out at the end
no point is after `x`, and the remainder is `0`. -/
theorem next_isNext (points : List (κ × β)) (x : κ) (h : 0 < points.length) :
    IsNext {p | p ∈ points} x (next points x h) := by
  obtain ⟨i, hi⟩ : ∃ i, i = Bisect.bisectRight ((sorted points).map Prod.fst) x id := ⟨_, rfl⟩
  have hlen : 0 < (sorted points).length := by rwa [length_sorted]
  have hget : (sorted points)[i % (sorted points).length]? = some (next points x h) := by
    rw [List.getElem?_eq_getElem (Nat.mod_lt _ hlen)]
    simp only [next, ← hi, List.get_eq_getElem]
  have hle : i ≤ (sorted points).length := by
    simpa [← hi] using Bisect.bisectRight_le_length ((sorted points).map Prod.fst) x id
  have hkeys : ((sorted points).map Prod.fst).Pairwise fun a b => id a ≤ id b :=
    List.pairwise_map.mpr ((sorted_pairwise points).imp fun hpq =>
      (Prod.Lex.le_iff.mp hpq).elim le_of_lt fun heq => heq.1.le)
  have hbefore : ∀ {j q}, j < i → (sorted points)[j]? = some q → q.1 ≤ x := by
    intro j q hj hq
    exact Bisect.key_le_of_lt_bisectRight hkeys x (hi ▸ hj)
      (by rw [List.getElem?_map, hq]; rfl)
  have hafter : ∀ {j q}, i ≤ j → (sorted points)[j]? = some q → x < q.1 := by
    intro j q hj hq
    exact Bisect.lt_key_of_bisectRight_le hkeys x (hi ▸ hj)
      (by rw [List.getElem?_map, hq]; rfl)
  have hmem : ∀ {q}, q ∈ points → ∃ j, (sorted points)[j]? = some q := fun hq =>
    List.mem_iff_getElem?.mp (mem_sorted.mpr hq)
  refine ⟨mem_sorted.mp (List.mem_of_getElem? hget), ?_⟩
  rcases hle.lt_or_eq with hlt | heq
  · rw [Nat.mod_eq_of_lt hlt] at hget
    refine Or.inl ⟨hafter le_rfl hget, fun q hq hxq => ?_⟩
    obtain ⟨j, hj⟩ := hmem hq
    refine sorted_le hget hj (not_lt.mp fun hji => ?_)
    exact absurd hxq (not_lt.mpr (hbefore hji hj))
  · -- past the last point the walk starts over
    rw [heq, Nat.mod_self] at hget
    refine Or.inr ⟨fun q hq => ?_, fun q hq => ?_⟩
    · obtain ⟨j, hj⟩ := hmem hq
      have hjlen := (List.getElem?_eq_some_iff.mp hj).1
      exact hbefore (by omega) hj
    · obtain ⟨j, hj⟩ := hmem hq
      exact sorted_le hget hj (Nat.zero_le j)

/-- **More points take over from fewer only where they are next themselves.** -/
theorem next_of_subset {points more : List (κ × β)} (x : κ) (h : 0 < points.length)
    (hmore : 0 < more.length) (hsub : points ⊆ more) (hmem : next more x hmore ∈ points) :
    next points x h = next more x hmore :=
  (next_isNext points x h).unique ((next_isNext more x hmore).mono (fun _ hp => hsub hp) hmem)

end Circle
