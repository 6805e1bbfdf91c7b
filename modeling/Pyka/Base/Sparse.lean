import Mathlib.Algebra.BigOperators.Group.List.Basic
import Mathlib.Algebra.Order.Ring.Nat
import Pyka.Base.Bisect

/-!
# Sparse tables of places

Things of different sizes, one behind the other. A sparse table has an entry –
a thing's number and the place where it starts – whenever `interval` or more
has passed since the last entry, or since place 0 where there is none. It
depends on the sizes only, can be made from the front on as things come
(`Sparse.entries_append`), and the last entry at or before a thing is less
than `interval` before it (`Sparse.near`).

The definition carries the place of the last entry, the number of the next
thing and the place where it starts: these are what a program that makes the
table has at hand when a thing comes. Nothing is put into the table for the
things between two entries, and nothing need be, since a reader that starts at
an entry finds them by walking. How far it has to walk is what `near` bounds;
that the walk is in the right direction is `pairwise`, since a table whose
entries increase can be searched by halves.

A thing that is larger than the interval has the next thing behind it in the
table, but has no more than one entry itself: entries are for starts, and the
table is no finer than the things.
-/

namespace Sparse

variable {interval : ℕ}

/-- **The entries for things of these sizes**, the first of which is number `n`
and starts at `pos`, where the last entry before it is for the place `last`. -/
def entries (interval : ℕ) : ℕ → ℕ → ℕ → List ℕ → List (ℕ × ℕ)
  | _, _, _, [] => []
  | last, n, pos, size :: sizes =>
    if last + interval ≤ pos then (n, pos) :: entries interval pos (n + 1) (pos + size) sizes
    else entries interval last (n + 1) (pos + size) sizes

/-- The place of the last entry, or of the last one from before where there is
none. -/
def lastPlace (last : ℕ) (es : List (ℕ × ℕ)) : ℕ := (es.getLast?.map Prod.snd).getD last

/-- An entry in front is the last one where no other follows. -/
theorem lastPlace_cons (last : ℕ) (e : ℕ × ℕ) (es : List (ℕ × ℕ)) :
    lastPlace last (e :: es) = lastPlace e.2 es := by
  unfold lastPlace
  cases es with
  | nil => rfl
  | cons e' es => rw [List.getLast?_cons_cons, List.getLast?_cons]; rfl

/-- **A table grows at its end**: for things that come later it goes on from
its last entry, and what it has stays. -/
theorem entries_append (last n pos : ℕ) (sizes sizes' : List ℕ) :
    entries interval last n pos (sizes ++ sizes') = entries interval last n pos sizes
      ++ entries interval (lastPlace last (entries interval last n pos sizes)) (n + sizes.length)
          (pos + sizes.sum) sizes' := by
  induction sizes generalizing last n pos with
  | nil => rfl
  | cons size sizes ih =>
    rw [List.cons_append, entries, entries, List.length_cons, List.sum_cons,
      show n + (sizes.length + 1) = n + 1 + sizes.length by omega, ← Nat.add_assoc pos]
    split_ifs with h
    · rw [ih, lastPlace_cons, List.cons_append]
    · exact ih ..

/-- An entry is for one of the things: not before the first, in number or
place. -/
theorem le_of_mem {last n pos : ℕ} {sizes : List ℕ} {e : ℕ × ℕ}
    (he : e ∈ entries interval last n pos sizes) : n ≤ e.1 ∧ pos ≤ e.2 := by
  induction sizes generalizing last n pos with
  | nil => cases he
  | cons size sizes ih =>
    rw [entries] at he
    split_ifs at he with h
    · rcases List.mem_cons.mp he with rfl | he
      · exact ⟨le_rfl, le_rfl⟩
      · have := ih he
        omega
    · have := ih he
      omega

/-- **Entries increase**, in their numbers and in their places. -/
theorem pairwise {last n pos : ℕ} {sizes : List ℕ} (hpos : ∀ size ∈ sizes, 0 < size) :
    (entries interval last n pos sizes).Pairwise fun e e' => e.1 < e'.1 ∧ e.2 < e'.2 := by
  induction sizes generalizing last n pos with
  | nil => exact .nil
  | cons size sizes ih =>
    obtain ⟨hsize, hpos⟩ := List.forall_mem_cons.mp hpos
    rw [entries]
    split_ifs with h
    · refine List.pairwise_cons.mpr ⟨fun e he => ?_, ih hpos⟩
      have := le_of_mem he
      omega
    · exact ih hpos

/-- **Less than an interval before every thing** there is an entry at or before
it, or the last one from before. -/
theorem near (last n pos : ℕ) {sizes : List ℕ} (hinterval : 0 < interval) {i : ℕ}
    (hi : i < sizes.length) :
    pos + (sizes.take i).sum < last + interval
      ∨ ∃ e ∈ entries interval last n pos sizes, e.1 ≤ n + i
          ∧ pos + (sizes.take i).sum < e.2 + interval := by
  induction sizes generalizing last n pos i with
  | nil => cases hi
  | cons size sizes ih =>
    rw [entries]
    cases i with
    | zero =>
      rw [List.take_zero, List.sum_nil, Nat.add_zero, Nat.add_zero]
      split_ifs with h
      · exact Or.inr ⟨(n, pos), List.mem_cons_self, le_rfl, by omega⟩
      · exact Or.inl (by omega)
    | succ i =>
      rw [List.take_succ_cons, List.sum_cons, ← Nat.add_assoc, show n + (i + 1) = n + 1 + i by
        omega]
      split_ifs with h
      · have hnear : pos + size + (sizes.take i).sum < pos + interval
            ∨ ∃ e ∈ entries interval pos (n + 1) (pos + size) sizes, e.1 ≤ n + 1 + i
                ∧ pos + size + (sizes.take i).sum < e.2 + interval :=
          ih _ _ _ (Nat.lt_of_succ_lt_succ hi)
        rcases hnear with hlt | ⟨e, he, hle, hlt⟩
        · exact Or.inr ⟨(n, pos), List.mem_cons_self, by omega, hlt⟩
        · exact Or.inr ⟨e, List.mem_cons_of_mem _ he, hle, hlt⟩
      · exact ih _ _ _ (Nat.lt_of_succ_lt_succ hi)

end Sparse
