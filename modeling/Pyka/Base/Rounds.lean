import Mathlib.Data.List.Perm.Subperm
import Mathlib.Data.List.Nodup
import Mathlib.Order.MinMax
import Mathlib.Algebra.Order.Group.Nat

/-!
# Rounds

Things handed out to `n` places, one after the other. At every moment no place
is two ahead of another exactly when each round of `n` goes to different
places (`Rounds.level_iff`).

Two readings of an even distribution meet here. `Level` is what someone sees
who looks at the places at one moment, and counts; it says nothing of the
order. `Fair` is about the order: cut the sequence into rounds of `n`, and
none of them goes to a place twice, the last one being allowed to be short.
Neither implies the other for a single moment, but to be level *at every
moment* is to be fair. In one direction, a round that is over has put one
thing into each place, so the count of a place differs from that of another by
what the unfinished round has put there; in the other, the first place to come
twice within a round is two ahead of one that has not come in it.

The places are `0` to `n - 1`, and what is handed out is not looked at. A
distribution that only some of the calls take part in is looked at through
those (`Rounds.forall_take_filterMap`).
-/

namespace Rounds

variable {n : ℕ} {xs ys zs : List ℕ}

/-- **No place is two ahead of another**, at the moment at which these things
are handed out. -/
def Level (n : ℕ) (xs : List ℕ) : Prop := ∀ a < n, ∀ b < n, xs.count a ≤ xs.count b + 1

/-- **Every round goes to different places**, the last one as far as it has
come. -/
def Fair (n : ℕ) (xs : List ℕ) : Prop := ∀ r, ((xs.drop (r * n)).take n).Nodup

instance : Decidable (Level n xs) :=
  inferInstanceAs (Decidable (∀ a < n, ∀ b < n, xs.count a ≤ xs.count b + 1))

/-- Where no place has come twice, none is two ahead. -/
theorem level_of_nodup (h : xs.Nodup) : Level n xs := fun a _ _ _ =>
  Nat.le_trans (List.nodup_iff_count_le_one.mp h a) (Nat.le_add_left 1 _)

/-- A round that is over leaves the others as they are, and is fair on its
own. -/
theorem fair_append (hlen : ys.length = n) : Fair n (ys ++ zs) ↔ ys.Nodup ∧ Fair n zs := by
  have hfirst : ((ys ++ zs).drop (0 * n)).take n = ys := by
    rw [Nat.zero_mul, List.drop_zero, List.take_left' hlen]
  have hlater : ∀ r, ((ys ++ zs).drop ((r + 1) * n)).take n = (zs.drop (r * n)).take n :=
      fun r => by
    subst hlen
    rw [Nat.succ_mul, Nat.add_comm, ← List.drop_drop, List.drop_left]
  constructor
  · exact fun h => ⟨hfirst ▸ h 0, fun r => hlater r ▸ h (r + 1)⟩
  · rintro ⟨hys, hzs⟩ r
    cases r with
    | zero => rwa [hfirst]
    | succ r => exact hlater r ▸ hzs r

/-- In a round that is not over, to be fair is to have no place twice. -/
theorem fair_of_length_le (hlen : xs.length ≤ n) : Fair n xs ↔ xs.Nodup := by
  constructor
  · intro h
    have hzero := h 0
    rwa [Nat.zero_mul, List.drop_zero, List.take_of_length_le hlen] at hzero
  · intro h r
    exact (h.sublist (List.drop_sublist _ _)).sublist (List.take_sublist _ _)

/-- Within the first round, a place cannot be two ahead. -/
theorem nodup_of_level (hxs : ∀ x ∈ xs, x < n) (hlen : xs.length ≤ n) (h : Level n xs) :
    xs.Nodup := by
  refine List.nodup_iff_count_le_one.mpr fun x => ?_
  by_contra htwo
  have hx : x ∈ xs := List.count_pos_iff.mp (by omega)
  -- every place has been taken, and one of them twice
  have hsub : (x :: List.range n).Subperm xs := by
    refine List.subperm_ext_iff.mpr fun y hy => ?_
    rw [List.count_cons, List.nodup_range.count]
    have hyn : y < n := by
      rcases List.mem_cons.mp hy with rfl | hy
      · exact hxs y hx
      · exact List.mem_range.mp hy
    rw [if_pos (List.mem_range.mpr hyn)]
    by_cases hxy : x = y
    · subst hxy
      rw [if_pos (beq_self_eq_true x)]
      omega
    · have hone := h x (hxs x hx) y hyn
      rw [if_neg fun heq => hxy (eq_of_beq heq)]
      omega
  have hle := hsub.length_le
  rw [List.length_cons, List.length_range] at hle
  omega

/-- In a whole round of different places each comes once. -/
theorem count_round (hxs : ∀ x ∈ xs, x < n) (hlen : xs.length = n) (h : xs.Nodup) {a : ℕ}
    (ha : a < n) : xs.count a = 1 := by
  have hperm : xs.Perm (List.range n) :=
    (List.subperm_of_subset h fun x hx => List.mem_range.mpr (hxs x hx)).perm_of_length_le
      (by rw [List.length_range, hlen])
  rw [hperm.count_eq, List.nodup_range.count, if_pos (List.mem_range.mpr ha)]

/-- **No place is ever two ahead exactly where every round is fair.** -/
theorem level_iff (hxs : ∀ x ∈ xs, x < n) : (∀ k, Level n (xs.take k)) ↔ Fair n xs := by
  induction hlen : xs.length using Nat.strong_induction_on generalizing xs with
  | _ len ih =>
    subst hlen
    by_cases hshort : xs.length ≤ n
    · rw [fair_of_length_le hshort]
      constructor
      · intro h
        have hall := h xs.length
        rw [List.take_length] at hall
        exact nodup_of_level hxs hshort hall
      · exact fun h k => level_of_nodup (h.sublist (List.take_sublist _ _))
    · rw [not_le] at hshort
      have hlen : (xs.take n).length = n := by rw [List.length_take, min_eq_left hshort.le]
      have hfirst : ∀ x ∈ xs.take n, x < n := fun x hx => hxs x (List.mem_of_mem_take hx)
      have hrest : ∀ x ∈ xs.drop n, x < n := fun x hx => hxs x (List.mem_of_mem_drop hx)
      have hn : 0 < n := by
        obtain ⟨x, hx⟩ := List.exists_mem_of_length_pos ((Nat.zero_le n).trans_lt hshort)
        exact (Nat.zero_le x).trans_lt (hxs x hx)
      have hih := ih (xs.drop n).length (by rw [List.length_drop]; omega) hrest rfl
      -- after the first round there is one more in each place
      have hlater : xs.take n |>.Nodup → ∀ k,
          Level n (xs.take (n + k)) ↔ Level n ((xs.drop n).take k) := fun hnodup k => by
        unfold Level
        rw [List.take_add]
        simp only [List.count_append]
        constructor
        · intro h a ha b hb
          have hab := h a ha b hb
          rw [count_round hfirst hlen hnodup ha, count_round hfirst hlen hnodup hb] at hab
          omega
        · intro h a ha b hb
          rw [count_round hfirst hlen hnodup ha, count_round hfirst hlen hnodup hb]
          have hab := h a ha b hb
          omega
      conv_rhs => rw [← List.take_append_drop n xs, fair_append hlen, ← hih]
      constructor
      · intro h
        have hnodup := nodup_of_level hfirst hlen.le (h n)
        exact ⟨hnodup, fun k => (hlater hnodup k).mp (h (n + k))⟩
      · rintro ⟨hnodup, h⟩ k
        rcases Nat.le_total k n with hk | hk
        · refine level_of_nodup (hnodup.sublist ?_)
          rw [← min_eq_left hk, ← List.take_take]
          exact List.take_sublist _ _
        · obtain ⟨k, rfl⟩ := Nat.exists_eq_add_of_le hk
          exact (hlater hnodup k).mpr (h k)

/-- What is kept of the parts of a sequence is the parts of what is kept, so a
statement about every moment can be made about either. -/
theorem forall_take_filterMap {α β : Type*} {f : α → Option β} {P : List β → Prop} {l : List α} :
    (∀ k, P ((l.take k).filterMap f)) ↔ ∀ k, P ((l.filterMap f).take k) := by
  constructor
  · intro h k
    obtain ⟨l', hl', heq⟩ := List.prefix_filterMap_iff.mp (List.take_prefix k (l.filterMap f))
    rw [heq, List.prefix_iff_eq_take.mp hl']
    exact h _
  · intro h k
    rw [List.prefix_iff_eq_take.mp ((List.take_prefix k l).filterMap f)]
    exact h _

end Rounds
