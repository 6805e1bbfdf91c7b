import Mathlib.Data.List.Basic
import Mathlib.Data.List.TakeDrop
import Mathlib.Data.List.Flatten
import Mathlib.Order.Nat

/-!
# Self-delimiting frames

Items written one after the other with nothing between them, and a reader that
takes one item off the front of a sequence. The reader answers in three ways:
an item, *torn* (`.ok none`, the sequence may be the start of an item whose
rest is missing), or an error.

## What a framing promises

`Framing` packs the reader with what one read does: it finds an item exactly
where the item's frame stands, a frame that stops early is torn and not an
error, and what starts like something torn is torn. Nothing is asked of what
the reader says where neither a frame nor the start of one stands; there it
may raise or call the rest torn, as its format has it.

## What follows

Everything a log file needs follows from what one read does. A sequence has at
most one decomposition into frames and a rest that starts no frame
(`scan_unique`), the greedy scan finds it (`scan_encAll_append`), and cutting
a sequence of frames anywhere leaves whole frames followed by a torn rest, the
frames being those that fit (`take_encAll`). How many fit is a number of its
own, `whole`, with a characterization that does not mention the scan
(`le_whole_iff`): a crash that cuts a file after some number of bytes is then
accounted for by counting, before anything is read.

Frames have any length, and no frame is empty, since nothing at all reads as
torn. The items that can be written are a predicate of the framing rather than
a type: a program writes values of its own type, and refuses those that do not
fit.
-/

/-- **A framing**: how an item is written, which items may be, and a
reader that recognizes exactly them. -/
structure Framing (α β ε : Type*) where
  /-- The items that can be written. -/
  Valid : α → Prop
  /-- The frame of an item. -/
  enc : α → List β
  /-- Take one item off the front. -/
  read : List β → Except ε (Option α)
  /-- The reader finds an item exactly where its frame stands. -/
  read_some : ∀ bs a, read bs = .ok (some a) ↔ Valid a ∧ enc a <+: bs
  /-- A frame that stops early is torn, not an error. -/
  read_torn : ∀ a t, Valid a → t <+: enc a → t ≠ enc a → read t = .ok none
  /-- What starts like something torn is torn. -/
  torn_take : ∀ t k, read t = .ok none → read (t.take k) = .ok none
  /-- Nothing is torn. -/
  read_nil : read [] = .ok none

namespace Framing

variable {α β ε : Type*} (F : Framing α β ε)

/-- The frames of a list of items, one after the other. -/
def encAll (as : List α) : List β := as.flatMap F.enc

@[simp] theorem encAll_nil : F.encAll [] = [] := rfl

@[simp] theorem encAll_cons (a : α) (as : List α) :
    F.encAll (a :: as) = F.enc a ++ F.encAll as := List.flatMap_cons

@[simp] theorem encAll_append (as as' : List α) :
    F.encAll (as ++ as') = F.encAll as ++ F.encAll as' := List.flatMap_append

/-- The first frames and the rest of them are all of the frames. -/
theorem encAll_take_append_drop (as : List α) (n : ℕ) :
    F.encAll (as.take n) ++ F.encAll (as.drop n) = F.encAll as := by
  rw [← encAll_append, List.take_append_drop]

/-- The reader finds the item whose frame is in front, whatever follows it. -/
theorem read_enc_append {a : α} (h : F.Valid a) (s : List β) :
    F.read (F.enc a ++ s) = .ok (some a) :=
  (F.read_some _ a).mpr ⟨h, List.prefix_append _ _⟩

/-- No frame is empty, since nothing reads as torn. -/
theorem enc_ne_nil {a : α} (h : F.Valid a) : F.enc a ≠ [] := by
  intro hnil
  have hread := F.read_enc_append h []
  rw [hnil, List.append_nil, F.read_nil] at hread
  cases hread

theorem enc_pos {a : α} (h : F.Valid a) : 0 < (F.enc a).length :=
  List.length_pos_iff.mpr (F.enc_ne_nil h)

/-- **Frames are a prefix code**: one sequence starts with the frame of
one item. -/
theorem eq_of_enc_prefix {a a' : α} {bs : List β} (h : F.Valid a)
    (h' : F.Valid a') (hp : F.enc a <+: bs) (hp' : F.enc a' <+: bs) : a = a' := by
  have hr := (F.read_some bs a).mpr ⟨h, hp⟩
  rw [(F.read_some bs a').mpr ⟨h', hp'⟩] at hr
  exact (Option.some.inj (Except.ok.inj hr)).symm

/-- Items with one frame are one item. -/
theorem enc_injective {a a' : α} (h : F.Valid a) (h' : F.Valid a')
    (he : F.enc a = F.enc a') : a = a' :=
  F.eq_of_enc_prefix h h' (List.prefix_refl _) (he ▸ List.prefix_refl _)

/-- Every place of a sequence of frames is in one of them: the items before
it, the item it is in and the items behind it. -/
theorem exists_enc_of_lt {as : List α} {i : ℕ} (h : i < (F.encAll as).length) :
    ∃ as₁ a as₂, as = as₁ ++ a :: as₂ ∧ (F.encAll as₁).length ≤ i
      ∧ i < (F.encAll as₁).length + (F.enc a).length := by
  induction as generalizing i with
  | nil => exact absurd h (Nat.not_lt_zero i)
  | cons a as ih =>
    rw [encAll_cons, List.length_append] at h
    by_cases hi : i < (F.enc a).length
    · exact ⟨[], a, as, rfl, Nat.zero_le _, by simpa using hi⟩
    · obtain ⟨as₁, a', as₂, rfl, hle, hlt⟩ := @ih (i - (F.enc a).length) (by omega)
      refine ⟨a :: as₁, a', as₂, rfl, ?_, ?_⟩ <;> rw [encAll_cons, List.length_append] <;> omega

/-- And in one only, so that a place that is changed changes one frame. -/
theorem enc_unique {as₁ as₂ as₁' as₂' : List α} {a a' : α} {i : ℕ}
    (heq : as₁ ++ a :: as₂ = as₁' ++ a' :: as₂') (hlo : (F.encAll as₁).length ≤ i)
    (hhi : i < (F.encAll as₁).length + (F.enc a).length) (hlo' : (F.encAll as₁').length ≤ i)
    (hhi' : i < (F.encAll as₁').length + (F.enc a').length) :
    as₁ = as₁' ∧ a = a' ∧ as₂ = as₂' := by
  rcases List.append_eq_append_iff.mp heq with ⟨u, rfl, hu⟩ | ⟨u, rfl, hu⟩
  · cases u with
    | nil =>
      obtain ⟨rfl, rfl⟩ := List.cons_eq_cons.mp hu
      exact ⟨(List.append_nil _).symm, rfl, rfl⟩
    | cons b u =>
      obtain ⟨rfl, -⟩ := List.cons_eq_cons.mp hu
      rw [encAll_append, encAll_cons, List.length_append, List.length_append] at hlo'
      omega
  · cases u with
    | nil =>
      obtain ⟨rfl, rfl⟩ := List.cons_eq_cons.mp hu
      exact ⟨List.append_nil _, rfl, rfl⟩
    | cons b u =>
      obtain ⟨rfl, -⟩ := List.cons_eq_cons.mp hu
      rw [encAll_append, encAll_cons, List.length_append, List.length_append] at hlo
      omega

/-! ## The greedy scan

The scan takes items off the front for as long as the reader finds one. It is
total, since no frame is empty, and it does not tell a torn rest from an
error: what the rest is, is for the caller to ask. -/

theorem drop_enc_lt {a : α} {bs : List β} (h : F.read bs = .ok (some a)) :
    (bs.drop (F.enc a).length).length < bs.length := by
  obtain ⟨hv, hp⟩ := (F.read_some bs a).mp h
  have hpos := F.enc_pos hv
  have hle := hp.length_le
  rw [List.length_drop]
  omega

/-- Take items off the front until the reader finds none; what is left is
the second component. -/
def scan (bs : List β) : List α × List β :=
  match _h : F.read bs with
  | .ok (some a) =>
    let next := scan (bs.drop (F.enc a).length)
    (a :: next.1, next.2)
  | _ => ([], bs)
termination_by bs.length
decreasing_by exact F.drop_enc_lt _h

/-- Where the reader finds no item the scan stops, and all is left over. -/
theorem scan_of_read_ne_some {t : List β}
    (h : ∀ a, F.read t ≠ .ok (some a)) : F.scan t = ([], t) := by
  rw [scan]
  split
  · next a ha => exact absurd ha (h a)
  · rfl

/-- One frame in front is one item in front. -/
theorem scan_enc_append {a : α} (h : F.Valid a) (s : List β) :
    F.scan (F.enc a ++ s) = (a :: (F.scan s).1, (F.scan s).2) := by
  have hread := F.read_enc_append h s
  rw [scan]
  split
  · next a' ha' =>
    cases hread.symm.trans ha'
    rw [List.drop_left]
  · next hne => exact absurd hread (hne a)

/-- **Frames in front are items in front.** -/
theorem scan_encAll_append {as : List α} (h : ∀ a ∈ as, F.Valid a)
    (s : List β) :
    F.scan (F.encAll as ++ s) = (as ++ (F.scan s).1, (F.scan s).2) := by
  induction as with
  | nil => rfl
  | cons a as ih =>
    have ha := h a List.mem_cons_self
    have has := ih (fun a' ha' => h a' (List.mem_cons_of_mem _ ha'))
    rw [encAll_cons, List.append_assoc, F.scan_enc_append ha, has,
      List.cons_append]

/-- A scan of nothing but frames has all items and nothing left over. -/
theorem scan_encAll {as : List α} (h : ∀ a ∈ as, F.Valid a) :
    F.scan (F.encAll as) = (as, []) := by
  have hnil : F.scan [] = ([], []) :=
    F.scan_of_read_ne_some (by simp [F.read_nil])
  have := F.scan_encAll_append h []
  rwa [List.append_nil, hnil, List.append_nil] at this

/-- **What a scan says of the sequence**: frames of valid items, then a
rest at which the reader finds no item. -/
theorem scan_spec (bs : List β) :
    (∀ a ∈ (F.scan bs).1, F.Valid a)
      ∧ F.encAll (F.scan bs).1 ++ (F.scan bs).2 = bs
      ∧ ∀ a, F.read (F.scan bs).2 ≠ .ok (some a) := by
  induction hn : bs.length using Nat.strongRecOn generalizing bs with
  | ind n ih =>
    by_cases hread : ∃ a, F.read bs = .ok (some a)
    · obtain ⟨a, ha⟩ := hread
      obtain ⟨hv, s, rfl⟩ := (F.read_some bs a).mp ha
      have hpos := F.enc_pos hv
      have hlt : s.length < n := by
        rw [← hn, List.length_append]; omega
      obtain ⟨h₁, h₂, h₃⟩ := ih s.length hlt s rfl
      rw [F.scan_enc_append hv]
      refine ⟨?_, ?_, h₃⟩
      · intro a' ha'
        rcases List.mem_cons.mp ha' with rfl | ha'
        · exact hv
        · exact h₁ a' ha'
      · rw [encAll_cons, List.append_assoc, h₂]
    · have hnone : ∀ a, F.read bs ≠ .ok (some a) := fun a ha => hread ⟨a, ha⟩
      rw [F.scan_of_read_ne_some hnone]
      exact ⟨by simp, by simp, hnone⟩

/-- **The decomposition is unique**: two ways to write a sequence as frames
and a rest that starts with none are one, since both are what the scan finds. -/
theorem scan_unique {as as' : List α} {t t' : List β}
    (h : ∀ a ∈ as, F.Valid a) (h' : ∀ a ∈ as', F.Valid a)
    (ht : ∀ a, F.read t ≠ .ok (some a)) (ht' : ∀ a, F.read t' ≠ .ok (some a))
    (he : F.encAll as ++ t = F.encAll as' ++ t') : as = as' ∧ t = t' := by
  have hs := F.scan_encAll_append h t
  have hs' := F.scan_encAll_append h' t'
  rw [F.scan_of_read_ne_some ht, List.append_nil] at hs
  rw [F.scan_of_read_ne_some ht', List.append_nil, ← he, hs] at hs'
  exact Prod.mk.inj hs'

/-- Lists of items with the same frames are one list. -/
theorem encAll_injective {as as' : List α} (h : ∀ a ∈ as, F.Valid a)
    (h' : ∀ a ∈ as', F.Valid a) (he : F.encAll as = F.encAll as') : as = as' := by
  have hnil : ∀ a, F.read [] ≠ .ok (some a) := by simp [F.read_nil]
  exact (F.scan_unique h h' hnil hnil (by rw [he])).1

/-! ## Cutting a sequence of frames

A cut keeps so many places from the front. What is left are the items whose
frames are wholly inside, and the start of the next one's, which the reader
calls torn. -/

/-- How many of the items are wholly contained in the first `k` places. -/
def whole : List α → ℕ → ℕ
  | [], _ => 0
  | a :: as, k =>
    if (F.enc a).length ≤ k then whole as (k - (F.enc a).length) + 1 else 0

/-- No more items fit than there are. -/
theorem whole_le_length (as : List α) (k : ℕ) : F.whole as k ≤ as.length := by
  induction as generalizing k with
  | nil => exact le_rfl
  | cons a as ih =>
    rw [whole]
    split
    · exact Nat.succ_le_succ (ih _)
    · exact Nat.zero_le _

/-- **The items that fit are those whose last place is within the cut.** -/
theorem le_whole_iff (as : List α) (k n : ℕ) :
    n ≤ F.whole as k ↔ n ≤ as.length ∧ (F.encAll (as.take n)).length ≤ k := by
  induction as generalizing k n with
  | nil =>
    simp only [whole, List.length_nil, List.take_nil, encAll_nil, Nat.zero_le,
      and_true]
  | cons a as ih =>
    cases n with
    | zero => simp
    | succ n =>
      rw [whole, List.take_succ_cons, encAll_cons, List.length_append,
        List.length_cons]
      split
      · next hk =>
        rw [Nat.succ_le_succ_iff, ih, Nat.succ_le_succ_iff]
        exact and_congr_right (fun _ => by omega)
      · next hk =>
        constructor
        · intro h; omega
        · rintro ⟨-, h⟩; omega

/-- More places hold no fewer items. -/
theorem whole_mono (as : List α) {k k' : ℕ} (h : k ≤ k') : F.whole as k ≤ F.whole as k' := by
  obtain ⟨hn, hk⟩ := (F.le_whole_iff as k _).mp le_rfl
  exact (F.le_whole_iff as k' _).mpr ⟨hn, hk.trans h⟩

/-- More items fill the places no less. -/
theorem whole_append_le (as as' : List α) (k : ℕ) : F.whole as k ≤ F.whole (as ++ as') k := by
  obtain ⟨hn, hk⟩ := (F.le_whole_iff as k _).mp le_rfl
  refine (F.le_whole_iff (as ++ as') k _).mpr ⟨?_, ?_⟩
  · rw [List.length_append]
    exact hn.trans (Nat.le_add_right _ _)
  · rwa [List.take_append_of_le_length hn]

/-- More items take no fewer places. -/
theorem length_encAll_take_le (as : List α) {n m : ℕ} (h : n ≤ m) :
    (F.encAll (as.take n)).length ≤ (F.encAll (as.take m)).length := by
  rw [← Nat.min_eq_left h, ← List.take_take, ← F.encAll_take_append_drop (as.take m) n,
    List.length_append]
  exact Nat.le_add_right _ _

/-- Every item fits in the whole sequence. -/
theorem whole_of_length_le (as : List α) {k : ℕ}
    (h : (F.encAll as).length ≤ k) : F.whole as k = as.length := by
  refine le_antisymm (F.whole_le_length as k) ?_
  exact (F.le_whole_iff as k _).mpr ⟨le_rfl, by rwa [List.take_length]⟩

/-- Exactly the items in front fit in their own places. -/
theorem whole_length_encAll {as as' : List α} (h : ∀ a ∈ as', F.Valid a) :
    F.whole (as ++ as') (F.encAll as).length = as.length := by
  refine le_antisymm ?_ ((F.le_whole_iff _ _ _).mpr ⟨by simp, by rw [List.take_left]⟩)
  by_contra hlt
  obtain ⟨hlen, hfit⟩ := (F.le_whole_iff _ _ (as.length + 1)).mp (not_le.mp hlt)
  cases as' with
  | nil =>
    rw [List.append_nil] at hlen
    omega
  | cons a as' =>
    have hpos := F.enc_pos (h a List.mem_cons_self)
    rw [List.take_length_add_append, List.take_succ_cons, List.take_zero, encAll_append,
      encAll_cons, encAll_nil, List.append_nil, List.length_append] at hfit
    omega

/-- **A cut leaves the items that fit and a torn rest**: a frame that is cut
is the start of a frame, and a cut between frames leaves nothing, which is
torn too. -/
theorem take_encAll {as : List α} (h : ∀ a ∈ as, F.Valid a) (k : ℕ) :
    ∃ t, (F.encAll as).take k = F.encAll (as.take (F.whole as k)) ++ t
      ∧ F.read t = .ok none := by
  induction as generalizing k with
  | nil => exact ⟨[], by simp [whole], F.read_nil⟩
  | cons a as ih =>
    have hv := h a List.mem_cons_self
    rw [whole, encAll_cons]
    split
    · next hk =>
      obtain ⟨t, ht, htorn⟩ := ih (fun a' ha' => h a' (List.mem_cons_of_mem _ ha'))
        (k - (F.enc a).length)
      refine ⟨t, ?_, htorn⟩
      rw [List.take_succ_cons, encAll_cons, List.append_assoc, ← ht,
        List.take_append, List.take_of_length_le hk]
    · next hk =>
      have htake : (F.enc a ++ F.encAll as).take k = (F.enc a).take k := by
        rw [List.take_append, Nat.sub_eq_zero_of_le (by omega), List.take_zero,
          List.append_nil]
      refine ⟨(F.enc a).take k, by rw [htake]; simp, ?_⟩
      refine F.read_torn a _ hv (List.take_prefix _ _) (fun he => ?_)
      have := congrArg List.length he
      rw [List.length_take] at this
      omega

/-- The same with a torn rest already there: a sequence that was cut once can
be cut again. -/
theorem take_encAll_append {as : List α} (h : ∀ a ∈ as, F.Valid a)
    {t : List β} (ht : F.read t = .ok none) (k : ℕ) :
    ∃ t', (F.encAll as ++ t).take k = F.encAll (as.take (F.whole as k)) ++ t'
      ∧ F.read t' = .ok none := by
  by_cases hk : (F.encAll as).length ≤ k
  · refine ⟨t.take (k - (F.encAll as).length), ?_, F.torn_take t _ ht⟩
    rw [F.whole_of_length_le as hk, List.take_length, List.take_append,
      List.take_of_length_le hk]
  · obtain ⟨t', ht', htorn⟩ := F.take_encAll h k
    refine ⟨t', ?_, htorn⟩
    rw [List.take_append, Nat.sub_eq_zero_of_le (by omega), List.take_zero,
      List.append_nil, ht']

/-- **Reading where an item of a cut sequence starts** finds it, if it is
whole, and is torn behind the last one that is. -/
theorem read_drop_of_prefix {as : List α} (h : ∀ a ∈ as, F.Valid a) {bs : List β}
    (hbs : bs <+: F.encAll as) {m : ℕ} (hm : m ≤ F.whole as bs.length) :
    (m = F.whole as bs.length ∧ F.read (bs.drop (F.encAll (as.take m)).length) = .ok none)
      ∨ m < F.whole as bs.length
        ∧ ∃ a, as[m]? = some a ∧ F.read (bs.drop (F.encAll (as.take m)).length) = .ok (some a) := by
  obtain ⟨t, ht, htorn⟩ := F.take_encAll h bs.length
  have hbs' : bs = F.encAll (as.take (F.whole as bs.length)) ++ t := by
    rw [← ht]
    exact List.prefix_iff_eq_take.mp hbs
  have hle := F.whole_le_length as bs.length
  have hdrop : bs.drop (F.encAll (as.take m)).length
      = F.encAll ((as.take (F.whole as bs.length)).drop m) ++ t := by
    conv_lhs => rw [hbs', ← F.encAll_take_append_drop (as.take (F.whole as bs.length)) m,
      List.take_take, Nat.min_eq_left hm, List.append_assoc, List.drop_left]
  rw [hdrop]
  rcases Nat.eq_or_lt_of_le hm with heq | hlt
  · refine Or.inl ⟨heq, ?_⟩
    rw [List.drop_eq_nil_of_le (by rw [List.length_take]; omega), encAll_nil, List.nil_append,
      htorn]
  · refine Or.inr ⟨hlt, as[m], List.getElem?_eq_getElem (by omega), ?_⟩
    have hm' : m < (as.take (F.whole as bs.length)).length := by rw [List.length_take]; omega
    rw [List.drop_eq_getElem_cons hm', List.getElem_take, encAll_cons, List.append_assoc]
    exact F.read_enc_append (h _ (List.getElem_mem _)) _

end Framing
