import Mathlib.Data.List.AList
import Mathlib.Data.List.GetD

/-!
# Tail

The broadcast that wakes streams when a record is appended. Each partition
somebody waits for has an event, kept until it fires: `notify` takes it out as
it sets it, so that those who come later wait for the next one.

An event is a number, and `fired` has one entry for each event there has been.
So an event that was taken out is still known to those who hold its number, as
an object is to those who refer to it, and whether it is set can be asked.

## What a stream does with it

A stream subscribes first and reads then. If an append comes after the
reading, its `notify` finds the event and sets it; if it comes in between, the
reading has the record, and the event is set as well, so that the stream reads
once more for nothing. What must not be is that a stream holds an event which
is not set and which no `notify` will find. `Holds` says that it is not so:
the event is set, or it is the one that is registered. Subscribing gives it,
and every step of the tail keeps it, whoever it is for; from there the
liveness of a stream in `Broker.LiveTailSpec` needs nothing else about tails.

Closing sets all events, and takes them out. A stream that subscribes after
that gets a new event, which will not be set by closing again; it looks at
`closed` before it waits.
-/

namespace Pyka

/-- `Tail`: the events somebody may wait for, by topic and partition, which of
all events are set, and whether the broker closes. -/
structure Tail where
  events : AList (fun _ : String × ℤ => ℕ)
  fired : List Bool
  closed : Bool

namespace Tail

/-- `Tail()`: nobody waits. -/
def init : Tail := ⟨∅, [], false⟩

/-- Is an event set? One that is set stays so. -/
def isSet (t : Tail) (event : ℕ) : Bool := t.fired.getD event false

/-- **The event to wait for**, a new one where there is none. -/
def subscribe (t : Tail) (topic : String) (partition : ℤ) : ℕ × Tail :=
  match t.events.lookup (topic, partition) with
  | some event => (event, t)
  | none =>
    (t.fired.length, { t with events := t.events.insert (topic, partition) t.fired.length
                              fired := t.fired ++ [false] })

/-- **Wake everyone who waits for a partition**, all with one event. Where
nobody waits, nothing is kept for those who come later. -/
def notify (t : Tail) (topic : String) (partition : ℤ) : Tail :=
  match t.events.lookup (topic, partition) with
  | none => t
  | some event =>
    { t with events := t.events.erase (topic, partition), fired := t.fired.set event true }

/-- **Wake everyone**, for good: those who come later find it closed. -/
def close (t : Tail) : Tail where
  events := ∅
  fired := t.events.entries.foldl (fun fired e => fired.set e.2 true) t.fired
  closed := true

/-! ## What those who wait can rely on

For each operation, what it does to an event that somebody holds, and to those
that are registered. -/

variable {t : Tail} {topic topic' : String} {partition partition' : ℤ} {event : ℕ}

/-- The events to be waited for are there: each that is registered has an
entry in `fired`, so that setting it does something. -/
def Ok (t : Tail) : Prop := ∀ key e, t.events.lookup key = some e → e < t.fired.length

/-- **The event somebody holds**: it is set, or it is the one that the next
`notify` sets. -/
def Holds (t : Tail) (topic : String) (partition : ℤ) (event : ℕ) : Prop :=
  t.isSet event = true ∨ t.events.lookup (topic, partition) = some event

/-- At first none is registered. -/
theorem ok_init : init.Ok := fun _ _ h => by cases h

/-- Subscribing: the event is there, or a new one is put behind all there
were. -/
theorem subscribe_cases (t : Tail) (topic : String) (partition : ℤ) :
    (∃ event, t.events.lookup (topic, partition) = some event
      ∧ t.subscribe topic partition = (event, t))
    ∨ (t.events.lookup (topic, partition) = none ∧ t.subscribe topic partition
      = (t.fired.length, { t with events := t.events.insert (topic, partition) t.fired.length
                                  fired := t.fired ++ [false] })) := by
  unfold subscribe
  cases hl : t.events.lookup (topic, partition) with
  | some event => exact Or.inl ⟨event, rfl, rfl⟩
  | none => exact Or.inr ⟨rfl, rfl⟩

/-- A new event changes nothing about the others. -/
theorem isSet_append (fired : List Bool) (event : ℕ) :
    (fired ++ [false]).getD event false = fired.getD event false := by
  by_cases h : event < fired.length
  · rw [List.getD_append _ _ _ _ h]
  · rw [List.getD_append_right _ _ _ _ (not_lt.mp h), List.getD_eq_default _ _ (not_lt.mp h)]
    cases event - fired.length <;> rfl

/-- Subscribing sets no event. -/
@[simp] theorem isSet_subscribe (t : Tail) (topic : String) (partition : ℤ) (event : ℕ) :
    (t.subscribe topic partition).2.isSet event = t.isSet event := by
  rcases t.subscribe_cases topic partition with ⟨e, -, h⟩ | ⟨-, h⟩
  · rw [h]
  · rw [h]
    exact isSet_append t.fired event

/-- Subscribing does not open a tail that is closed. -/
@[simp] theorem closed_subscribe (t : Tail) (topic : String) (partition : ℤ) :
    (t.subscribe topic partition).2.closed = t.closed := by
  rcases t.subscribe_cases topic partition with ⟨e, -, h⟩ | ⟨-, h⟩ <;> rw [h]

/-- Subscribing registers the partition, and no other. -/
theorem mem_events_subscribe {key : String × ℤ} :
    key ∈ (t.subscribe topic partition).2.events
      ↔ key = (topic, partition) ∨ key ∈ t.events := by
  rcases t.subscribe_cases topic partition with ⟨event, hl, h⟩ | ⟨-, h⟩
  · rw [h]
    refine ⟨Or.inr, fun hkey => ?_⟩
    rcases hkey with rfl | hkey
    · exact AList.lookup_isSome.mp (Option.isSome_iff_exists.mpr ⟨event, hl⟩)
    · exact hkey
  · rw [h]
    exact AList.mem_insert t.events

/-- A `notify` registers nothing. -/
theorem mem_events_of_notify {key : String × ℤ} (h : key ∈ (t.notify topic partition).events) :
    key ∈ t.events := by
  unfold notify at h
  cases hl : t.events.lookup (topic, partition) with
  | none =>
    rw [hl] at h
    exact h
  | some event =>
    rw [hl] at h
    exact (AList.mem_erase.mp h).2

/-- Subscribing keeps the events in order: a new one has an entry of its own. -/
theorem Ok.subscribe (h : t.Ok) (topic : String) (partition : ℤ) :
    (t.subscribe topic partition).2.Ok := by
  rcases t.subscribe_cases topic partition with ⟨e, -, hs⟩ | ⟨-, hs⟩
  · rwa [hs]
  · rw [hs]
    intro key e he
    show e < (t.fired ++ [false]).length
    rw [List.length_append, List.length_singleton]
    by_cases hkey : key = (topic, partition)
    · subst hkey
      cases Option.some.inj ((AList.lookup_insert t.events).symm.trans he)
      exact Nat.lt_succ_self _
    · have := h key e ((AList.lookup_insert_ne hkey).symm.trans he)
      omega

/-- **Who subscribes holds the event.** -/
theorem holds_subscribe (t : Tail) (topic : String) (partition : ℤ) :
    (t.subscribe topic partition).2.Holds topic partition (t.subscribe topic partition).1 := by
  rcases t.subscribe_cases topic partition with ⟨e, he, h⟩ | ⟨-, h⟩
  · rw [h]
    exact Or.inr he
  · rw [h]
    exact Or.inr (AList.lookup_insert _)

/-- Somebody else subscribing changes nothing for who holds an event. -/
theorem Holds.subscribe (h : t.Holds topic partition event) (topic' : String) (partition' : ℤ) :
    (t.subscribe topic' partition').2.Holds topic partition event := by
  refine h.imp (fun hset => by rwa [isSet_subscribe]) fun hlook => ?_
  rcases t.subscribe_cases topic' partition' with ⟨e, he, hs⟩ | ⟨hnone, hs⟩
  · rwa [hs]
  · rw [hs]
    have hne : (topic, partition) ≠ (topic', partition') := by
      rintro heq
      rw [heq, hnone] at hlook
      cases hlook
    exact (AList.lookup_insert_ne hne).trans hlook

/-- Setting an event unsets none. -/
theorem isSet_set {fired : List Bool} (event' : ℕ) (h : fired.getD event false = true) :
    (fired.set event' true).getD event false = true := by
  by_cases hee : event' = event
  · subst hee
    rw [List.getD_eq_getElem?_getD] at h ⊢
    by_cases hlt : event' < fired.length
    · rw [List.getElem?_set_self hlt]
      rfl
    · rw [List.getElem?_eq_none (not_lt.mp hlt)] at h
      cases h
  · rw [List.getD_eq_getElem?_getD, List.getElem?_set_ne hee, ← List.getD_eq_getElem?_getD]
    exact h

/-- **Who holds an event is woken by the next `notify`.** -/
theorem Holds.isSet_notify (h : t.Holds topic partition event) (hok : t.Ok) :
    (t.notify topic partition).isSet event = true := by
  unfold notify
  cases hl : t.events.lookup (topic, partition) with
  | none =>
    rcases h with hset | hlook
    · exact hset
    · rw [hl] at hlook
      cases hlook
  | some e =>
    rcases h with hset | hlook
    · exact isSet_set e hset
    · rw [hl] at hlook
      cases hlook
      show (t.fired.set event true).getD event false = true
      rw [List.getD_eq_getElem?_getD, List.getElem?_set_self (hok _ _ hl)]
      rfl

/-- A `notify` unsets nothing. -/
theorem isSet_notify_of_isSet (h : t.isSet event = true) (topic : String) (partition : ℤ) :
    (t.notify topic partition).isSet event = true := by
  unfold notify
  cases t.events.lookup (topic, partition) with
  | none => exact h
  | some e => exact isSet_set e h

/-- Waking those who wait does not close the tail. -/
@[simp] theorem closed_notify (t : Tail) (topic : String) (partition : ℤ) :
    (t.notify topic partition).closed = t.closed := by
  unfold notify
  cases t.events.lookup (topic, partition) <;> rfl

/-- Waking registers no event, so those that are left are in order. -/
theorem Ok.notify (h : t.Ok) (topic : String) (partition : ℤ) : (t.notify topic partition).Ok := by
  unfold Tail.notify
  cases hl : t.events.lookup (topic, partition) with
  | none => exact h
  | some e =>
    intro key e' he'
    show e' < (t.fired.set e true).length
    rw [List.length_set]
    by_cases hkey : key = (topic, partition)
    · subst hkey
      have hnone : (t.events.erase (topic, partition)).lookup (topic, partition) = none :=
        AList.lookup_erase _ _
      cases hnone.symm.trans he'
    · exact h key e' ((AList.lookup_erase_ne hkey).symm.trans he')

/-- Another partition's `notify` changes nothing for who holds an event. -/
theorem Holds.notify (h : t.Holds topic partition event) (hok : t.Ok) (topic' : String)
    (partition' : ℤ) : (t.notify topic' partition').Holds topic partition event := by
  by_cases hkey : (topic', partition') = (topic, partition)
  · cases hkey
    exact Or.inl (h.isSet_notify hok)
  · refine h.imp (fun hset => isSet_notify_of_isSet hset topic' partition') fun hlook => ?_
    unfold Tail.notify
    cases t.events.lookup (topic', partition') with
    | none => exact hlook
    | some e => exact (AList.lookup_erase_ne (Ne.symm hkey)).trans hlook

/-- Setting one event after the other unsets none. -/
theorem isSet_foldl {fired : List Bool} (entries : List (Σ _ : String × ℤ, ℕ))
    (h : fired.getD event false = true) :
    (entries.foldl (fun fired e => fired.set e.2 true) fired).getD event false = true := by
  induction entries generalizing fired with
  | nil => exact h
  | cons e entries ih => exact ih (isSet_set e.2 h)

/-- **Closing wakes everyone who holds an event.** -/
theorem Holds.isSet_close (h : t.Holds topic partition event) (hok : t.Ok) :
    t.close.isSet event = true := by
  rcases h with hset | hlook
  · exact isSet_foldl _ hset
  · have hlt := hok _ _ hlook
    have hmem : (⟨(topic, partition), event⟩ : Σ _ : String × ℤ, ℕ) ∈ t.events.entries :=
      AList.mem_lookup_iff.mp hlook
    obtain ⟨l₁, l₂, hsplit⟩ := List.append_of_mem hmem
    unfold close isSet
    rw [hsplit, List.foldl_append, List.foldl_cons]
    refine isSet_foldl _ ?_
    rw [List.getD_eq_getElem?_getD, List.getElem?_set_self]
    · rfl
    · have hlen : ∀ (entries : List (Σ _ : String × ℤ, ℕ)) (fired : List Bool),
          (entries.foldl (fun fired e => fired.set e.2 true) fired).length = fired.length := by
        intro entries
        induction entries with
        | nil => exact fun _ => rfl
        | cons e entries ih => exact fun fired => (ih _).trans List.length_set
      rw [hlen]
      exact hlt

/-- Closing unsets nothing either. -/
theorem isSet_close (h : t.isSet event = true) : t.close.isSet event = true := isSet_foldl _ h

/-- A tail that is closed has none registered. -/
theorem ok_close (t : Tail) : t.close.Ok := fun _ _ h => by cases h

end Tail

end Pyka
