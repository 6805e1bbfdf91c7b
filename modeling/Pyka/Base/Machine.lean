import Mathlib.Data.List.Nodup
import Mathlib.Logic.Relation

/-!
# Machines, runs and invariants

Two kinds of state machine, each with the rule that turns a fact about one
step into a fact about every run.

## Machines

A `Machine` answers each input it is given, and always does: it is a program
with one caller, whose operations come one after the other. One machine
*simulates* another when, from related states, it gives the same answers and
stays related (`Machine.Simulates`), and then all runs give the same answers
(`Machine.Simulates.run`). Machines of one kind run beside each other
(`Machine.beside`), each input being for one of them, and one input can stand
for several (`Machine.many`), as a call that makes requests of its own does. A
simulation carries over to both.

## Systems

A `System` moves from state to state by a relation, so it can have several
parties whose steps come in any order; an event says what happened in a step.
What holds at the start and is kept by every step is an invariant
(`System.Reachable.invariant`), and what a step keeps is kept by every run
(`System.Run.keeps`). A quantity that certain steps use up bounds how many of
them a run has (`System.Run.variant`), which is how progress is stated without
a notion of time.

`System.given` is the system that takes only the steps that meet a condition
on the step and the state before it. What is proved of its runs is what holds
*as long as* every step meets the condition, and its runs are runs of the
whole system (`System.Reachable.of_given`).

## Runs that are evaluated

Where the steps of a system can be computed, a run on fixed inputs can be
evaluated, and what it comes to is a reachable state
(`System.Reachable.foldlM`). That is how a concrete run is turned into a fact
about the relation.
-/

variable {σ α ι ο ε κ : Type*}

/-- A machine that answers every input: a program whose operations are carried
out one at a time. -/
structure Machine (σ ι ο : Type*) where
  /-- The answer to an input, and the state after it. -/
  step : σ → ι → ο × σ

namespace Machine

/-- The answers to a sequence of inputs, in their order, and the state after
them. -/
def run (M : Machine σ ι ο) : σ → List ι → List ο × σ
  | s, [] => ([], s)
  | s, i :: is =>
    let rest := M.run (M.step s i).2 is
    ((M.step s i).1 :: rest.1, rest.2)

/-- A run in two parts: the second one starts where the first has come to. -/
theorem run_append (M : Machine σ ι ο) (s : σ) (is js : List ι) :
    M.run s (is ++ js)
      = ((M.run s is).1 ++ (M.run (M.run s is).2 js).1, (M.run (M.run s is).2 js).2) := by
  induction is generalizing s with
  | nil => rfl
  | cons i is ih =>
    simp only [List.cons_append, run, ih]

/-- Every input gets an answer. -/
theorem length_run (M : Machine σ ι ο) (s : σ) (is : List ι) :
    (M.run s is).1.length = is.length := by
  induction is generalizing s with
  | nil => rfl
  | cons i is ih => exact congrArg Nat.succ (ih _)

/-- **A machine does what another one does**, up to a relation of states. -/
structure Simulates (M : Machine σ ι ο) (A : Machine α ι ο) (R : σ → α → Prop) : Prop where
  /-- Related states give the same answer. -/
  answer : ∀ {s a}, R s a → ∀ i, (M.step s i).1 = (A.step a i).1
  /-- Related states stay related. -/
  related : ∀ {s a}, R s a → ∀ i, R (M.step s i).2 (A.step a i).2

/-- **A simulation covers runs.** -/
theorem Simulates.run {M : Machine σ ι ο} {A : Machine α ι ο} {R : σ → α → Prop}
    (h : M.Simulates A R) {s : σ} {a : α} (hR : R s a) (is : List ι) :
    (M.run s is).1 = (A.run a is).1 ∧ R (M.run s is).2 (A.run a is).2 := by
  induction is generalizing s a with
  | nil => exact ⟨rfl, hR⟩
  | cons i is ih =>
    obtain ⟨hout, hrest⟩ := ih (h.related hR i)
    refine ⟨?_, hrest⟩
    show (M.step s i).1 :: (M.run (M.step s i).2 is).1
      = (A.step a i).1 :: (A.run (A.step a i).2 is).1
    rw [h.answer hR i, hout]

/-- A machine whose inputs are several of another one's. -/
def many (M : Machine σ ι ο) (inputs : ε → List ι) : Machine σ ε (List ο) where
  step s e := M.run s (inputs e)

/-- A simulation covers them, since it covers the run that each input stands
for. -/
theorem Simulates.many {M : Machine σ ι ο} {A : Machine α ι ο} {R : σ → α → Prop}
    (h : M.Simulates A R) (inputs : ε → List ι) : (M.many inputs).Simulates (A.many inputs) R where
  answer hR e := (h.run hR (inputs e)).1
  related hR e := (h.run hR (inputs e)).2

/-- **Machines of one kind beside each other**, each input for one of them. -/
def beside [DecidableEq κ] (M : Machine σ ι ο) (who : ε → κ) (what : ε → ι) :
    Machine (κ → σ) ε ο where
  step s e :=
    let (answer, s') := M.step (s (who e)) (what e)
    (answer, Function.update s (who e) s')

section Beside

variable [DecidableEq κ] {who : ε → κ} {what : ε → ι}

/-- Simulations go beside each other as well: only the machine that an input
is for moves. -/
theorem Simulates.beside {M : Machine σ ι ο} {A : Machine α ι ο} {R : σ → α → Prop}
    (h : M.Simulates A R) :
    (M.beside who what).Simulates (A.beside who what) fun s a => ∀ k, R (s k) (a k) where
  answer hR e := h.answer (hR (who e)) (what e)
  related {s a} hR e k := by
    show R (Function.update s (who e) _ k) (Function.update a (who e) _ k)
    by_cases hk : k = who e
    · subst hk
      rw [Function.update_self, Function.update_self]
      exact h.related (hR _) _
    · rw [Function.update_of_ne hk, Function.update_of_ne hk]
      exact hR k

/-- **One input for each**: none sees what the others are given. -/
theorem run_beside (M : Machine σ ι ο) (who : ε → κ) (what : ε → ι) (s : κ → σ) {es : List ε}
    (hes : (es.map who).Nodup) :
    ((M.beside who what).run s es).1 = es.map (fun e => (M.step (s (who e)) (what e)).1)
      ∧ (∀ e ∈ es, ((M.beside who what).run s es).2 (who e) = (M.step (s (who e)) (what e)).2)
      ∧ ∀ k ∉ es.map who, ((M.beside who what).run s es).2 k = s k := by
  induction es generalizing s with
  | nil => exact ⟨rfl, fun e he => (by cases he), fun _ _ => rfl⟩
  | cons e es ih =>
    rw [List.map_cons, List.nodup_cons] at hes
    obtain ⟨hout, hes'⟩ := hes
    obtain ⟨hanswers, hthese, hothers⟩ :=
      ih (Function.update s (who e) (M.step (s (who e)) (what e)).2) hes'
    have hne : ∀ e' ∈ es, who e' ≠ who e := fun e' he' h => hout (h ▸ List.mem_map_of_mem he')
    refine ⟨?_, fun e' he' => ?_, fun k hk => ?_⟩
    · refine (congrArg (List.cons _) hanswers).trans ?_
      rw [List.map_cons]
      exact congrArg (List.cons _)
        (List.map_congr_left fun e' he' => by rw [Function.update_of_ne (hne e' he')])
    · rcases List.mem_cons.mp he' with rfl | he'
      · exact (hothers _ hout).trans (Function.update_self ..)
      · refine (hthese e' he').trans ?_
        rw [Function.update_of_ne (hne e' he')]
    · rw [List.map_cons, List.mem_cons, not_or] at hk
      exact (hothers k hk.2).trans (Function.update_of_ne hk.1 ..)

end Beside

end Machine

/-- A system that moves by a relation; `ε` says what happened in a step. From
a state there may be several steps, or none. -/
structure System (σ ε : Type*) where
  /-- The states it can start in. -/
  start : σ → Prop
  step : σ → ε → σ → Prop

namespace System

variable (S : System σ ε)

/-- A run from one state to another, with what happened on the way, the last
step at the end of the list. -/
inductive Run : σ → List ε → σ → Prop
  | nil (s : σ) : Run s [] s
  | snoc {s s' s'' : σ} {es : List ε} {e : ε} (h : Run s es s') (h' : S.step s' e s'') :
      Run s (es ++ [e]) s''

/-- A state that some run from a start leads to. -/
def Reachable (s : σ) : Prop := ∃ s₀ es, S.start s₀ ∧ S.Run s₀ es s

variable {S}

/-- Runs that meet are one run. -/
theorem Run.trans {s s' s'' : σ} {es es' : List ε} (h : S.Run s es s') (h' : S.Run s' es' s'') :
    S.Run s (es ++ es') s'' := by
  induction h' with
  | nil => rwa [List.append_nil]
  | snoc _ hstep ih =>
    rw [← List.append_assoc]
    exact .snoc ih hstep

variable (S) in
/-- Some run leads from one state to another, whatever happens on it. -/
def Leads (s s' : σ) : Prop := ∃ es, S.Run s es s'

theorem Leads.refl (s : σ) : S.Leads s s := ⟨[], .nil s⟩

/-- One step leads on. -/
theorem Leads.step {s s' : σ} {e : ε} (h : S.step s e s') : S.Leads s s' :=
  ⟨[e], .snoc (.nil s) h⟩

/-- What is led to leads on. -/
theorem Leads.trans {s s' s'' : σ} (h : S.Leads s s') (h' : S.Leads s' s'') : S.Leads s s'' := by
  obtain ⟨es, h⟩ := h
  obtain ⟨es', h'⟩ := h'
  exact ⟨es ++ es', h.trans h'⟩

/-- **What every step keeps, every run keeps.** -/
theorem Run.keeps {P : σ → Prop} (hstep : ∀ s e s', P s → S.step s e s' → P s')
    {s s' : σ} {es : List ε} (h : S.Run s es s') (hs : P s) : P s' := by
  induction h with
  | nil => exact hs
  | snoc _ h' ih => exact hstep _ _ _ ih h'

/-- **The variant rule**: of the steps that each take something from a number, a
run has no more than the number it starts with. -/
theorem Run.variant {P : σ → Prop} {m : σ → ℕ} {t : ε → Bool}
    (hstep : ∀ s e s', P s → S.step s e s' → P s' ∧ m s' + (t e).toNat ≤ m s)
    {s s' : σ} {es : List ε} (h : S.Run s es s') (hs : P s) :
    P s' ∧ m s' + es.countP t ≤ m s := by
  induction h with
  | nil => exact ⟨hs, Nat.le_refl _⟩
  | @snoc s' s'' es e _ h' ih =>
    obtain ⟨hmid, hle⟩ := ih
    obtain ⟨hend, hless⟩ := hstep _ _ _ hmid h'
    refine ⟨hend, ?_⟩
    have hcount : (es ++ [e]).countP t = es.countP t + (t e).toNat := by
      rw [List.countP_append, List.countP_singleton]
      cases t e <;> rfl
    rw [hcount]
    omega

/-- **The invariant rule**: what holds at every start and is kept by every
step holds of every state that is reached. -/
theorem Reachable.invariant {P : σ → Prop} (hstart : ∀ s, S.start s → P s)
    (hstep : ∀ s e s', P s → S.step s e s' → P s') {s : σ} (h : S.Reachable s) : P s := by
  obtain ⟨s₀, es, hs₀, hrun⟩ := h
  exact hrun.keeps hstep (hstart s₀ hs₀)

variable (S) in
/-- The system where only the steps are taken that meet a condition. -/
def given (C : σ → ε → Prop) : System σ ε where
  start := S.start
  step s e s' := S.step s e s' ∧ C s e

/-- A start is reached. -/
theorem Reachable.start {s : σ} (h : S.start s) : S.Reachable s := ⟨s, [], h, .nil s⟩

/-- A step leads from what is reached to what is reached. -/
theorem Reachable.step {s s' : σ} {e : ε} (h : S.Reachable s) (h' : S.step s e s') :
    S.Reachable s' := by
  obtain ⟨s₀, es, hs₀, hrun⟩ := h
  exact ⟨s₀, es ++ [e], hs₀, hrun.snoc h'⟩

/-- **What steps are computed one after another, a run takes**: a run on fixed
inputs can be evaluated, and what it comes to is then reached. -/
theorem Run.foldlM {exec : σ → ε → Option σ}
    (hexec : ∀ s e s', exec s e = some s' → S.step s e s') {s s' : σ} {es : List ε}
    (hrun : es.foldlM exec s = some s') : S.Run s es s' := by
  induction es generalizing s with
  | nil =>
    cases hrun
    exact .nil _
  | cons e es ih =>
    obtain ⟨mid, hmid, hrun⟩ := Option.bind_eq_some_iff.mp hrun
    exact (Run.snoc (.nil s) (hexec s e mid hmid)).trans (ih hrun)

/-- The same from a state that is reached. -/
theorem Reachable.foldlM {exec : σ → ε → Option σ}
    (hexec : ∀ s e s', exec s e = some s' → S.step s e s') {s s' : σ} {es : List ε}
    (h : S.Reachable s) (hrun : es.foldlM exec s = some s') : S.Reachable s' := by
  obtain ⟨s₀, es₀, hs₀, hrun₀⟩ := h
  exact ⟨s₀, es₀ ++ es, hs₀, hrun₀.trans (Run.foldlM hexec hrun)⟩

/-- Where only some steps are taken, nothing more is reached. -/
theorem Reachable.of_given {C : σ → ε → Prop} {s : σ} (h : (S.given C).Reachable s) :
    S.Reachable s :=
  h.invariant (fun _ hs => .start hs) fun _ _ _ hs hstep => hs.step hstep.1

end System
