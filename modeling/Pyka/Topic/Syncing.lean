import Pyka.Storage.CrashRecovery
import Pyka.Topic.TopicSpec

/-!
# Counting appends up to a sync

What `Topic.append` does with a partition after it has found it, and
`Topic.sync`, taken apart into the steps that other threads can come between:
`Log.append` and `Log.sync`, each under the log's own lock, the increment of
the counter of appends, the question to the policy, and `mark_synced`, which
sets the counter back to 0. The counter has no lock, so any steps of other
calls may come between two of these. The increment itself is taken as one
step; in Python it is a read and a write, and what is lost between them would
be lost to the counter as well.

With nothing in between, the steps are `Topic.appendTo` (`append_alone`),
which is what the rest of the development goes by.

## What is at risk

What the policy promises is that not many records are at risk: of those
appended, fewer than the policy's number have not been covered by a
`Log.sync`. That holds as long as `mark_synced` forgets no record that its
`Log.sync` came too early for (`Syncing.bounded`); nothing keeps it from that,
not even where every record is to be synced (`Syncing.forgotten`). A record
that is forgotten is in the file and with the operating system, so the end of
the process costs nothing; it is at risk when the power fails, and as long as
no later append brings a sync.

## Two conditions

A `mark_synced` comes in time if all the records that no `Log.sync` has
covered are still to be counted, or another append is about to sync
(`Remembers`): either way the counter will know of them, or need not. That
bounds the records at risk at every moment with no append in flight. Where
every record is to be synced more can be asked, that an append which has
returned has its own record covered, whatever other calls are doing; for that
a record must not be between its count and its question when the counter is
set back (`Awaits`). Both are conditions on the state before the step, and say
nothing about steps that are no `mark_synced`.

## The clock

A policy may sync by time as well. The milliseconds since the last sync are an
argument of the step that asks, and any number of them: the bound by records
has to hold whatever the clock says, and a sync that the clock brings about is
one more that may come too early.
-/

namespace Pyka

open Struct (Bytes)

namespace Syncing

/-- **Who syncs**: an append, which has put its record at an offset, or
`Topic.sync`. The two go the same way from there. -/
inductive Caller
  | append (offset : ℤ)
  | sync
  deriving DecidableEq

/-- **How far a call has got.** -/
inductive Call
  | called (key value : Option Bytes) (timestamp : Option ℤ)
  /-- The record is in the log, and not yet in the counter. -/
  | appended (offset : ℤ)
  /-- The policy is to be asked. -/
  | counted (offset : ℤ)
  /-- `Log.sync` is to be called. -/
  | due (caller : Caller)
  /-- `mark_synced` is to be called. -/
  | synced (caller : Caller)
  | returned (caller : Caller)
  | raised (e : PyError)
  deriving DecidableEq

namespace Call

/-- An append that has not returned. A `Topic.sync` that is under way is not
counted. -/
def InFlight : Call → Prop
  | called _ _ _ | appended _ | counted _ => True
  | due (.append _) | synced (.append _) => True
  | _ => False

/-- An append whose record is not in the counter, from an offset on: it will
be, by the append's next step. -/
def uncounted (offset : ℤ) : Call → Bool
  | appended o => decide (offset ≤ o)
  | _ => false

/-- An append that will call `Log.sync` by its next step. -/
def Syncs : Call → Prop
  | due (.append _) => True
  | _ => False

/-- An append that may still call `Log.sync`: it will, or has yet to ask. -/
def MaySync : Call → Prop
  | counted _ => True
  | due (.append _) => True
  | _ => False

/-- The offset of an append's record, once it is in the log, also after the
call has returned. -/
def offset? : Call → Option ℤ
  | appended offset | counted offset => some offset
  | due (.append offset) | synced (.append offset) | returned (.append offset) => some offset
  | _ => none

/-- An append behind its `Log.sync`, or behind a policy that asked for
none. -/
def Behind : Call → Prop
  | synced (.append _) | returned (.append _) => True
  | _ => False

/-- What will sync may. -/
theorem Syncs.maySync : {c : Call} → c.Syncs → c.MaySync
  | due (.append _), h => h

end Call

/-- **A partition that is open**, and the calls there were. The counter is
what the program has; `covered` is counted beside, and no step depends on it. -/
structure State where
  log : Log
  dir : Dir
  /-- The counter of appends. -/
  appends : ℕ
  /-- Where the log ended at the last `Log.sync`, or when it was opened. -/
  covered : ℤ
  calls : List Call

namespace State

/-- How many appended records no `Log.sync` has covered. These are what a
power failure can take. -/
def uncovered (s : State) : ℤ := s.log.nextOffset - s.covered

/-- How many of them are not in the counter yet. -/
def uncounted (s : State) : ℕ := s.calls.countP (Call.uncounted s.covered)

/-- No append is in flight: every one that came has returned or raised. -/
def Quiet (s : State) : Prop := ∀ c ∈ s.calls, ¬c.InFlight

/-- A call goes on, and what the calls share stays as it is. -/
def put (s : State) (i : ℕ) (c : Call) : State := { s with calls := s.calls.set i c }

end State

/-- **What happens**: an append or a sync is called, or a call goes on. The
clocks it reads then come with the step, so that they are not looked at
earlier than in the source. -/
inductive Act
  | append (key value : Option Bytes) (timestamp : Option ℤ)
  | sync
  | go (i : ℕ) (clock : ℤ) (elapsed : ℚ)

section Codec

variable [Crc32]

/-- **One step of a call.** A `Log.sync` covers the records that are in the
log when it is carried out, also those of other appends. -/
def go (policy : SyncPolicy) (s : State) (i : ℕ) (clock : ℤ) (elapsed : ℚ) : Call → Option State
  | .called key value timestamp =>
    match s.log.append (.of s.dir) key value timestamp clock with
    | (.error e, log, disk) => some (State.put { s with log, dir := disk.dir } i (.raised e))
    | (.ok offset, log, disk) =>
      some (State.put { s with log, dir := disk.dir } i (.appended offset))
  | .appended offset => some (State.put { s with appends := s.appends + 1 } i (.counted offset))
  | .counted offset =>
    some (s.put i (if policy.shouldSync s.appends elapsed then .due (.append offset)
      else .returned (.append offset)))
  | .due caller =>
    match s.log.sync (.of s.dir) with
    | (.error e, log, disk) => some (State.put { s with log, dir := disk.dir } i (.raised e))
    | (.ok (), log, disk) =>
      some (State.put { s with log, dir := disk.dir, covered := log.nextOffset } i (.synced caller))
  | .synced caller => some (State.put { s with appends := 0 } i (.returned caller))
  | .returned _ => none
  | .raised _ => none

/-- Take a step, where it can be taken. -/
def exec (policy : SyncPolicy) (s : State) : Act → Option State
  | .append key value timestamp =>
    some { s with calls := s.calls ++ [.called key value timestamp] }
  | .sync => some { s with calls := s.calls ++ [.due .sync] }
  | .go i clock elapsed => do go policy s i clock elapsed (← s.calls[i]?)

/-- **A partition just opened**, whatever happened to its directory before:
any lives, crashes and power failures. What the opening found counts as
covered, since the risk is that of the records of this life. -/
def Opened (s : State) : Prop :=
  ∃ directory before max appended synced, (Recovery.system directory).Reachable before
    ∧ Recovery.Step directory before (.reopen max) ⟨some s.log, s.dir, appended, synced⟩
    ∧ s.appends = 0 ∧ s.covered = s.log.nextOffset ∧ s.calls = []

/-- **The calls of a partition**, in any order of their steps. A call that
comes takes its place behind those there were. -/
def system (policy : SyncPolicy) : System State Act where
  start := Opened
  step s act s' := exec policy s act = some s'

/-! ## A call alone

With nothing between its steps, an append does what `Topic.appendTo` does. So
the steps are the function taken apart, and not another account of it. -/

/-- Where an append ends, by its answer: it has returned, or raised. -/
def Call.ended : Except PyError (ℤ × ℤ) → Call
  | .ok answer => .returned (.append answer.2)
  | .error e => .raised e

/-- The last call takes a step, and the others stay where they are. -/
theorem go_leads {policy : SyncPolicy} (clock : ℤ) (elapsed : ℚ) {s s' : State} {cs : List Call}
    {c : Call} (hs : s.calls = cs ++ [c]) (h : go policy s cs.length clock elapsed c = some s') :
    (system policy).Leads s s' :=
  .step (by
    show exec policy s (.go cs.length clock elapsed) = _
    simp only [exec, hs, List.getElem?_concat_length, Option.bind_eq_bind, Option.bind_some, h])

/-- Once its record is counted, an append ends with an answer. -/
theorem counted_leads (policy : SyncPolicy) {s : State} {cs : List Call} {offset : ℤ}
    (hs : s.calls = cs ++ [.counted offset]) (elapsed : ℚ) :
    (system policy).Leads s
      (if policy.shouldSync s.appends elapsed then
        match s.log.sync (.of s.dir) with
        | (.error e, log, disk) =>
          ⟨log, disk.dir, s.appends, s.covered, cs ++ [.raised e]⟩
        | (.ok (), log, disk) =>
          ⟨log, disk.dir, 0, log.nextOffset, cs ++ [.returned (.append offset)]⟩
      else ⟨s.log, s.dir, s.appends, s.covered, cs ++ [.returned (.append offset)]⟩) := by
  obtain ⟨log, dir, appends, covered, calls⟩ := s
  obtain rfl : calls = cs ++ [.counted offset] := hs
  have hset : ∀ c c' : Call, (cs ++ [c]).set cs.length c' = cs ++ [c'] := fun c c' => by simp
  by_cases hdue : policy.shouldSync appends elapsed
  · have hasked : (system policy).Leads ⟨log, dir, appends, covered, cs ++ [.counted offset]⟩
        ⟨log, dir, appends, covered, cs ++ [.due (.append offset)]⟩ :=
      go_leads 0 elapsed rfl (by simp only [go, if_pos hdue, State.put, hset])
    simp only [hdue, if_true]
    refine hasked.trans ?_
    cases hsync : log.sync (.of dir) with
    | mk res rest =>
    obtain ⟨log', disk⟩ := rest
    cases res with
    | error e =>
      exact go_leads 0 0 rfl (by simp only [go, hsync, State.put, hset])
    | ok u =>
      have hsynced : (system policy).Leads
          ⟨log, dir, appends, covered, cs ++ [.due (.append offset)]⟩
          ⟨log', disk.dir, appends, log'.nextOffset, cs ++ [.synced (.append offset)]⟩ :=
        go_leads 0 0 rfl (by simp only [go, hsync, State.put, hset])
      refine hsynced.trans ?_
      exact go_leads 0 0 rfl (by simp only [go, State.put, hset])
  · refine go_leads 0 elapsed rfl ?_
    simp only [go, if_neg hdue, State.put, hset]

/-- **The steps of an append are `Topic.appendTo`.** -/
theorem append_alone {t : Topic} {v : Volume} {name : String} {topic : OpenTopic} {partition : ℤ}
    {entry : Partition} {s : State} {cs : List Call} {key value : Option Bytes}
    {timestamp : Option ℤ} (hlog : s.log = entry.log) (happends : s.appends = entry.appends)
    (hdir : v.disk name partition.toNat = .of s.dir)
    (hcalls : s.calls = cs ++ [.called key value timestamp]) (clock : ℤ) (elapsed : ℚ) :
    ∃ answer entry' v' covered,
      t.appendTo v name topic partition entry key value timestamp clock elapsed
        = (answer, t.setEntry name topic partition.toNat entry', v')
      ∧ (system t.syncPolicy).Leads s ⟨entry'.log, (v'.disk name partition.toNat).dir,
          entry'.appends, covered, cs ++ [.ended answer]⟩ := by
  obtain ⟨log, dir, appends, covered, calls⟩ := s
  obtain ⟨elog, eappends⟩ := entry
  cases hlog
  cases happends
  obtain rfl : calls = cs ++ [.called key value timestamp] := hcalls
  have hset : ∀ c c' : Call, (cs ++ [c]).set cs.length c' = cs ++ [c'] := fun c c' => by simp
  have hpart : ∀ (v : Volume) (disk : Disk), (v.onPart name partition.toNat disk).disk name
      partition.toNat = .of disk.dir := fun v disk => by
    simp [Volume.disk]
  unfold Topic.appendTo
  simp only [hdir]
  cases happ : log.append (.of dir) key value timestamp clock with
  | mk res rest =>
  obtain ⟨log₁, disk₁⟩ := rest
  cases res with
  | error e =>
    refine ⟨_, _, _, covered, rfl, ?_⟩
    rw [hpart]
    exact go_leads clock 0 rfl (by simp only [go, happ, State.put, hset]; rfl)
  | ok offset =>
    simp only
    have hfirst : (system t.syncPolicy).Leads
        ⟨log, dir, appends, covered, cs ++ [.called key value timestamp]⟩
        ⟨log₁, disk₁.dir, appends, covered, cs ++ [.appended offset]⟩ :=
      go_leads clock 0 rfl (by simp only [go, happ, State.put, hset])
    have hsecond : (system t.syncPolicy).Leads
        ⟨log₁, disk₁.dir, appends, covered, cs ++ [.appended offset]⟩
        ⟨log₁, disk₁.dir, appends + 1, covered, cs ++ [.counted offset]⟩ :=
      go_leads 0 0 rfl (by simp only [go, State.put, hset])
    have hlast := counted_leads t.syncPolicy
      (s := ⟨log₁, disk₁.dir, appends + 1, covered, cs ++ [.counted offset]⟩) rfl elapsed
    have hleads := (hfirst.trans hsecond).trans hlast
    by_cases hdue : t.syncPolicy.shouldSync (appends + 1) elapsed
    · simp only [hdue, if_true, hpart] at hleads ⊢
      cases hsync : log₁.sync (.of disk₁.dir) with
      | mk res rest =>
      obtain ⟨log₂, disk₂⟩ := rest
      rw [hsync] at hleads
      cases res with
      | error e =>
        refine ⟨_, _, _, covered, rfl, ?_⟩
        rw [hpart]
        exact hleads
      | ok u =>
        refine ⟨_, _, _, log₂.nextOffset, rfl, ?_⟩
        rw [hpart]
        exact hleads
    · rw [if_neg hdue] at hleads ⊢
      refine ⟨_, _, _, covered, rfl, ?_⟩
      rw [hpart]
      exact hleads

/-! ## What a step does

Each step changes one call, and of what is shared at most one thing: the log's
next offset, what is covered, or the counter. What the log and its files do in
a step is used only up to that. -/

/-- The log is one that a life of the partition has come to. -/
def Logged (s : State) : Prop := ∃ records synced, s.log.Represents s.dir.logs.view records synced

/-- **A step of a call**, by where the call stood and where it stands, with
what it changes of the three numbers. The invariants below are shown by cases
on this, and none of them looks at a log. -/
inductive Moves (policy : SyncPolicy) (s s' : State) : Call → Call → Prop
  | append {key value : Option Bytes} {timestamp : Option ℤ}
      (hnext : s'.log.nextOffset = s.log.nextOffset + 1) (hcovered : s'.covered = s.covered)
      (happends : s'.appends = s.appends) :
      Moves policy s s' (.called key value timestamp) (.appended s.log.nextOffset)
  | refuse {key value : Option Bytes} {timestamp : Option ℤ} {e : PyError}
      (hnext : s'.log.nextOffset = s.log.nextOffset) (hcovered : s'.covered = s.covered)
      (happends : s'.appends = s.appends) :
      Moves policy s s' (.called key value timestamp) (.raised e)
  | count {offset : ℤ} (hnext : s'.log.nextOffset = s.log.nextOffset)
      (hcovered : s'.covered = s.covered) (happends : s'.appends = s.appends + 1) :
      Moves policy s s' (.appended offset) (.counted offset)
  | decide {offset : ℤ} (hnext : s'.log.nextOffset = s.log.nextOffset)
      (hcovered : s'.covered = s.covered) (happends : s'.appends = s.appends) :
      Moves policy s s' (.counted offset) (.due (.append offset))
  | leave {offset : ℤ} (hnext : s'.log.nextOffset = s.log.nextOffset)
      (hcovered : s'.covered = s.covered) (happends : s'.appends = s.appends)
      (hpolicy : ∀ k, policy.records = some k → s.appends < k) :
      Moves policy s s' (.counted offset) (.returned (.append offset))
  | sync {caller : Caller} (hnext : s'.log.nextOffset = s.log.nextOffset)
      (hcovered : s'.covered = s.log.nextOffset) (happends : s'.appends = s.appends) :
      Moves policy s s' (.due caller) (.synced caller)
  | mark {caller : Caller} (hnext : s'.log.nextOffset = s.log.nextOffset)
      (hcovered : s'.covered = s.covered) (happends : s'.appends = 0) :
      Moves policy s s' (.synced caller) (.returned caller)

/-- A log appends a record under its next offset, or raises and is as it
was. -/
theorem Logged.append {s : State} (h : Logged s) (key value : Option Bytes) (timestamp : Option ℤ)
    (clock : ℤ) :
    ∃ log disk, ((∃ e, s.log.append (.of s.dir) key value timestamp clock = (.error e, log, disk))
        ∧ log.nextOffset = s.log.nextOffset
      ∨ s.log.append (.of s.dir) key value timestamp clock = (.ok s.log.nextOffset, log, disk)
        ∧ log.nextOffset = s.log.nextOffset + 1)
      ∧ ∃ records synced, log.Represents disk.dir.logs.view records synced := by
  obtain ⟨records, synced, h⟩ := h
  have h : s.log.Represents (Disk.of s.dir).view records synced := h
  have hnext : s.log.nextOffset = records.length := h.nextOffset_eq
  cases he : Record.encode ⟨records.length, timestamp.getD clock, key, value⟩ with
  | error e =>
    obtain ⟨log, disk, happ, h', -⟩ := h.append_refused rfl he
    exact ⟨log, disk, .inl ⟨⟨e, happ⟩, h'.nextOffset_eq.trans hnext.symm⟩, records, synced, h'⟩
  | ok bs =>
    obtain ⟨log, disk, happ, h', -⟩ := h.append (r := ⟨records.length, timestamp.getD clock, key,
      value⟩) rfl ((Record.encode_eq_ok_iff _ _).mp he).1
    refine ⟨log, disk, .inr ⟨hnext ▸ happ, ?_⟩, _, synced, h'⟩
    rw [h'.nextOffset_eq, hnext, List.length_append, List.length_singleton, Nat.cast_succ]

/-- A log syncs, and ends where it ended. -/
theorem Logged.sync {s : State} (h : Logged s) :
    ∃ log disk, s.log.sync (.of s.dir) = (.ok (), log, disk) ∧ log.nextOffset = s.log.nextOffset
      ∧ ∃ records synced, log.Represents disk.dir.logs.view records synced := by
  obtain ⟨records, synced, h⟩ := h
  have h : s.log.Represents (Disk.of s.dir).view records synced := h
  obtain ⟨log, disk, hsync, h', -⟩ := h.sync
  exact ⟨log, disk, hsync, h'.nextOffset_eq.trans h.nextOffset_eq.symm, _, _, h'⟩

/-- **What a step of a call does.** -/
theorem Logged.go {policy : SyncPolicy} {s s' : State} (h : Logged s) {i : ℕ} {clock : ℤ}
    {elapsed : ℚ} {c : Call} (hgo : go policy s i clock elapsed c = some s') :
    Logged s' ∧ ∃ c', Moves policy s s' c c' ∧ s'.calls = s.calls.set i c' := by
  cases c with
  | called key value timestamp =>
    obtain ⟨log, disk, ⟨⟨e, happ⟩, hnext⟩ | ⟨happ, hnext⟩, h'⟩ := h.append key value timestamp clock
    · simp only [Syncing.go, happ] at hgo
      cases hgo
      exact ⟨h', _, .refuse hnext rfl rfl, rfl⟩
    · simp only [Syncing.go, happ] at hgo
      cases hgo
      exact ⟨h', _, .append hnext rfl rfl, rfl⟩
  | appended offset =>
    cases hgo
    exact ⟨h, _, .count rfl rfl rfl, rfl⟩
  | counted offset =>
    cases hgo
    by_cases hdue : policy.shouldSync s.appends elapsed
    · rw [if_pos hdue]
      exact ⟨h, _, .decide rfl rfl rfl, rfl⟩
    · rw [if_neg hdue]
      refine ⟨h, _, .leave rfl rfl rfl fun k hk => ?_, rfl⟩
      unfold SyncPolicy.shouldSync at hdue
      rw [hk] at hdue
      simp only [Bool.or_eq_true, decide_eq_true_eq, not_or, not_le] at hdue
      exact hdue.1
  | due caller =>
    obtain ⟨log, disk, hsync, hnext, h'⟩ := h.sync
    simp only [Syncing.go, hsync] at hgo
    cases hgo
    exact ⟨h', _, .sync hnext hnext rfl, rfl⟩
  | synced caller =>
    cases hgo
    exact ⟨h, _, .mark rfl rfl rfl, rfl⟩
  | returned caller => cases hgo
  | raised e => cases hgo

/-- **What a step does**: a call comes, or a call goes on. The log stays one
that a life can have come to. -/
theorem Logged.exec {policy : SyncPolicy} {s s' : State} (h : Logged s) {act : Act}
    (hexec : exec policy s act = some s') :
    Logged s'
      ∧ ((∃ c, ((∃ key value timestamp, c = .called key value timestamp) ∨ c = .due .sync)
            ∧ s' = { s with calls := s.calls ++ [c] })
        ∨ ∃ i clock elapsed c c', act = .go i clock elapsed ∧ s.calls[i]? = some c
            ∧ Moves policy s s' c c' ∧ s'.calls = s.calls.set i c') := by
  cases act with
  | append key value timestamp =>
    cases hexec
    exact ⟨h, .inl ⟨_, .inl ⟨key, value, timestamp, rfl⟩, rfl⟩⟩
  | sync =>
    cases hexec
    exact ⟨h, .inl ⟨_, .inr rfl, rfl⟩⟩
  | go i clock elapsed =>
    simp only [Syncing.exec, Option.bind_eq_bind, Option.bind_eq_some_iff] at hexec
    obtain ⟨c, hc, hgo⟩ := hexec
    obtain ⟨h', c', hmoves, hcalls⟩ := h.go hgo
    exact ⟨h', .inr ⟨i, clock, elapsed, c, c', rfl, hc, hmoves, hcalls⟩⟩

/-- A log just opened is one. -/
theorem logged_of_opened {s : State} (h : Opened s) : Logged s := by
  obtain ⟨directory, before, max, appended, synced, hreach, hstep, -⟩ := h
  exact ⟨appended, synced, Recovery.good_step (hreach.invariant
    (fun s hs => Recovery.good_start hs) fun s e s' hs h => Recovery.good_step hs h) hstep⟩

/-! ## The bound

Two invariants, one for any number of records and one for a sync after each.
Both are about the numbers of a state and where its calls stand. -/

section Lists

variable {α : Type*} {l : List α} {i : ℕ} {a b : α}

omit [Crc32] in
/-- Changing one of several changes the count by what it counts for. Stated
with sums on both sides, since there is no telling which of the two is the
larger. -/
theorem countP_set_add (q : α → Bool) (h : l[i]? = some a) :
    (l.set i b).countP q + (if q a then 1 else 0) = l.countP q + if q b then 1 else 0 := by
  obtain ⟨hi, rfl⟩ := List.getElem?_eq_some_iff.mp h
  rw [List.countP_set hi]
  have hpos : q l[i] → 0 < l.countP q := fun hq =>
    List.countP_pos_iff.mpr ⟨_, List.getElem_mem hi, hq⟩
  by_cases hq : q l[i]
  · have := hpos hq
    rw [if_pos hq]
    omega
  · rw [if_neg hq]
    omega

omit [Crc32] in
/-- What another one is stays so, and what the one that changes is, if it
keeps it. -/
theorem exists_mem_set {P : α → Prop} (h : l[i]? = some a) (hex : ∃ x ∈ l, P x)
    (hkept : P a → P b) : ∃ x ∈ l.set i b, P x := by
  obtain ⟨hi, rfl⟩ := List.getElem?_eq_some_iff.mp h
  obtain ⟨x, hx, hP⟩ := hex
  obtain ⟨j, hj, rfl⟩ := List.getElem_of_mem hx
  by_cases hij : i = j
  · subst hij
    exact ⟨b, List.mem_set hi b, hkept hP⟩
  · exact ⟨l[j], List.mem_iff_getElem.mpr ⟨j, by simpa using hj, List.getElem_set_ne hij _⟩, hP⟩

end Lists

/-- **`mark_synced` comes in time**: a record that no `Log.sync` has covered
is not in the counter yet when it is set back, or some append is about to
call `Log.sync`. -/
def Remembers (s : State) : Act → Prop
  | .go i _ _ => ∀ caller, s.calls[i]? = some (.synced caller) →
      s.uncovered ≤ s.uncounted ∨ ∃ c ∈ s.calls, c.Syncs
  | _ => True

/-- **`mark_synced` waits for the question**: no append has counted a record
that no `Log.sync` has covered and is yet to ask. -/
def Awaits (s : State) : Act → Prop
  | .go i _ _ => ∀ caller, s.calls[i]? = some (.synced caller) →
      ∀ offset, .counted offset ∈ s.calls → offset < s.covered
  | _ => True

/-- **The invariant of the counter**: of the records not covered, those that
are counted are in the counter, and there are fewer than the policy allows –
unless some append is to see to it. The second part is what is wanted; the
first is what carries it over the question to the policy, which looks at the
counter alone. -/
structure Bounded (k : ℤ) (s : State) : Prop where
  logged : Logged s
  counter : s.uncovered ≤ s.appends + s.uncounted ∨ ∃ c ∈ s.calls, c.Syncs
  few : s.uncovered < k + s.uncounted ∨ ∃ c ∈ s.calls, c.MaySync

/-- When a partition has just been opened, nothing is at risk. -/
theorem Bounded.of_opened {k : ℤ} (hk : 1 ≤ k) {s : State} (h : Opened s) : Bounded k s := by
  have hlogged := logged_of_opened h
  obtain ⟨directory, before, max, appended, synced, hreach, hstep, happends, hcovered, hcalls⟩ := h
  have hzero : s.uncovered = 0 := by rw [State.uncovered, hcovered, sub_self]
  exact ⟨hlogged, .inl (by omega), .inl (by omega)⟩

/-- A step of a call keeps the bound. The one step that could break it is
`mark_synced`, and there the condition says what is needed. -/
theorem Bounded.moves {policy : SyncPolicy} {k : ℤ} (hpolicy : policy.records = some k)
    (hk : 1 ≤ k) {s s' : State} (h : Bounded k s) (hlogged : Logged s') {i : ℕ} {c c' : Call}
    (hc : s.calls[i]? = some c) (hcalls : s'.calls = s.calls.set i c')
    (hmark : ∀ caller, c = .synced caller →
      s.uncovered ≤ s.uncounted ∨ ∃ c ∈ s.calls, c.Syncs)
    (hmoves : Moves policy s s' c c') : Bounded k s' := by
  have hi : i < s.calls.length := (List.getElem?_eq_some_iff.mp hc).1
  have hc' : c' ∈ s'.calls := hcalls ▸ List.mem_set hi c'
  -- what is counted moves with the call, as long as nothing else is covered
  have huncounted : s'.covered = s.covered →
      s'.uncounted + (if c.uncounted s.covered then 1 else 0)
        = s.uncounted + if c'.uncounted s.covered then 1 else 0 := fun hcovered => by
    rw [State.uncounted, State.uncounted, hcovered, hcalls]
    exact countP_set_add _ hc
  have hsyncs : (c.Syncs → c'.Syncs) → (∃ x ∈ s.calls, x.Syncs) → ∃ x ∈ s'.calls, x.Syncs :=
    fun hkept hex => hcalls ▸ exists_mem_set hc hex hkept
  have hmay : (c.MaySync → c'.MaySync) → (∃ x ∈ s.calls, x.MaySync) → ∃ x ∈ s'.calls, x.MaySync :=
    fun hkept hex => hcalls ▸ exists_mem_set hc hex hkept
  obtain ⟨-, hcounter, hfew⟩ := h
  unfold State.uncovered at hcounter hfew hmark
  cases hmoves with
  | append hnext hcovered happends =>
    have hone := huncounted hcovered
    simp only [Call.uncounted, Bool.false_eq_true, if_false, decide_eq_true_eq] at hone
    refine ⟨hlogged, hcounter.imp (fun hle => ?_) (hsyncs False.elim),
      hfew.imp (fun hlt => ?_) (hmay False.elim)⟩
    · unfold State.uncovered
      split_ifs at hone <;> omega
    · unfold State.uncovered
      split_ifs at hone <;> omega
  | refuse hnext hcovered happends =>
    have hsame := huncounted hcovered
    simp only [Call.uncounted, Bool.false_eq_true, if_false] at hsame
    refine ⟨hlogged, hcounter.imp (fun hle => ?_) (hsyncs False.elim),
      hfew.imp (fun hlt => ?_) (hmay False.elim)⟩ <;> unfold State.uncovered <;> omega
  | count hnext hcovered happends =>
    have hone := huncounted hcovered
    simp only [Call.uncounted, Bool.false_eq_true, if_false, decide_eq_true_eq] at hone
    refine ⟨hlogged, hcounter.imp (fun hle => ?_) (hsyncs False.elim), .inr ⟨_, hc', trivial⟩⟩
    unfold State.uncovered
    split_ifs at hone <;> omega
  | decide hnext hcovered happends =>
    exact ⟨hlogged, .inr ⟨_, hc', trivial⟩, .inr ⟨_, hc', trivial⟩⟩
  | leave hnext hcovered happends hnot =>
    have hlt := hnot k hpolicy
    have hsame := huncounted hcovered
    simp only [Call.uncounted, Bool.false_eq_true, if_false] at hsame
    refine ⟨hlogged, hcounter.imp (fun hle => ?_) (hsyncs False.elim), ?_⟩
    · unfold State.uncovered
      omega
    · -- the counter is below the policy's number, so no more are uncovered
      refine hcounter.imp (fun hle => ?_) fun hex => ?_
      · unfold State.uncovered
        omega
      · obtain ⟨x, hx, hP⟩ := hsyncs False.elim hex
        exact ⟨x, hx, hP.maySync⟩
  | sync hnext hcovered happends =>
    have hzero : s'.uncovered = 0 := by rw [State.uncovered, hnext, hcovered, sub_self]
    exact ⟨hlogged, .inl (by omega), .inl (by omega)⟩
  | @mark caller hnext hcovered happends =>
    have hsame := huncounted hcovered
    simp only [Call.uncounted, Bool.false_eq_true, if_false] at hsame
    refine ⟨hlogged, (hmark caller rfl).imp (fun hle => ?_) (hsyncs False.elim),
      hfew.imp (fun hlt => ?_) (hmay False.elim)⟩ <;> unfold State.uncovered <;> omega

/-- A call that comes keeps the bound. -/
theorem Bounded.comes {k : ℤ} {s : State} (h : Bounded k s) {c : Call}
    (hc : (∃ key value timestamp, c = .called key value timestamp) ∨ c = .due .sync) :
    Bounded k { s with calls := s.calls ++ [c] } := by
  have huncounted : State.uncounted { s with calls := s.calls ++ [c] } = s.uncounted := by
    unfold State.uncounted
    rw [List.countP_append, List.countP_singleton]
    rcases hc with ⟨key, value, timestamp, rfl⟩ | rfl <;> rfl
  have hmore : ∀ {P : Call → Prop}, (∃ x ∈ s.calls, P x) → ∃ x ∈ s.calls ++ [c], P x :=
    fun ⟨x, hx, hP⟩ => ⟨x, List.mem_append_left _ hx, hP⟩
  refine ⟨h.logged, h.counter.imp (fun hle => ?_) hmore, h.few.imp (fun hlt => ?_) hmore⟩
  · rw [huncounted]
    exact hle
  · rw [huncounted]
    exact hlt

/-- **A step keeps the bound**, if `mark_synced` comes in time. -/
theorem Bounded.step {policy : SyncPolicy} {k : ℤ} (hpolicy : policy.records = some k)
    (hk : 1 ≤ k) {s s' : State} (h : Bounded k s) {act : Act} (hkept : Remembers s act)
    (hexec : Syncing.exec policy s act = some s') : Bounded k s' := by
  obtain ⟨hlogged, ⟨c, hc, rfl⟩ | ⟨i, clock, elapsed, c, c', rfl, hc, hmoves, hcalls⟩⟩ :=
    h.logged.exec hexec
  · exact h.comes hc
  · exact h.moves hpolicy hk hlogged hc hcalls
      (fun caller hcall => hkept caller (hcall ▸ hc)) hmoves

/-- With no append in flight, the records not covered are fewer than the
policy allows: there is no append left that might see to it. -/
theorem Bounded.quiet {k : ℤ} {s : State} (h : Bounded k s) (hquiet : s.Quiet) :
    s.uncovered < k := by
  have hnone : s.uncounted = 0 := List.countP_eq_zero.mpr fun c hc hu => by
    cases c with
    | appended offset => exact hquiet _ hc trivial
    | _ => cases hu
  rcases h.few with hlt | ⟨c, hc, hmay⟩
  · omega
  · cases c with
    | counted offset => exact absurd trivial (hquiet _ hc)
    | due caller =>
      cases caller with
      | append offset => exact absurd trivial (hquiet _ hc)
      | sync => exact hmay.elim
    | _ => exact hmay.elim

/-- **The invariant where every record is to be synced**: an append that has
asked the policy has its record covered, and one that has yet to ask will find
it in the counter. -/
structure Covered (s : State) : Prop where
  logged : Logged s
  covered_le : s.covered ≤ s.log.nextOffset
  below : ∀ c ∈ s.calls, ∀ offset ∈ c.offset?, offset < s.log.nextOffset
  counted : ∀ offset, .counted offset ∈ s.calls → offset < s.covered ∨ 1 ≤ s.appends
  behind : ∀ c ∈ s.calls, c.Behind → ∀ offset ∈ c.offset?, offset < s.covered

/-- At first there are no calls of which anything is asked. -/
theorem Covered.of_opened {s : State} (h : Opened s) : Covered s := by
  have hlogged := logged_of_opened h
  obtain ⟨directory, before, max, appended, synced, hreach, hstep, happends, hcovered, hcalls⟩ := h
  have hnone : ∀ c, c ∉ s.calls := fun c hc => by
    rw [hcalls] at hc
    cases hc
  exact ⟨hlogged, hcovered.le, fun c hc => absurd hc (hnone c), fun _ hc => absurd hc (hnone _),
    fun c hc => absurd hc (hnone c)⟩

/-- What a call that goes on has to bring along, as the others keep what they
have. -/
theorem Covered.set {s s' : State} (h : Covered s) (hlogged : Logged s') {i : ℕ} {c : Call}
    (hcalls : s'.calls = s.calls.set i c) (hnext : s.log.nextOffset ≤ s'.log.nextOffset)
    (hcovered : s.covered ≤ s'.covered) (hle : s'.covered ≤ s'.log.nextOffset)
    (hothers : ∀ offset, .counted offset ∈ s.calls → offset < s'.covered ∨ 1 ≤ s'.appends)
    (hbelow : ∀ offset ∈ c.offset?, offset < s'.log.nextOffset)
    (hcounted : ∀ offset, c = .counted offset → offset < s'.covered ∨ 1 ≤ s'.appends)
    (hbehind : c.Behind → ∀ offset ∈ c.offset?, offset < s'.covered) : Covered s' := by
  have hor : ∀ {x}, x ∈ s'.calls → x ∈ s.calls ∨ x = c := fun hx =>
    List.mem_or_eq_of_mem_set (hcalls ▸ hx)
  refine ⟨hlogged, hle, fun x hx offset ho => ?_, fun offset hx => ?_, fun x hx hb offset ho => ?_⟩
  · rcases hor hx with hx | rfl
    · exact (h.below x hx offset ho).trans_le hnext
    · exact hbelow offset ho
  · rcases hor hx with hx | hx
    · exact hothers offset hx
    · exact hcounted offset hx.symm
  · rcases hor hx with hx | rfl
    · exact (h.behind x hx hb offset ho).trans_le hcovered
    · exact hbehind hb offset ho

/-- A step of a call keeps it. The policy is looked at where an append leaves
without a sync. -/
theorem Covered.moves {policy : SyncPolicy} (hpolicy : policy.records = some 1) {s s' : State}
    (h : Covered s) (hlogged : Logged s') {i : ℕ} {c c' : Call} (hc : s.calls[i]? = some c)
    (hcalls : s'.calls = s.calls.set i c')
    (hmark : ∀ caller, c = .synced caller → ∀ offset, .counted offset ∈ s.calls →
      offset < s.covered)
    (hmoves : Moves policy s s' c c') : Covered s' := by
  have hmem : c ∈ s.calls := List.mem_of_getElem? hc
  have hle := h.covered_le
  have hothers : s'.covered = s.covered → s.appends ≤ s'.appends →
      ∀ offset, .counted offset ∈ s.calls → offset < s'.covered ∨ 1 ≤ s'.appends :=
    fun hcovered happends offset ho => (h.counted offset ho).imp (fun hlt => hcovered ▸ hlt)
      fun hone => hone.trans happends
  cases hmoves with
  | append hnext hcovered happends =>
    refine h.set hlogged hcalls (by omega) hcovered.ge (by omega) (hothers hcovered happends.ge)
      (fun offset ho => ?_) (fun _ ho => by cases ho) False.elim
    obtain rfl : s.log.nextOffset = offset := Option.some.inj ho
    omega
  | refuse hnext hcovered happends =>
    exact h.set hlogged hcalls hnext.ge hcovered.ge (by omega) (hothers hcovered happends.ge)
      (fun _ ho => by cases ho) (fun _ ho => by cases ho) False.elim
  | count hnext hcovered happends =>
    exact h.set hlogged hcalls hnext.ge hcovered.ge (by omega) (hothers hcovered (by omega))
      (fun offset ho => (h.below _ hmem offset ho).trans_le hnext.ge)
      (fun _ _ => .inr (by omega)) False.elim
  | decide hnext hcovered happends =>
    exact h.set hlogged hcalls hnext.ge hcovered.ge (by omega) (hothers hcovered happends.ge)
      (fun offset ho => (h.below _ hmem offset ho).trans_le hnext.ge)
      (fun _ ho => by cases ho) False.elim
  | @leave own hnext hcovered happends hnot =>
    -- the counter was 0, so the record has been covered since it was counted
    have hlt := hnot 1 hpolicy
    have hown : own < s'.covered := by
      rcases h.counted own hmem with hown | hone <;> omega
    refine h.set hlogged hcalls hnext.ge hcovered.ge (by omega) (hothers hcovered happends.ge)
      (fun offset ho => (h.below _ hmem offset ho).trans_le hnext.ge) (fun _ ho => by cases ho)
      fun _ offset ho => ?_
    obtain rfl : own = offset := Option.some.inj ho
    exact hown
  | @sync caller hnext hcovered happends =>
    have hall : ∀ offset ∈ (Call.synced caller).offset?, offset < s'.covered := fun offset ho => by
      rw [hcovered]
      cases caller with
      | append own => exact h.below _ hmem offset ho
      | sync => cases ho
    exact h.set hlogged hcalls hnext.ge (by omega) (by omega)
      (fun offset ho => .inl (hcovered ▸ h.below _ ho offset rfl))
      (fun offset ho => (hall offset ho).trans_le (by omega)) (fun _ ho => by cases ho)
      fun _ => hall
  | @mark caller hnext hcovered happends =>
    have hall : ∀ offset ∈ (Call.returned caller).offset?, offset < s'.covered :=
        fun offset ho => by
      rw [hcovered]
      cases caller with
      | append own => exact h.behind _ hmem trivial offset ho
      | sync => cases ho
    exact h.set hlogged hcalls hnext.ge hcovered.ge (by omega)
      (fun offset ho => .inl (hcovered ▸ hmark caller rfl offset ho))
      (fun offset ho => (hall offset ho).trans_le (by omega)) (fun _ ho => by cases ho)
      fun _ => hall

/-- A call that comes keeps it: it has no record in the log. -/
theorem Covered.comes {s : State} (h : Covered s) {c : Call}
    (hc : (∃ key value timestamp, c = .called key value timestamp) ∨ c = .due .sync) :
    Covered { s with calls := s.calls ++ [c] } := by
  have hnone : c.offset? = none ∧ ¬c.Behind ∧ ∀ offset, .counted offset ≠ c := by
    rcases hc with ⟨key, value, timestamp, rfl⟩ | rfl
    · exact ⟨rfl, False.elim, fun _ ho => by cases ho⟩
    · exact ⟨rfl, False.elim, fun _ ho => by cases ho⟩
  obtain ⟨hoffset, hbehind, hcounted⟩ := hnone
  refine ⟨h.logged, h.covered_le, fun x hx offset ho => ?_, fun offset hx => ?_,
    fun x hx hb offset ho => ?_⟩
  · rcases List.mem_append.mp hx with hx | hx
    · exact h.below x hx offset ho
    · cases List.mem_singleton.mp hx
      rw [hoffset] at ho
      cases ho
  · rcases List.mem_append.mp hx with hx | hx
    · exact h.counted offset hx
    · exact absurd (List.mem_singleton.mp hx) (hcounted offset)
  · rcases List.mem_append.mp hx with hx | hx
    · exact h.behind x hx hb offset ho
    · cases List.mem_singleton.mp hx
      exact absurd hb hbehind

/-- **A step keeps it**, if `mark_synced` waits for the question. -/
theorem Covered.step {policy : SyncPolicy} (hpolicy : policy.records = some 1) {s s' : State}
    (h : Covered s) {act : Act} (hkept : Awaits s act)
    (hexec : Syncing.exec policy s act = some s') : Covered s' := by
  obtain ⟨hlogged, ⟨c, hc, rfl⟩ | ⟨i, clock, elapsed, c, c', rfl, hc, hmoves, hcalls⟩⟩ :=
    h.logged.exec hexec
  · exact h.comes hc
  · exact h.moves hpolicy hlogged hc hcalls (fun caller hcall => hkept caller (hcall ▸ hc)) hmoves

/-- **The policy bounds the records at risk**, in every run in which
`mark_synced` forgets none: with no append in flight, fewer records than the
policy's number have not been covered by a `Log.sync`; and where the policy
is to sync every record, every append that has returned is covered. -/
theorem bounded {policy : SyncPolicy} {k : ℤ} (hpolicy : policy.records = some k) (hk : 1 ≤ k) :
    (∀ s, ((system policy).given Remembers).Reachable s → s.Quiet → s.uncovered < k)
    ∧ (k = 1 → ∀ s, ((system policy).given Awaits).Reachable s →
        ∀ offset, .returned (.append offset) ∈ s.calls → offset < s.covered) := by
  refine ⟨fun s hreach hquiet => ?_, fun hone s hreach offset hmem => ?_⟩
  · have hinv : Bounded k s := hreach.invariant (fun s hs => .of_opened hk hs)
      fun s act s' hs hstep => hs.step hpolicy hk hstep.2 hstep.1
    exact hinv.quiet hquiet
  · subst hone
    have hinv : Covered s := hreach.invariant (fun s hs => .of_opened hs)
      fun s act s' hs hstep => hs.step hpolicy hstep.2 hstep.1
    exact hinv.behind _ hmem trivial offset rfl

/-! ## A record that is forgotten

Two appends at once, in a run that meets the condition and in one that does
not. They differ in when the second counts its record. -/

/-- A partition whose directory was empty: opened, with no record. -/
theorem exists_opened : ∃ log dir, Opened ⟨log, dir, 0, 0, []⟩
    ∧ log.Represents dir.logs.view [] 0 := by
  obtain ⟨max, -⟩ : ∃ max : SegmentLimit, (max : ℤ) = 2 ^ 30 := ⟨⟨2 ^ 30, by decide⟩, rfl⟩
  have hempty : Keeps (Disk.of Dir.empty).view [] 0 :=
    ⟨[], [], [], none, stored_empty fun b => rfl, rfl, Nat.zero_le _⟩
  obtain ⟨log, disk, hinit, hrep, -⟩ := Log.init_of_keeps _ "orders/0" max.2 hempty
  have hopened := @Recovery.Step.reopen _ "orders/0" log Dir.empty [] 0 max disk hinit
  rw [List.take_nil] at hopened
  have hnext : log.nextOffset = 0 := hrep.nextOffset_eq
  exact ⟨log, disk.dir, ⟨"orders/0", _, max, [], 0, System.Reachable.start rfl, hopened, rfl,
    hnext.symm, rfl⟩, hrep⟩

/-- An append to a log, of a record that can be encoded: the record is in it,
not yet counted. -/
theorem exec_append (policy : SyncPolicy) {s : State} {records : List Record} {synced : ℕ}
    (h : s.log.Represents s.dir.logs.view records synced) {i : ℕ}
    (hc : s.calls[i]? = some (.called none (some []) (some 0)))
    (henc : Record.Encodable ⟨records.length, 0, none, some []⟩) :
    ∃ log dir, exec policy s (.go i 0 0)
        = some (State.put { s with log, dir } i (.appended records.length))
      ∧ log.Represents dir.logs.view (records ++ [⟨records.length, 0, none, some []⟩]) synced := by
  have h : s.log.Represents (Disk.of s.dir).view records synced := h
  have hr : (⟨records.length, 0, none, some []⟩ : Record)
      = ⟨records.length, (some 0 : Option ℤ).getD 0, none, some []⟩ := rfl
  obtain ⟨log, disk, happ, h', -⟩ := h.append hr henc
  refine ⟨log, disk.dir, ?_, h'⟩
  simp only [exec, hc, Option.bind_eq_bind, Option.bind_some, go, happ]

/-- An append whose `Log.sync` is done, and its counter not set back: the
moment at which another one can be forgotten. -/
theorem exists_synced : ∃ log dir,
    ((system .everyRecord).given Awaits).Reachable ⟨log, dir, 1, 1, [.synced (.append 0)]⟩
      ∧ log.Represents dir.logs.view [⟨0, 0, none, some []⟩] 1 := by
  obtain ⟨log₀, dir₀, hopened, hrep₀⟩ := exists_opened
  have hgiven : ∀ {s s'} act, exec .everyRecord s act = some s' → Awaits s act →
      ((system .everyRecord).given Awaits).step s act s' := fun _ h h' => ⟨h, h'⟩
  have hcalled : ((system .everyRecord).given Awaits).Reachable
      ⟨log₀, dir₀, 0, 0, [.called none (some []) (some 0)]⟩ :=
    (System.Reachable.start hopened).step
      (hgiven (.append none (some []) (some 0)) rfl trivial)
  obtain ⟨log₁, dir₁, hexec, hrep₁⟩ := exec_append .everyRecord
    (s := ⟨log₀, dir₀, 0, 0, [.called none (some []) (some 0)]⟩) hrep₀ (i := 0) rfl (by decide)
  have happended := hcalled.step (hgiven _ hexec fun _ h => by cases h)
  have hcounted : ((system .everyRecord).given Awaits).Reachable
      ⟨log₁, dir₁, 1, 0, [.counted 0]⟩ :=
    happended.step (hgiven (.go 0 0 0) rfl fun _ h => by cases h)
  have hdue : ((system .everyRecord).given Awaits).Reachable
      ⟨log₁, dir₁, 1, 0, [.due (.append 0)]⟩ :=
    hcounted.step (hgiven (.go 0 0 0) rfl fun _ h => by cases h)
  have hrep₁ : log₁.Represents (Disk.of dir₁).view [⟨0, 0, none, some []⟩] 0 := hrep₁
  obtain ⟨log₂, disk₂, hsync, hrep₂, -⟩ := hrep₁.sync
  have hnext : log₂.nextOffset = 1 := hrep₂.nextOffset_eq
  refine ⟨log₂, disk₂.dir, hdue.step (hgiven (.go 0 0 0) ?_ fun _ h => by cases h), hrep₂⟩
  simp only [exec, List.getElem?_cons_zero, Option.bind_eq_bind, Option.bind_some, go, hsync, hnext]
  rfl

/-- Whether the call's counter can be set back now: `Log.sync` has covered all
records but those that are still to be counted, and no append is between its
count and its question. Stronger than the two conditions, and decidable. -/
def State.inTime (s : State) (i : ℕ) : Bool :=
  match s.calls[i]? with
  | some (.synced _) =>
    s.uncovered ≤ s.uncounted && s.calls.all fun c =>
      match c with
      | .counted _ => false
      | _ => true
  | _ => true

/-- A step that sets a counter back only in time. Runs of it are evaluated. -/
def execInTime (s : State) : Act → Option State
  | .go i clock elapsed =>
    if s.inTime i then exec .everyRecord s (.go i clock elapsed) else none
  | act => exec .everyRecord s act

/-- Each such step is one of the system, under both conditions. -/
theorem execInTime_some {s s' : State} {act : Act} (h : execInTime s act = some s') :
    exec .everyRecord s act = some s' ∧ Remembers s act ∧ Awaits s act := by
  cases act with
  | go i clock elapsed =>
    obtain ⟨htime, hexec⟩ := Option.ite_none_right_eq_some.mp h
    have hmark : ∀ caller, s.calls[i]? = some (.synced caller) → s.uncovered ≤ s.uncounted
        ∧ ∀ offset, .counted offset ∉ s.calls := fun caller hcall => by
      simp only [State.inTime, hcall, Bool.and_eq_true, decide_eq_true_eq, List.all_eq_true]
        at htime
      exact ⟨htime.1, fun offset hmem => by cases htime.2 _ hmem⟩
    exact ⟨hexec, fun caller hcall => Or.inl (hmark caller hcall).1,
      fun caller hcall offset hmem => absurd hmem ((hmark caller hcall).2 offset)⟩
  | append key value timestamp => exact ⟨h, trivial, trivial⟩
  | sync => exact ⟨h, trivial, trivial⟩

omit [Crc32] in
/-- Two appends, each to be synced. The second has put its record in the log
and not yet counted it when the first sets the counter back. Both have
returned in the end, and `Log.sync` has covered both records. -/
theorem bounded_two : let _ := Crc32.zlib
    ∃ s, ((system .everyRecord).given Remembers).Reachable s
      ∧ ((system .everyRecord).given Awaits).Reachable s
      ∧ s.calls = [.returned (.append 0), .returned (.append 1)] ∧ s.log.nextOffset = 2
      ∧ s.uncovered < 1 ∧ 1 < s.covered := by
  intro _
  let append : Act := .append none (some []) (some 0)
  let acts : List Act := [append, .go 0 0 0, .go 0 0 0, .go 0 0 0, .go 0 0 0, append, .go 1 0 0,
    .go 0 0 0, .go 1 0 0, .go 1 0 0, .go 1 0 0, .go 1 0 0]
  have hrun : ((Log.init (Disk.of Dir.empty) "orders/0" 4096).1.toOption.bind fun log =>
      (acts.foldlM execInTime ⟨log, (Log.init (Disk.of Dir.empty) "orders/0" 4096).2.dir, 0, 0,
        []⟩).map fun s => (s.calls, s.log.nextOffset))
      = some ([.returned (.append 0), .returned (.append 1)], 2) := by
    decide +kernel
  obtain ⟨max, hmax⟩ : ∃ max : SegmentLimit, (max : ℤ) = 4096 := ⟨⟨4096, by decide⟩, rfl⟩
  have hempty : Keeps (Disk.of Dir.empty).view [] 0 :=
    ⟨[], [], [], none, stored_empty fun b => rfl, rfl, Nat.zero_le _⟩
  obtain ⟨log, disk, hinit, hrep, -⟩ := Log.init_of_keeps _ "orders/0" max.2 hempty
  have hopened := @Recovery.Step.reopen _ "orders/0" log Dir.empty [] 0 max disk hinit
  rw [List.take_nil] at hopened
  have hstart : Opened ⟨log, disk.dir, 0, 0, []⟩ :=
    ⟨"orders/0", _, max, [], 0, System.Reachable.start rfl, hopened, rfl,
      Eq.symm (show log.nextOffset = 0 from hrep.nextOffset_eq), rfl⟩
  rw [← hmax, hinit] at hrun
  obtain ⟨s, hs, heq⟩ := Option.map_eq_some_iff.mp hrun
  obtain ⟨hcalls, hnext⟩ := Prod.mk.inj heq
  have hreach : ∀ C : State → Act → Prop, (∀ s act, Remembers s act ∧ Awaits s act → C s act) →
      ((system .everyRecord).given C).Reachable s := fun C hC =>
    (System.Reachable.start (S := (system .everyRecord).given C) hstart).foldlM
      (fun s act s' h => by
        obtain ⟨hexec, hkept⟩ := execInTime_some h
        exact ⟨hexec, hC s act hkept⟩) hs
  have hremembers := hreach Remembers fun _ _ h => h.1
  have hawaits := hreach Awaits fun _ _ h => h.2
  obtain ⟨hfew, hall⟩ := bounded (show SyncPolicy.everyRecord.records = some 1 from rfl) le_rfl
  refine ⟨s, hremembers, hawaits, hcalls, hnext, hfew s hremembers fun c hc => ?_,
    hall rfl s hawaits 1 (by rw [hcalls]; simp)⟩
  rw [hcalls] at hc
  rcases List.mem_pair.mp hc with rfl | rfl <;> exact id

omit [Crc32] in
/-- **A record that is forgotten.** Where every record is to be synced, a
record is appended and counted between another's `Log.sync` and its
`mark_synced`. Its append finds the counter at 0 and returns: no append is in
flight, and no `Log.sync` has covered the record. -/
theorem forgotten : let _ := Crc32.zlib
    ∃ s, (system .everyRecord).Reachable s ∧ s.Quiet
      ∧ s.calls = [.returned (.append 0), .returned (.append 1)] ∧ s.uncovered = 1 := by
  intro _
  obtain ⟨log, dir, hreach, hrep⟩ := exists_synced
  -- another append is called, puts its record in the log and counts it
  have hcalled : (system .everyRecord).Reachable
      ⟨log, dir, 1, 1, [.synced (.append 0), .called none (some []) (some 0)]⟩ :=
    hreach.of_given.step (e := .append none (some []) (some 0))
      (show exec _ _ _ = some _ from rfl)
  obtain ⟨log', dir', hexec, hrep'⟩ := exec_append .everyRecord
    (s := ⟨log, dir, 1, 1, [.synced (.append 0), .called none (some []) (some 0)]⟩) hrep (i := 1)
    rfl (by decide)
  have hcounted : (system .everyRecord).Reachable
      ⟨log', dir', 2, 1, [.synced (.append 0), .counted 1]⟩ :=
    (hcalled.step hexec).step (e := .go 1 0 0) (show exec _ _ _ = some _ from rfl)
  -- the first one's counter is set back, and the second one asks
  have hmarked : (system .everyRecord).Reachable
      ⟨log', dir', 0, 1, [.returned (.append 0), .counted 1]⟩ :=
    hcounted.step (e := .go 0 0 0) (show exec _ _ _ = some _ from rfl)
  have hreturned : (system .everyRecord).Reachable
      ⟨log', dir', 0, 1, [.returned (.append 0), .returned (.append 1)]⟩ :=
    hmarked.step (e := .go 1 0 0) (show exec _ _ _ = some _ from rfl)
  have hrep' : log'.Represents (Disk.of dir').view
    [⟨0, 0, none, some []⟩, ⟨1, 0, none, some []⟩] 1 := hrep'
  have hnext : log'.nextOffset = 2 := hrep'.nextOffset_eq
  refine ⟨_, hreturned, fun c hc => ?_, rfl, ?_⟩
  · rcases List.mem_pair.mp hc with rfl | rfl <;> exact id
  · rw [State.uncovered, hnext]
    rfl

end Codec

end Syncing

end Pyka
