import Pyka.Base.Circle
import Pyka.Storage.Types

/-!
# Rings

Which broker of a cluster a partition lives on. A ring computes it from what
every broker is started with, so that brokers agree without a word between
them: `Ring` takes the partition modulo the number of brokers, `HashRing` puts
brokers and partitions on a circle of digests. The two differ in `brokerFor`
only, so one structure stands for both and `Placement` says which it is.

## What brokers share

Of a ring, the number of brokers, the template of their addresses and the
placement are the same for all, and `me` is each one's own. Whatever does not
look at `me` is therefore the same for all (`brokerFor_congr`,
`routingTable_congr`); that is all the agreement there is, and nothing checks
that brokers were in fact started alike.

An address is `address_template.format`, which can fail for a template that is
no good, so it is a function that may raise. The digest of a hash ring is a
parameter: what is shown holds of any, collisions included, and so it does not
rest on how a hash function spreads names.

## Growing

By the remainder, another number of brokers moves nearly every partition. On
the circle a new broker takes over what comes to lie before its points and
nothing else (`brokerFor_grow`). The points of the brokers that were there
stay, since they depend on a broker's number and not on how many there are;
the rest is about points on a circle and is in `Base.Circle`.
-/

namespace Pyka

/-- **How partitions are placed**: the one thing in which the two rings
differ. -/
inductive Placement
  /-- `Ring`: by the remainder. -/
  | modulo
  /-- `HashRing`: on a circle, at `vnodes` places for each broker. -/
  | hashed (digest : String → ℕ) (vnodes : ℕ) (h : 0 < vnodes)

/-- A broker's view of its cluster. `address` is `address_template.format`;
its own number is one of the brokers'. -/
structure Ring where
  brokers : ℕ
  me : ℕ
  address : ℕ → Except PyError String
  placement : Placement
  me_lt : me < brokers

namespace Placement

/-- `HashRing._points`, before they are sorted. -/
def points (digest : String → ℕ) (brokers vnodes : ℕ) : List (ℕ × ℕ) :=
  (List.range brokers).flatMap fun broker =>
    (List.range vnodes).map fun v => (digest s!"broker-{broker}#{v}", broker)

/-- A point is one broker's, at one of its places. -/
theorem mem_points {digest : String → ℕ} {brokers vnodes : ℕ} {p : ℕ × ℕ} :
    p ∈ points digest brokers vnodes
      ↔ p.2 < brokers ∧ ∃ v < vnodes, digest s!"broker-{p.2}#{v}" = p.1 := by
  unfold points
  simp only [List.mem_flatMap, List.mem_range, List.mem_map]
  constructor
  · rintro ⟨b, hb, v, hv, rfl⟩
    exact ⟨hb, v, hv, rfl⟩
  · rintro ⟨hb, v, hv, h⟩
    exact ⟨p.2, hb, v, hv, Prod.ext h rfl⟩

/-- There is a point, so every partition has one to go to. -/
theorem points_pos (digest : String → ℕ) {brokers vnodes : ℕ} (hb : 0 < brokers)
    (hv : 0 < vnodes) : 0 < (points digest brokers vnodes).length :=
  List.length_pos_of_mem (mem_points.mpr
    (show (digest s!"broker-{0}#{0}", 0).2 < brokers ∧ _ from ⟨hb, 0, hv, rfl⟩))

/-- More brokers keep the points of fewer. -/
theorem points_subset (digest : String → ℕ) {small large : ℕ} (h : small ≤ large) (vnodes : ℕ) :
    points digest small vnodes ⊆ points digest large vnodes := fun p hp => by
  rw [mem_points] at hp ⊢
  exact ⟨hp.1.trans_le h, hp.2⟩

end Placement

namespace Ring

/-- `Ring(brokers, me, address_template)`, and `HashRing(...)`: both make the
same checks. -/
def init (brokers me : ℤ) (address : ℕ → Except PyError String) (placement : Placement) :
    Except PyError Ring := do
  raiseIf (brokers < 1) (.valueError s!"brokers must be >= 1, got {brokers}")
  if h : 0 ≤ me ∧ me < brokers then
    return { brokers := brokers.toNat, me := me.toNat, address, placement, me_lt := by omega }
  else
    .error (.valueError s!"broker ordinal {me} is outside a {brokers}-broker cluster")

/-- A ring has a broker, the one whose ring it is. -/
theorem brokers_pos (r : Ring) : 0 < r.brokers := (Nat.zero_le _).trans_lt r.me_lt

/-- **Which broker owns a partition**: the remainder, or the first point at or
behind the partition's digest. -/
def brokerFor (r : Ring) (topic : String) (partition : ℤ) : Except PyError ℕ := do
  raiseIf (partition < 0) (.valueError s!"partition must be >= 0, got {partition}")
  match r.placement with
  | .modulo => return (partition % r.brokers).toNat
  | .hashed digest vnodes h =>
    return (Circle.next (Placement.points digest r.brokers vnodes)
      (digest s!"{topic}:{partition}") (Placement.points_pos digest r.brokers_pos h)).2

/-- **Is this broker the owner?** The question that the topic registry asks. -/
def owns (r : Ring) (topic : String) (partition : ℤ) : Except PyError Bool := do
  return decide ((← r.brokerFor topic partition) = r.me)

/-- The partitions of a topic that this broker serves. -/
def myPartitions (r : Ring) (topic : String) (partitions : ℕ) : Except PyError (List ℕ) :=
  (List.range partitions).filterM fun p => r.owns topic p

/-- Where to reach a broker. -/
def addressOf (r : Ring) (broker : ℤ) : Except PyError String := do
  raiseIf (¬(0 ≤ broker ∧ broker < r.brokers))
    (.valueError s!"no broker {broker} in a {r.brokers}-broker cluster")
  r.address broker.toNat

/-- The address of every partition's owner, for a topic of so many partitions. -/
def routingTable (r : Ring) (topic : String) (partitions : ℕ) :
    Except PyError (List (ℕ × String)) :=
  (List.range partitions).mapM fun (p : ℕ) => do
    return (p, ← r.addressOf (← r.brokerFor topic p))

variable {r r' : Ring} {topic : String} {partition : ℤ}

/-- A negative partition has no owner. -/
theorem brokerFor_neg (h : partition < 0) : r.brokerFor topic partition
    = .error (.valueError s!"partition must be >= 0, got {partition}") := by
  unfold brokerFor raiseIf
  rw [if_pos h]
  rfl

/-- **Every partition has an owner**, one of the brokers. -/
theorem brokerFor_eq_ok (r : Ring) (topic : String) (h : 0 ≤ partition) :
    ∃ b < r.brokers, r.brokerFor topic partition = .ok b := by
  unfold brokerFor raiseIf
  rw [if_neg (not_lt.mpr h)]
  have hpos := r.brokers_pos
  cases hp : r.placement with
  | modulo =>
    refine ⟨(partition % r.brokers).toNat, ?_, rfl⟩
    have := Int.emod_lt_of_pos partition (show (0 : ℤ) < r.brokers by omega)
    have := Int.emod_nonneg partition (show (r.brokers : ℤ) ≠ 0 by omega)
    omega
  | hashed digest vnodes hv =>
    refine ⟨_, ?_, rfl⟩
    have hnext := Circle.next_isNext (Placement.points digest r.brokers vnodes)
      (digest s!"{topic}:{partition}") (Placement.points_pos digest hpos hv)
    exact (Placement.mem_points.mp hnext.1).1

/-- **Rings of one cluster agree** on the owner of every partition. -/
theorem brokerFor_congr (hb : r.brokers = r'.brokers) (hp : r.placement = r'.placement)
    (topic : String) (partition : ℤ) : r.brokerFor topic partition
      = r'.brokerFor topic partition := by
  obtain ⟨brokers, me, address, placement, hme⟩ := r
  obtain ⟨brokers', me', address', placement', hme'⟩ := r'
  subst hb hp
  rfl

/-- **Rings of one cluster agree** on where every partition is. -/
theorem routingTable_congr (hb : r.brokers = r'.brokers) (hp : r.placement = r'.placement)
    (ha : r.address = r'.address) (topic : String) (partitions : ℕ) :
    r.routingTable topic partitions = r'.routingTable topic partitions := by
  obtain ⟨brokers, me, address, placement, hme⟩ := r
  obtain ⟨brokers', me', address', placement', hme'⟩ := r'
  subst hb hp ha
  rfl

/-- A broker knows of each partition whether it is the owner. -/
theorem owns_eq_ok (r : Ring) (topic : String) (h : 0 ≤ partition) :
    ∃ b < r.brokers, r.brokerFor topic partition = .ok b
      ∧ r.owns topic partition = .ok (decide (b = r.me)) := by
  obtain ⟨b, hb, hfor⟩ := r.brokerFor_eq_ok topic h
  refine ⟨b, hb, hfor, ?_⟩
  unfold owns
  rw [hfor]
  rfl

/-! ## Growing a hash ring

Two rings with one digest, of which one has more brokers. Read the other way
round it is about shrinking. -/

/-- **Growing a `HashRing` moves partitions only onto new brokers**, and
shrinking one moves only what was on those that are gone. -/
theorem brokerFor_grow {digest : String → ℕ} {vnodes : ℕ} {hv : 0 < vnodes} {small large : Ring}
    (hsmall : small.placement = .hashed digest vnodes hv)
    (hlarge : large.placement = .hashed digest vnodes hv) (hle : small.brokers ≤ large.brokers)
    (topic : String) {partition : ℤ} (hp : 0 ≤ partition) :
    ∃ b, large.brokerFor topic partition = .ok b
      ∧ (small.brokerFor topic partition = .ok b ∨ small.brokers ≤ b ∧ b < large.brokers) := by
  obtain ⟨b, hb, hfor⟩ := large.brokerFor_eq_ok topic hp
  refine ⟨b, hfor, ?_⟩
  by_cases hlt : b < small.brokers
  · refine Or.inl ?_
    have hpos := Placement.points_pos digest small.brokers_pos hv
    have hpos' := Placement.points_pos digest large.brokers_pos hv
    unfold brokerFor raiseIf at hfor ⊢
    rw [if_neg (not_lt.mpr hp), hlarge] at hfor
    rw [if_neg (not_lt.mpr hp), hsmall]
    have hb' : (Circle.next _ (digest s!"{topic}:{partition}") hpos').2 = b := Except.ok.inj hfor
    -- the point next in the larger ring is an old broker's
    have hmem := (Circle.next_isNext _ (digest s!"{topic}:{partition}") hpos').1
    have hold : Circle.next _ (digest s!"{topic}:{partition}") hpos'
        ∈ Placement.points digest small.brokers vnodes :=
      Placement.mem_points.mpr ⟨by rw [hb']; exact hlt, (Placement.mem_points.mp hmem).2⟩
    have hsame := Circle.next_of_subset (digest s!"{topic}:{partition}") hpos hpos'
      (Placement.points_subset digest hle vnodes) hold
    show Except.ok (Circle.next _ (digest s!"{topic}:{partition}") hpos).2 = _
    rw [hsame, hb']
  · exact Or.inr ⟨not_lt.mp hlt, hb⟩

theorem brokerFor_grow_two_three :
    let ring (n : ℕ) (h : 0 < n) : Ring :=
      ⟨n, 0, fun b => .ok s!"pyka-{b}", .hashed String.length 1 Nat.one_pos, h⟩
    ∃ b, (ring 3 (by decide)).brokerFor "orders" 5 = .ok b
      ∧ ((ring 2 (by decide)).brokerFor "orders" 5 = .ok b ∨ 2 ≤ b ∧ b < 3) :=
  brokerFor_grow rfl rfl (by decide) "orders" (by decide)

end Ring

end Pyka
