import UnitDispatch.Proofs.Monotone
import UnitDispatch.Proofs.Recovery
import UnitDispatch.Proofs.Tracking

/-! # The reserve in its band

The reserve moves at the rate by which the drive exceeds the leg, so it moves the right way as long
as the leg keeps to the ramp limits. `Contained` is what carries this through every leg of an
advance and every action, however numbers are rounded, and `run_reserveInBand` what it comes to. One
way out of the limits is left: a change of settings that catches a generator at a due setpoint, with
a rate the new limits do not allow. With exact numbers nothing is ever due then; rounding may absorb
the time a ramp takes, and leave something due: see `run_overshoots`.
-/

namespace UnitDispatch

open Quantity

namespace Quantity

variable {α : Type} [Quantity α] {x y z q : α}

/-- What lies at `y` has come from `x` toward `q` and has not passed it. -/
def Toward (x q y : α) : Prop := x ≤ y ∧ y ≤ q ∨ q ≤ y ∧ y ≤ x

variable [Ordered α]

theorem Toward.trans (one : Toward x q y) (two : Toward y q z) : Toward x q z := by
  rcases one with ⟨low, high⟩ | ⟨low, high⟩ <;> rcases two with ⟨low', high'⟩ | ⟨low', high'⟩
  · exact .inl ⟨Ordered.le_trans low low', high'⟩
  · exact .inl ⟨Ordered.le_trans (Ordered.le_trans low high) low', Ordered.le_trans high' high⟩
  · exact .inr ⟨Ordered.le_trans low low', Ordered.le_trans (Ordered.le_trans high' low) high⟩
  · exact .inr ⟨low', Ordered.le_trans high' high⟩

theorem Toward.refl (hx : isNaN x = false) (hq : isNaN q = false) : Toward x q x := by
  by_cases below : x ≤ q
  · exact .inl ⟨Ordered.le_refl hx, below⟩
  · exact .inr ⟨Ordered.le_of_not_le hx hq below, Ordered.le_refl hx⟩

/-- Between two quantities that are not negative, nothing is. -/
theorem Toward.nonneg (toward : Toward x q y) (hx : 0 ≤ x) (hq : 0 ≤ q) : 0 ≤ y := by
  rcases toward with ⟨low, -⟩ | ⟨low, -⟩
  · exact Ordered.le_trans hx low
  · exact Ordered.le_trans hq low

end Quantity

section Laws

variable {α : Type} [Quantity α] [Rounded α]

/-! ## The reserve beside a leg -/

/-- At a rate that leads toward what is called for, the reserve moves toward it and not past it. -/
theorem Reserve.after_toward {r : Reserve α} {rate dt : α} (called : r.Called)
    (realized : 0 ≤ r.realized) (ahead : 0 < dt)
    (up : tolerance < r.gap → isNaN rate = false → 0 ≤ rate)
    (down : r.gap < -tolerance → isNaN rate = false → rate ≤ 0) :
    Toward r.realized r.requested (r.after rate dt) := by
  have hx := (Signed.defined_of_le realized).2
  have hq := (Signed.defined_of_le called.nonneg).2
  have positive : (0 : α) < tolerance := Rounded.zero_lt_thousandth
  unfold Reserve.after
  dsimp only
  split
  next short =>
    have gap := (Ordered.defined_of_lt short).2
    have below : r.realized ≤ r.requested := by
      by_contra above
      have excess := Rounded.sub_nonpos (Ordered.le_of_not_le hx hq above) gap
      exact Rounded.not_lt_of_le excess (Ordered.lt_of_lt_of_le positive (Ordered.le_of_lt short))
    refine .inl ⟨le_lesser ?_ below, Ordered.lesser_le_right hq _⟩
    intro defined
    have product := Rounded.defined_of_add defined
    exact Rounded.le_add (Rounded.mul_nonneg_of_defined (up short (Rounded.defined_of_mul product))
      (Ordered.le_of_lt ahead) product) defined
  · split
    next long =>
      have gap := (Ordered.defined_of_lt long).1
      have above : r.requested ≤ r.realized := by
        by_contra below
        have short := Rounded.sub_nonneg (Ordered.le_of_not_le hq hx below) gap
        exact Rounded.not_lt_of_le (Signed.neg_nonpos (Ordered.le_of_lt positive))
          (Ordered.lt_of_le_of_lt short long)
      refine .inr ⟨Ordered.le_greater_right hq _, greater_le ?_ above⟩
      intro defined
      have product := Rounded.defined_of_add defined
      exact Rounded.add_le (Rounded.mul_nonpos_of_defined
        (down long (Rounded.defined_of_mul product)) (Ordered.le_of_lt ahead) product) defined
    · exact .refl hx hq

namespace Generator

variable {g h k : Generator α}

/-- The rate in progress is within limits that leave room for it; the reserve is not negative. -/
structure Contained (g : Generator α) : Prop where
  leeway : g.Leeway
  allows : g.envelope.Allows g.rate
  realized : 0 ≤ g.reserve.realized

/-- The reserve moves toward what is called for and does not pass it. -/
theorem Contained.reserveAfter_toward (contained : g.Contained) {dt : α} (ahead : 0 < dt) :
    Toward g.reserve.realized g.reserve.requested (g.reserveAfter dt) := by
  refine Reserve.after_toward contained.leeway.called contained.realized ahead ?_ ?_
  · intro short defined
    unfold drive at defined ⊢
    rw [if_pos short] at defined ⊢
    exact Rounded.sub_nonneg contained.allows.up defined
  · intro long defined
    have notShort : ¬ Reserve.tolerance < g.reserve.gap := by
      intro short
      have positive : (0 : α) < Reserve.tolerance := Rounded.zero_lt_thousandth
      have negative := Signed.neg_nonpos (Ordered.le_of_lt positive)
      exact Rounded.not_lt_of_le (Ordered.le_of_lt short) (Ordered.lt_of_lt_of_le long
        (Ordered.le_trans negative (Ordered.le_of_lt positive)))
    unfold drive at defined ⊢
    rw [if_neg notShort, if_pos long] at defined ⊢
    exact Rounded.sub_nonpos contained.allows.down defined

/-! ## The reserve over an advance -/

/-- From `g` to `h` the reserve has closed on what is called for, with the settings left alone. -/
structure Closes (g h : Generator α) : Prop where
  same : SameSettings g h
  toward : Toward g.reserve.realized g.reserve.requested h.reserve.realized
  settled : ¬ Reserve.tolerance < g.reserve.gap → ¬ g.reserve.gap < -Reserve.tolerance →
    h.reserve.realized = g.reserve.realized

theorem Closes.trans (one : Closes g h) (two : Closes h k) : Closes g k where
  same := one.same.trans two.same
  toward := one.toward.trans (one.same.requested ▸ two.toward)
  settled := by
    intro short long
    have still := one.settled short long
    have gap : h.reserve.gap = g.reserve.gap := by
      unfold Reserve.gap
      rw [one.same.requested, still]
    rw [two.settled (gap ▸ short) (gap ▸ long), still]

/-- What leaves the reserve alone. -/
theorem Contained.closes_of_same (contained : g.Contained) (same : SameSettings g h)
    (realized : h.reserve.realized = g.reserve.realized) : Closes g h := by
  refine ⟨same, ?_, fun _ _ => realized⟩
  rw [realized]
  exact .refl (Signed.defined_of_le contained.realized).2
    (Signed.defined_of_le contained.leeway.called.nonneg).2

theorem Contained.of_closes (contained : g.Contained) (closes : Closes g h)
    (allows : g.envelope.Allows h.rate) : h.Contained where
  leeway := contained.leeway.of_same closes.same
  allows := closes.same.envelope.symm ▸ allows
  realized := closes.toward.nonneg contained.realized contained.leeway.called.nonneg

theorem Contained.of_same (contained : g.Contained) (same : SameSettings g h)
    (realized : h.reserve.realized = g.reserve.realized) (rate : h.rate = g.rate) : h.Contained :=
  contained.of_closes (contained.closes_of_same same realized) (rate ▸ contained.allows)

theorem Contained.moveTo (contained : g.Contained) (time : α) :
    (g.moveTo time).Contained ∧ Closes g (g.moveTo time) := by
  have same := moveTo_sameSettings g time
  unfold Generator.moveTo at same ⊢
  dsimp only at same ⊢
  split at same
  next ahead =>
    rw [if_pos ahead]
    have closes : Closes g { g with
        committed := g.committedAfter (time - g.now)
        reserve := { g.reserve with realized := g.reserveAfter (time - g.now) }
        output := g.committedAfter (time - g.now) + g.reserveAfter (time - g.now) + g.overlay
        slope := g.drive
        now := time } := by
      refine ⟨same, contained.reserveAfter_toward ahead, ?_⟩
      intro short long
      show g.reserve.after (g.drive - g.rate) (time - g.now) = g.reserve.realized
      unfold Reserve.after
      rw [if_neg short, if_neg long]
    exact ⟨contained.of_closes closes contained.allows, closes⟩
  next still =>
    rw [if_neg still]
    exact ⟨contained, contained.closes_of_same (.refl g) rfl⟩

theorem Contained.replan (contained : g.Contained) : g.replan.Contained ∧ Closes g g.replan := by
  have realized := congrArg Reserve.realized (replan_samePlant g).reserve
  have closes := contained.closes_of_same (replan_sameSettings g) realized
  exact ⟨contained.of_closes closes (contained.leeway.replan (.inl contained.allows)), closes⟩

theorem Contained.leg (contained : g.Contained) : g.leg.Contained ∧ Closes g g.leg := by
  obtain ⟨moved, closes⟩ := contained.moveTo g.review
  obtain ⟨planned, still⟩ := moved.replan
  exact ⟨planned, closes.trans still⟩

theorem Contained.legsTo (contained : g.Contained) (time : α) (fuel : Nat) :
    (legsTo time fuel g).Contained ∧ Closes g (legsTo time fuel g) := by
  refine legsTo_induction (P := fun h => h.Contained ∧ Closes g h) ?_ fuel
    ⟨contained, contained.closes_of_same (.refl g) rfl⟩
  rintro h - ⟨still, closes⟩
  obtain ⟨next, further⟩ := still.leg
  exact ⟨next, closes.trans further⟩

/-- Over an advance, however many reviews it goes through, the reserve closes on what is called
for. -/
theorem Contained.advance (contained : g.Contained) (time : α) :
    (g.advance time).Contained ∧ Closes g (g.advance time) := by
  unfold Generator.advance
  split
  · exact ⟨contained, contained.closes_of_same (.refl g) rfl⟩
  · obtain ⟨last, closes⟩ := contained.legsTo time g.legBound
    obtain ⟨moved, further⟩ := last.moveTo time
    exact ⟨moved, closes.trans further⟩

/-! ## The reserve and the other actions -/

omit [Rounded α] in
theorem add_realized (g : Generator α) (time power : α) :
    (g.add time power).reserve.realized = g.reserve.realized :=
  add_induction (P := fun h => h.reserve.realized = g.reserve.realized) (fun _ => rfl)
    (fun h same => (congrArg Reserve.realized (replan_samePlant h).reserve).trans same)

omit [Rounded α] in
theorem addAll_realized (g : Generator α) (times powers : List α) :
    (g.addAll times powers).reserve.realized = g.reserve.realized :=
  addAll_induction (P := fun h => h.reserve.realized = g.reserve.realized)
    (fun h p _ same => (add_realized h p.1 p.2).trans same) rfl

omit [Rounded α] in
/-- Nothing but an advance moves the reserve. -/
theorem act_realized (g : Generator α) {a : Action α} (still : ∀ time, a ≠ .advance time) :
    (g.act a).reserve.realized = g.reserve.realized := by
  have effect := act_effect g a
  generalize g.act a = h at effect ⊢
  cases effect with
  | advance named => exact absurd named (still _)
  | start => exact congrArg Reserve.realized (replan_samePlant _).reserve
  | add => exact addAll_realized g _ _
  | replace => exact addAll_realized g.clear _ _
  | @configure h change =>
    rw [(replan_samePlant h).reserve]
    exact (configure_sameState change).realized
  | register => rfl

theorem Contained.add (contained : g.Contained) (time power : α) :
    (g.add time power).Contained :=
  add_induction (fun _ => contained.of_same ⟨rfl, rfl, rfl, rfl, rfl, rfl⟩ rfl rfl)
    (fun _ still => still.replan.1)

theorem Contained.addAll (contained : g.Contained) (times powers : List α) :
    (g.addAll times powers).Contained :=
  addAll_induction (fun _ p _ still => still.add p.1 p.2) contained

omit [Rounded α] in
/-- A change of settings does not leave a rate beyond the new limits for a due setpoint to be caught
up with: the rate is allowed, or nothing is due. -/
def Releases (g : Generator α) (a : Action α) : Prop :=
  ∀ h ∈ g.configure a,
    h.envelope.Allows h.rate ∨ ∀ p ∈ h.schedule.setpoints, h.now < p.time

instance (g : Generator α) (a : Action α) : Decidable (g.Releases a) :=
  inferInstanceAs (Decidable (∀ h ∈ g.configure a,
    h.envelope.Allows h.rate ∨ ∀ p ∈ h.schedule.setpoints, h.now < p.time))

/-- Every action that leaves no limit negative leaves the reserve in its band. -/
theorem Contained.act (contained : g.Contained) {a : Action α} (limits : (g.act a).LimitsNonneg)
    (releases : g.Releases a) : (g.act a).Contained := by
  have effect := act_effect g a
  generalize g.act a = k at effect limits ⊢
  cases effect with
  | @start time =>
    have dropped : Contained { g with
        schedule := g.schedule.dropBefore time, now := time, last := time } :=
      contained.of_same ⟨rfl, rfl, rfl, rfl, rfl, rfl⟩ rfl rfl
    exact dropped.replan.1.of_same ⟨rfl, rfl, rfl, rfl, rfl, rfl⟩ rfl rfl
  | @advance time => exact (contained.advance time).1
  | add => exact contained.addAll _ _
  | replace =>
    have closes : Closes g g.clear := contained.closes_of_same ⟨rfl, rfl, rfl, rfl, rfl, rfl⟩ rfl
    exact (contained.of_closes closes contained.leeway.rest).addAll _ _
  | @configure h change =>
    have same := replan_sameSettings h
    have leeway : h.replan.Leeway :=
      limits.leeway (same.called (configure_called contained.leeway.called change))
    refine ⟨leeway, ?_, ?_⟩
    · rw [same.envelope]
      exact (leeway.of_same same.symm).replan (releases h change)
    · rw [(replan_samePlant h).reserve, (configure_sameState change).realized]
      exact contained.realized
  | register => exact contained.of_same ⟨rfl, rfl, rfl, rfl, rfl, rfl⟩ rfl rfl

/-! ## Every run -/

theorem idle_contained (output : α) : (idle output).Contained := by
  have zero : (0 : α) ≤ 0 := Ordered.le_refl Ordered.defined_zero
  have top : (0 : α) ≤ unbounded := Rounded.le_unbounded Ordered.defined_zero
  have limitUp : (idle output).rampLimitUp = unbounded :=
    if_pos (.inl Rounded.zero_lt_thousandth)
  have leeway : (idle output).Leeway := ⟨top, top, limitUp ▸ top, idle_called output⟩
  exact ⟨leeway, leeway.rest, zero⟩

theorem Contained.run (contained : g.Contained) {as : List (Action α)}
    (admits : Admits LimitsNonneg Releases g as) : (g.run as).Contained := by
  induction as generalizing g with
  | nil => exact contained
  | cons a as ih =>
    obtain ⟨releases, limits, rest⟩ := admits
    exact ih (contained.act limits releases) rest

/-- One action lifts the reserve no further than to what is called for. -/
theorem Contained.act_realized_le (contained : g.Contained) (a : Action α) :
    (g.act a).reserve.realized ≤ g.reserve.realized ∨
      (g.act a).reserve.realized ≤ g.reserve.requested := by
  by_cases moves : ∃ time, a = .advance time
  · obtain ⟨time, rfl⟩ := moves
    rcases (contained.advance time).2.toward with ⟨-, high⟩ | ⟨-, high⟩
    · exact .inr high
    · exact .inl high
  · left
    rw [act_realized g (by simpa using moves)]
    exact Ordered.le_refl (Signed.defined_of_le contained.realized).2

/-- Over a run the reserve gets no higher than it was, or than what has been called for. -/
theorem Contained.run_realized_le (contained : g.Contained) {as : List (Action α)}
    (admits : Admits LimitsNonneg Releases g as) :
    (g.run as).reserve.realized ≤ g.reserve.realized ∨
      ∃ bs, bs <+: as ∧ (g.run as).reserve.realized ≤ (g.run bs).reserve.requested := by
  induction as generalizing g with
  | nil => exact .inl (Ordered.le_refl (Signed.defined_of_le contained.realized).2)
  | cons a as ih =>
    obtain ⟨releases, limits, rest⟩ := admits
    rcases ih (contained.act limits releases) rest with still | ⟨bs, pre, below⟩
    · rcases contained.act_realized_le a with low | low
      · exact .inl (Ordered.le_trans still low)
      · exact .inr ⟨[], List.nil_prefix, Ordered.le_trans still low⟩
    · exact .inr ⟨a :: bs, List.cons_prefix_cons.mpr ⟨rfl, pre⟩, below⟩

end Generator

end Laws

namespace Generator

/-- After a run, the reserve is in its band, and closes on what is called for, whatever is done
next. -/
structure ReserveInBand {α : Type} [Quantity α] (g₀ : Generator α) (as : List (Action α)) :
    Prop where
  called : (g₀.run as).reserve.Called
  nonneg : 0 ≤ (g₀.run as).reserve.realized
  /-- No more is delivered than was called for once. -/
  le_requested : ∃ bs, bs <+: as ∧ (g₀.run as).reserve.realized ≤ (g₀.run bs).reserve.requested
  toward : ∀ time, Toward (g₀.run as).reserve.realized (g₀.run as).reserve.requested
    ((g₀.run as).advance time).reserve.realized
  settled : ¬ Reserve.tolerance < (g₀.run as).reserve.gap →
    ¬ (g₀.run as).reserve.gap < -Reserve.tolerance →
    ∀ time, ((g₀.run as).advance time).reserve.realized = (g₀.run as).reserve.realized
  spared : ∀ a, (∀ time, a ≠ .advance time) →
    ((g₀.run as).act a).reserve.realized = (g₀.run as).reserve.realized

/-- With exact numbers nothing is due that a change of settings could catch. -/
theorem Reaches.admits {K : Type} [Field K] [LinearOrder K] [IsStrictOrderedRing K] {o : K}
    {g : Generator (Exact K)} (reaches : Reaches Workable Suits (idle (Exact.fin o)) g)
    {as : List (Action (Exact K))} (admits : Admits Workable Suits g as) :
    Admits LimitsNonneg Releases g as := by
  induction as generalizing g with
  | nil => trivial
  | cons a as ih =>
    obtain ⟨suits, workable, rest⟩ := admits
    obtain ⟨n, l, c, ρ, course⟩ := reaches.onCourse
    refine ⟨?_, workable.toLimitsNonneg, ih (.act reaches suits workable) rest⟩
    intro h change
    have state := configure_sameState change
    right
    rw [state.schedule, state.now]
    exact course.ahead

theorem reserveInBand_of_admits {α : Type} [Quantity α] [Rounded α] {output : α}
    {as : List (Action α)} (admits : Admits LimitsNonneg Releases (idle output) as) :
    ReserveInBand (idle output) as := by
  have start := idle_contained output
  have contained := start.run admits
  refine ⟨contained.leeway.called, contained.realized, ?_,
    fun time => (contained.advance time).2.toward,
    fun short long time => (contained.advance time).2.settled short long,
    fun a still => act_realized _ still⟩
  -- to begin with, nothing is delivered and nothing called for
  rcases start.run_realized_le admits with none | lifted
  · exact ⟨[], List.nil_prefix, none⟩
  · exact lifted

/-- The reserve stays in its band and closes on what is called for, in doubles too, as long as no
limit is negative and no change of settings catches a generator at a due setpoint with a rate that
the new limits do not allow. With exact numbers none does. -/
theorem run_reserveInBand {α : Type} [Quantity α] [Rounded α] {K : Type} [Field K] [LinearOrder K]
    [IsStrictOrderedRing K] (output : α) (o : K) :
    (∀ as : List (Action α), Admits LimitsNonneg Releases (idle output) as →
      ReserveInBand (idle output) as) ∧
    ∀ as : List (Action (Exact K)), Admits Workable Suits (idle (Exact.fin o)) as →
      ReserveInBand (idle (Exact.fin o)) as := by
  refine ⟨fun _ => reserveInBand_of_admits, ?_⟩
  intro as admits
  have workable := (idle_sound o).workable (idle_limitsNonneg o)
  exact reserveInBand_of_admits (Reaches.admits (.start workable) admits)

/-- A reserve called back while it is on its way beside a ramp. -/
theorem run_reserveInBand_called_back :
    ReserveInBand (idle (40 : Float)) [.setRampLimits 2 1, .holdReserve 20, .start 1700000000,
      .add 1700000060 90, .callReserve 15, .advance 1700000005, .callReserve 4] ∧
    ReserveInBand (idle (Exact.fin (40 : ℚ))) [.setRampLimits 2 1, .holdReserve 20,
      .start 1700000000, .add 1700000060 90, .callReserve 15, .advance 1700000005,
      .callReserve 4] :=
  have inBand := run_reserveInBand (40 : Float) (40 : ℚ)
  ⟨inBand.1 _ (by decide +kernel), inBand.2 _ (by decide +kernel)⟩

/-- What it takes: on a clock that shows `1.7e9`, a ramp of a tenth of a microsecond ends where it
begins. The setpoint that should finish it is due at once, a revision of the plan goes on at its
rate, whatever the limits are by then, and the reserve falls below zero. -/
theorem run_overshoots :
    let as : List (Action Float) := [.setRampLimits 2000 2000, .holdReserve 5, .callReserve 5,
      .start 1700000000, .addNow 2e-4, .setRampLimits 1 1]
    let g := (idle 0).run as
    Admits (fun g => g.LimitsNonneg ∧ g.FiniteRamps) Suits (idle 0) as ∧
      0 ≤ g.reserve.realized ∧ (g.advance 1700000001).reserve.realized < 0 := by
  decide +kernel

end Generator

end UnitDispatch
