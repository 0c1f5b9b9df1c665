import UnitDispatch.Proofs.Magnitude
import UnitDispatch.Proofs.SimulatedCourse

/-! # Moderate sizes

In doubles a unit whose numbers start out moderate keeps them so. Rates are held by the ramp limits,
whatever is asked for and whenever; the clock goes no further than it is sent; and what is moved in
one leg is so small beside the largest power allowed here that a sum which reaches that power stays
there. So no power overflows, and nothing becomes undefined, in however many legs.
-/

namespace UnitDispatch

open Quantity Doubles

namespace Generator

variable {g : Generator Float} {t : Float}

/-- Sizes that planning and moving keep. What is given has grade 100 at most; the other grades
follow from the formulas, up to those of the powers, which leave room for the rounding. -/
structure Moderate (g : Generator Float) : Prop where
  available : UpTo 100 g.reserve.available
  requested : UpTo 100 g.reserve.requested
  rampTime : AtLeast 100 g.reserve.rampTime
  /-- A given limit, less what regulation withholds of it. -/
  rampUp : UpTo 102 g.envelope.rampUp
  rampDown : UpTo 102 g.envelope.rampDown
  /-- A ramp limit, less what is kept for the reserve within its ramp time. -/
  rate : UpTo 203 g.rate
  /-- A given start and a word's number of given steps. -/
  now : UpTo 165 g.now
  /-- More than a leg can move, by so much that the sum is rounded to this again. -/
  committed : UpTo 500 g.committed
  realized : UpTo 500 g.reserve.realized
  powers : ∀ p ∈ g.schedule.setpoints, isNaN p.power = false

theorem Moderate.rampLimitUp (moderate : g.Moderate) : UpTo 203 g.rampLimitUp := by
  unfold Generator.rampLimitUp
  dsimp only
  split
  · exact moderate.rampUp.mono (by omega)
  · have spare := moderate.available.sub moderate.requested (by omega)
    exact (moderate.rampUp.mono (by omega)).sub (spare.div moderate.rampTime (by omega)) (by omega)

theorem Moderate.drive (moderate : g.Moderate) : UpTo 203 g.drive := by
  unfold Generator.drive
  split
  · exact moderate.rampUp.mono (by omega)
  · split
    · exact (moderate.rampDown.neg (by omega)).mono (by omega)
    · exact moderate.rate

theorem Moderate.catchupRate (moderate : g.Moderate) (lack : Float) :
    UpTo 203 (g.catchupRate lack) := by
  unfold Generator.catchupRate
  split_ifs
  · exact moderate.rate
  · exact moderate.rampLimitUp
  · exact moderate.rampUp.mono (by omega)
  · exact (moderate.rampDown.neg (by omega)).mono (by omega)

theorem Moderate.nextLeg (moderate : g.Moderate) : UpTo 203 g.nextLeg.rate := by
  unfold Generator.nextLeg
  split
  · exact upTo_zero 203
  · dsimp only
    split
    · exact upTo_zero 203
    · rcases RampMode.leg_rate (α := Float) g.mode _ with h | ⟨x, h⟩ <;> rw [h]
      · exact upTo_zero 203
      · exact upTo_limit ((moderate.rampDown.neg (by omega)).mono (by omega)) moderate.rampLimitUp x

theorem Moderate.follow (moderate : g.Moderate) {leg : Leg Float} (rate : UpTo 203 leg.rate) :
    (g.follow leg).Moderate := { moderate with rate }

theorem Moderate.planNext (moderate : g.Moderate) : g.planNext.Moderate :=
  moderate.follow moderate.nextLeg

theorem Moderate.queue (moderate : g.Moderate) {p : Setpoint Float}
    (power : isNaN p.power = false) : Moderate { g with schedule := g.schedule.insert p } := by
  refine { moderate with powers := fun q hq => ?_ }
  rcases Schedule.mem_insert.mp hq with rfl | old
  · exact power
  · exact moderate.powers q old

theorem Moderate.carry (moderate : g.Moderate) {power : Float} (defined : isNaN power = false)
    {leg : Leg Float} (rate : UpTo 203 leg.rate) : (g.carry power leg).Moderate :=
  (moderate.queue (p := ⟨leg.review, power, true⟩) defined).follow rate

/-- A bounded rate is one to ramp at. -/
theorem Moderate.catchup (moderate : g.Moderate) (lack : Float) :
    g.catchup lack = .ramp (g.catchupRate lack) ∨ g.catchup lack = .never := by
  unfold Generator.catchup
  dsimp only
  rw [(moderate.catchupRate lack).isInfinite, if_neg Bool.false_ne_true]
  split
  · exact .inl rfl
  · exact .inr rfl

theorem Moderate.settle (moderate : g.Moderate) {wanted : Float} (defined : isNaN wanted = false) :
    (g.settle wanted).Moderate ∧ (g.settle wanted).output = g.output := by
  have power : isNaN (g.holdTarget wanted) = false := limit_defined defined
  unfold Generator.settle
  dsimp only
  split
  · exact ⟨moderate.planNext, rfl⟩
  · rcases moderate.catchup (g.lack (g.holdTarget wanted)) with h | h <;> rw [h] <;> dsimp only
    · split
      · exact ⟨moderate.planNext, rfl⟩
      · exact ⟨moderate.carry power (moderate.catchupRate _), rfl⟩
    · exact ⟨moderate.planNext, rfl⟩

/-- A revision of the plan keeps the sizes, and the output. -/
theorem Moderate.replan (moderate : g.Moderate) :
    g.replan.Moderate ∧ g.replan.output = g.output := by
  unfold Generator.replan
  split
  · exact ⟨moderate.planNext, rfl⟩
  next p last =>
    have due : p ∈ g.schedule.due g.now := List.mem_of_getLast? last
    have taken : g.takeDue.Moderate :=
      { moderate with powers := fun q hq => moderate.powers q (Schedule.mem_of_mem_afterDue hq) }
    exact taken.settle (moderate.powers p (Schedule.mem_of_mem_due due))

/-- A move adds to the committed power and to the reserve what is lost in their rounding before it
counts. -/
theorem Moderate.moveTo (moderate : g.Moderate) (near : 0 < t - g.now → UpTo 165 t) :
    (g.moveTo t).Moderate := by
  unfold Generator.moveTo
  dsimp only
  split
  next ahead =>
    have time := near ahead
    have dt : UpTo 166 (t - g.now) := time.sub moderate.now (by omega)
    have closing : UpTo 204 (g.drive - g.rate) := moderate.drive.sub moderate.rate (by omega)
    have moved := moderate.realized.absorb (closing.mul dt (by omega)) (by omega) (by omega)
    have called := moderate.requested.mono (j := 500) (by omega)
    refine { moderate with
      now := time
      committed := moderate.committed.absorb (moderate.rate.mul dt (by omega)) (by omega) (by omega)
      realized := ?_ }
    show UpTo 500 (g.reserve.after (g.drive - g.rate) (t - g.now))
    unfold Reserve.after
    dsimp only
    split_ifs
    · exact moved.lesser called
    · exact moved.greater called
    · exact moderate.realized
  · exact moderate

theorem Moderate.leg (moderate : g.Moderate) (time : UpTo 165 t) (due : g.review ≤ t) :
    g.leg.Moderate := by
  refine (moderate.moveTo fun ahead => ?_).replan.1
  exact moderate.now.between time (le_of_sub_pos moderate.now ahead) due

theorem Moderate.legsTo (moderate : g.Moderate) (time : UpTo 165 t) (fuel : ℕ) :
    (legsTo t fuel g).Moderate :=
  legsTo_induction (fun _ due still => still.leg time due) fuel moderate

theorem Moderate.advance (moderate : g.Moderate) (time : UpTo 165 t) : (g.advance t).Moderate := by
  unfold Generator.advance
  split
  · exact moderate
  · exact (moderate.legsTo time _).moveTo fun _ => time

theorem Moderate.add (moderate : g.Moderate) (time : Float) {power : Float}
    (defined : isNaN power = false) : (g.add time power).Moderate := by
  have queued := moderate.queue (p := ⟨time, power, false⟩) defined
  exact add_induction (fun _ => { queued with }) (fun _ still => still.replan.1)

theorem Moderate.addAll (moderate : g.Moderate) (times : List Float) {powers : List Float}
    (defined : ∀ p ∈ powers, isNaN p = false) : (g.addAll times powers).Moderate :=
  addAll_induction (fun _ p hp still => still.add p.1 (defined p.2 (List.of_mem_zip hp).2)) moderate

theorem Moderate.start (moderate : g.Moderate) (time : UpTo 165 t) : (g.start t).Moderate := by
  have ready : Moderate { g with schedule := g.schedule.dropBefore t, now := t, last := t } :=
    { moderate with
      now := time
      powers := fun p hp => moderate.powers p (Schedule.mem_of_mem_dropBefore hp) }
  exact { ready.replan.1 with }

theorem Moderate.callReserve (moderate : g.Moderate) (level : Float) :
    (g.callReserve level).Moderate ∧ (g.callReserve level).output = g.output := by
  have called : Moderate { g with reserve := g.reserve.call level } :=
    { moderate with requested := upTo_limit (upTo_zero 100) moderate.available level }
  exact called.replan

end Generator

namespace RegulatedUnit

variable {u : RegulatedUnit Float} {t : Float}

/-- The limits of a unit and its part in regulation are of moderate size; of the power limits it is
only asked that they leave room for moderate powers. -/
structure MildLimits (u : RegulatedUnit Float) : Prop where
  rampUp : UpTo 100 u.physical.rampUp
  rampDown : UpTo 100 u.physical.rampDown
  powerMin : ¬ 1e30 < u.physical.powerMin
  powerMax : ¬ u.physical.powerMax < -1e30
  base : UpTo 100 u.regulationBase
  upFraction : UpTo 0 u.upFraction
  downFraction : UpTo 0 u.downFraction

/-- A unit with mild limits whose generator and output are of moderate size too. -/
structure Moderate (u : RegulatedUnit Float) : Prop extends u.MildLimits where
  generator : u.generator.Moderate
  output : UpTo 502 u.generator.output
  current : isNaN u.current = false
  commanded : UpTo 100 u.commanded

theorem MildLimits.withGenerator (mild : u.MildLimits) (generator : Generator Float) :
    MildLimits { u with generator } := { mild with }

theorem MildLimits.holdRegulation (mild : u.MildLimits) (level : Float) :
    UpTo 100 (u.holdRegulation level) :=
  upTo_limit ((mild.downFraction.neg (by omega)).mul mild.base (by omega))
    (mild.upFraction.mul mild.base (by omega)) level

theorem MildLimits.holdRate (mild : u.MildLimits) (rate : Float) :
    UpTo 100 (u.physical.holdRate rate) :=
  upTo_limit (mild.rampDown.neg (by omega)) mild.rampUp rate

theorem MildLimits.holdPower (mild : u.MildLimits) {power : Float} (size : UpTo 502 power) :
    UpTo 502 (u.physical.holdPower power) := by
  have bound : UpTo 502 (1e30 : Float) := upTo_bound.mono (by omega)
  exact upTo_limit_of_room size (bound.neg (by omega)) bound mild.powerMin mild.powerMax

/-- What is left to the generator of a unit with mild limits. -/
theorem MildLimits.dispatchEnvelope (mild : u.MildLimits) :
    UpTo 102 u.dispatchEnvelope.rampUp ∧ UpTo 102 u.dispatchEnvelope.rampDown := by
  have window : AtLeast 0 (Envelope.regulationWindow : Float) := by decide +kernel
  have kept {fraction limit : Float} (hf : UpTo 0 fraction) (hl : UpTo 100 limit) :
      UpTo 102 (limit - fraction * u.regulationBase / Envelope.regulationWindow) :=
    (hl.mono (by omega)).sub ((hf.mul mild.base (by omega)).div window (by omega)) (by omega)
  unfold RegulatedUnit.dispatchEnvelope
  split
  · exact ⟨kept mild.upFraction mild.rampUp, kept mild.downFraction mild.rampDown⟩
  · exact ⟨mild.rampUp.mono (by omega), mild.rampDown.mono (by omega)⟩

theorem Moderate.regulate (moderate : u.Moderate) (level : Float) : (u.regulate level).Moderate :=
  { moderate with commanded := moderate.holdRegulation level }

theorem Moderate.callReserve (moderate : u.Moderate) (level : Float) :
    (u.receive (.useReserve level)).1.Moderate := by
  obtain ⟨generator, same⟩ := moderate.generator.callReserve level
  have output : UpTo 502 (u.generator.callReserve level).output := by
    rw [same]
    exact moderate.output
  exact { moderate with generator, output }

/-- However large a level of regulation it is said to deliver, and even if that is undefined, a unit
starts with one within its band. -/
theorem MildLimits.startWith (mild : u.MildLimits) (generator : u.generator.Moderate)
    (time : UpTo 165 t) (level : Float) : (u.startWith t level).Moderate := by
  have started := generator.start time
  have held := mild.holdRegulation level
  have base := started.committed.add started.realized (by omega)
  exact { mild with
    generator := { started with }
    output := base.add (held.mono (by omega)) (by omega)
    current := held.defined
    commanded := held }

theorem Moderate.advance (moderate : u.Moderate) (time : UpTo 165 t) : (u.advance t).Moderate := by
  unfold RegulatedUnit.advance
  dsimp only
  split
  next ahead =>
    have moved := moderate.generator.advance time
    have dt : UpTo 166 (t - u.generator.now) := time.sub moderate.generator.now (by omega)
    have base := moved.committed.add moved.realized (by omega)
    have slope := moderate.holdRate
      ((u.regulationGoal - u.current) / (t - u.generator.now) +
        ((u.generator.advance t).base - u.generator.base) / (t - u.generator.now))
    have output := moderate.holdPower
      (moderate.output.absorb (slope.mul dt (by omega)) (by omega) (by omega))
    exact { moderate with
      generator := { moved with }
      output
      current := (output.sub (base.mono (by omega)) (by omega)).defined }
  · exact moderate

end RegulatedUnit

end UnitDispatch
