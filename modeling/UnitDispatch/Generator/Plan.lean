import UnitDispatch.Generator.Basic

/-! # Planning

Revising a plan takes the setpoints that are due from the schedule, sees to what the last of them
still lacks, and plans the leg toward the setpoint ahead. What ramp limits hold up is finished by a
setpoint of the generator's own making, unless the schedule asks for something else before that.
-/

namespace UnitDispatch

open Quantity

/-- How what a due setpoint still lacks can be delivered. -/
inductive Catchup (α : Type) where
  | ramp (rate : α)
  | atOnce
  | never
  deriving Repr

namespace Generator

variable {α : Type} [Quantity α]

/-- The leg toward the setpoint ahead; it rests when the schedule is empty or the power is there
already. -/
def nextLeg (g : Generator α) : Leg α :=
  match g.schedule.first? with
  | none => ⟨0, unbounded⟩
  | some head =>
    let delta := g.holdTarget head.power - g.committed
    if magnitude delta < tolerance then ⟨0, head.time⟩
    else g.mode.leg
      { now := g.now, last := g.last, due := head.time, delta, rate := g.rate,
        limitUp := g.rampLimitUp, limitDown := g.envelope.rampDown, rampTime := g.rampTime }

/-- Sets out on a leg. -/
def follow (g : Generator α) (leg : Leg α) : Generator α :=
  { g with rate := leg.rate, review := leg.review }

/-- Plans toward the setpoint ahead. -/
def planNext (g : Generator α) : Generator α := g.follow g.nextLeg

/-- The rate at which `lack` would be made up: the present one if it leads there, else the ramp
limit in that direction. -/
def catchupRate (g : Generator α) (lack : α) : α :=
  if 0 < g.rate * lack then g.rate
  else if 0 < lack then
    if 0 < g.rampLimitUp then g.rampLimitUp else g.envelope.rampUp
  else -g.envelope.rampDown

/-- How `lack` can be delivered. -/
def catchup (g : Generator α) (lack : α) : Catchup α :=
  let rate := g.catchupRate lack
  if isInfinite rate then .atOnce else if 0 < rate * lack then .ramp rate else .never

/-- What is missing of a power, nothing if it is within the tolerance. -/
def lack (g : Generator α) (power : α) : α :=
  let missing := power - g.committed
  if magnitude missing < tolerance then 0 else missing

/-- Queues a setpoint of the generator's own that finishes a ramp toward `power`. -/
def carry (g : Generator α) (power : α) (leg : Leg α) : Generator α :=
  { g with schedule := g.schedule.insert ⟨leg.review, power, true⟩ }.follow leg

/-- Delivers `lack` without a ramp. -/
def jump (g : Generator α) (lack : α) : Generator α :=
  { g with committed := g.committed + lack, output := g.output + lack }

/-- Sees to what the last due setpoint lacks, and plans on. -/
def settle (g : Generator α) (wanted : α) : Generator α :=
  let power := g.holdTarget wanted
  let lack := g.lack power
  if lack == 0 then g.planNext
  else match g.catchup lack with
    | .ramp rate =>
      let finish := g.now + lack / rate
      if g.schedule.precedes finish then g.planNext else g.carry power ⟨rate, finish⟩
    | .atOnce => (g.jump lack).planNext
    | .never => g.planNext

/-- Takes the due setpoints from the schedule and counts them. -/
def takeDue (g : Generator α) : Generator α :=
  let due := g.schedule.due g.now
  { g with
    schedule := g.schedule.afterDue g.now
    last := (due.getLast?.map (·.time)).getD g.last
    consumed := g.consumed + due.countP (!·.carried) }

/-- Revises the plan. -/
def replan (g : Generator α) : Generator α :=
  match (g.schedule.due g.now).getLast? with
  | none => g.planNext
  | some p => g.takeDue.settle p.power

/-! ## What planning leaves alone -/

/-- Two generators agree in all that a revision of the plan cannot touch. -/
structure SamePlant (g h : Generator α) : Prop where
  envelope : h.envelope = g.envelope
  rampTime : h.rampTime = g.rampTime
  mode : h.mode = g.mode
  reserve : h.reserve = g.reserve
  now : h.now = g.now

omit [Quantity α] in
theorem SamePlant.trans {g h k : Generator α} (a : SamePlant g h) (b : SamePlant h k) :
    SamePlant g k :=
  ⟨b.envelope.trans a.envelope, b.rampTime.trans a.rampTime, b.mode.trans a.mode,
    b.reserve.trans a.reserve, b.now.trans a.now⟩

omit [Quantity α] in
theorem follow_samePlant (g : Generator α) (leg : Leg α) : SamePlant g (g.follow leg) :=
  ⟨rfl, rfl, rfl, rfl, rfl⟩

theorem carry_samePlant (g : Generator α) (power : α) (leg : Leg α) :
    SamePlant g (g.carry power leg) := ⟨rfl, rfl, rfl, rfl, rfl⟩

theorem jump_samePlant (g : Generator α) (lack : α) : SamePlant g (g.jump lack) :=
  ⟨rfl, rfl, rfl, rfl, rfl⟩

theorem settle_samePlant (g : Generator α) (wanted : α) : SamePlant g (g.settle wanted) := by
  unfold settle
  dsimp only
  split
  · exact follow_samePlant _ _
  · split
    · split
      · exact follow_samePlant _ _
      · exact carry_samePlant _ _ _
    · exact (jump_samePlant _ _).trans (follow_samePlant _ _)
    · exact follow_samePlant _ _

/-- A revision changes the schedule, the leg and what is counted, and at most jumps to a power. -/
theorem replan_samePlant (g : Generator α) : SamePlant g g.replan := by
  unfold replan
  split
  · exact follow_samePlant _ _
  · exact SamePlant.trans (h := g.takeDue) ⟨rfl, rfl, rfl, rfl, rfl⟩ (settle_samePlant _ _)

end Generator

end UnitDispatch
