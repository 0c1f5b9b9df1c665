import UnitDispatch.Generator.Plan

/-! # Trajectories

Between two reviews a generator moves along its leg. Advancing it to a time goes through every
review on the way: the state is moved up to it, the plan revised, and the rest follows at the new
rate.
-/

namespace UnitDispatch

open Quantity

namespace Generator

variable {α : Type} [Quantity α]

/-- The committed power after `dt` of the present leg. -/
def committedAfter (g : Generator α) (dt : α) : α := g.committed + g.rate * dt

/-- The realized reserve after `dt` of the present leg: it moves at the rate by which the drive
exceeds the leg. -/
def reserveAfter (g : Generator α) (dt : α) : α := g.reserve.after (g.drive - g.rate) dt

/-- Moves along the present leg up to `time`, if that lies ahead. -/
def moveTo (g : Generator α) (time : α) : Generator α :=
  let dt := time - g.now
  if 0 < dt then
    let committed := g.committedAfter dt
    let realized := g.reserveAfter dt
    { g with
      committed
      reserve := { g.reserve with realized }
      output := committed + realized + g.overlay
      slope := g.drive
      now := time }
  else g

/-- Moves up to the review and revises the plan. -/
def leg (g : Generator α) : Generator α := (g.moveTo g.review).replan

/-- Goes through the reviews up to `time`, at most `fuel` of them, and stops at a plan that has no
review ahead. -/
def legsTo (time : α) : Nat → Generator α → Generator α
  | 0, g => g
  | fuel + 1, g =>
    if g.review ≤ time then
      let next := g.leg
      if next.review ≤ next.now then next else legsTo time fuel next
    else g

/-- What holds through every review on the way holds after all of them. -/
theorem legsTo_induction {P : Generator α → Prop} {time : α}
    (leg : ∀ g, g.review ≤ time → P g → P g.leg) (fuel : Nat) {g : Generator α} (h : P g) :
    P (legsTo time fuel g) := by
  induction fuel generalizing g with
  | zero => exact h
  | succ fuel ih =>
    unfold legsTo
    dsimp only
    split
    next due =>
      have next := leg g due h
      split
      · exact next
      · exact ih next
    next => exact h

/-- More reviews than an advance can meet. In doubles every second review moves the clock on, which
fewer than `2 ^ 64` values allow; in exact arithmetic each setpoint brings at most six. -/
def legBound (g : Generator α) : Nat := 2 * UInt64.size + 6 * (g.schedule.size + 1)

/-- Advances to `time`; a time that does not lie ahead is ignored. -/
def advance (g : Generator α) (time : α) : Generator α :=
  if isNaN time ∨ time ≤ g.now then g
  else (legsTo time g.legBound g).moveTo time

/-- The output at `time` if the present leg holds. -/
def predict (g : Generator α) (time : α) : α :=
  let dt := time - g.now
  if 0 < dt then g.committedAfter dt + g.reserveAfter dt + g.overlay else g.output

end Generator

end UnitDispatch
