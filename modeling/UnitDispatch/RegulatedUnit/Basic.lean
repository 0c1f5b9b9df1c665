import UnitDispatch.Generator.Action

/-! # Regulated units

A regulated unit is a generator that can keep part of its envelope for a fast secondary command.
While it takes part, its generator dispatches within what is left of the unit's physical envelope,
and the regulation it delivers is what the output carries over committed power and reserve.
-/

namespace UnitDispatch

open Quantity

/-- A generator under regulation. -/
structure RegulatedUnit (α : Type) where
  generator : Generator α
  /-- What the unit can physically do; the generator's envelope is derived from it. -/
  physical : Envelope α
  /-- Regulation delivered. -/
  current : α
  /-- Regulation commanded. -/
  commanded : α
  /-- Fraction of the base kept for upward regulation. -/
  upFraction : α
  /-- Fraction of the base kept for downward regulation. -/
  downFraction : α
  enabled : Bool
  rating : α
  deriving Repr

namespace RegulatedUnit

variable {α : Type} [Quantity α]

/-- Takes a generator's envelope for the physical one. -/
def ofGenerator (g : Generator α) : RegulatedUnit α where
  generator := g
  physical := g.envelope
  current := 0
  commanded := 0
  upFraction := 0
  downFraction := 0
  enabled := false
  rating := 100

/-- An idle unit, with the regulation window for its ramp time. -/
def idle (output : α) : RegulatedUnit α :=
  ofGenerator ((Generator.idle output).set .rampTime Envelope.regulationWindow)

/-- The base that participation is a fraction of: the rating or, failing that, the physical
maximum. -/
def regulationBase (u : RegulatedUnit α) : α :=
  if isFinite u.rating then u.rating
  else if isFinite u.physical.powerMax then u.physical.powerMax
  else 0

/-- A level held within the band the unit takes part with. -/
def holdRegulation (u : RegulatedUnit α) (level : α) : α :=
  limit (-u.downFraction * u.regulationBase) (u.upFraction * u.regulationBase) level

/-- The level in force: the command while the unit takes part, else none. -/
def regulationGoal (u : RegulatedUnit α) : α := if u.enabled then u.commanded else 0

/-- Upward regulation not yet used. -/
def upAvailable (u : RegulatedUnit α) : α :=
  if u.enabled then greater (u.upFraction * u.regulationBase - u.current) 0 else 0

/-- Downward regulation not yet used. -/
def downAvailable (u : RegulatedUnit α) : α :=
  if u.enabled then greater (u.downFraction * u.regulationBase + u.current) 0 else 0

/-- The envelope left to the generator. -/
def dispatchEnvelope (u : RegulatedUnit α) : Envelope α :=
  if u.enabled then
    u.physical.without (u.upFraction * u.regulationBase) (u.downFraction * u.regulationBase)
  else u.physical

/-- Holds the command within the band and hands the generator its envelope. -/
def applyEnvelope (u : RegulatedUnit α) : RegulatedUnit α :=
  { u with
    commanded := u.holdRegulation u.commanded
    generator := { u.generator with envelope := u.dispatchEnvelope }.replan }

/-- The rate of the output over `dt` when the generator's base moves at `slope` and the regulation
makes for its goal. -/
def regulationRate (u : RegulatedUnit α) (slope dt : α) : α :=
  u.physical.holdRate ((u.regulationGoal - u.current) / dt + slope)

/-- Advances to `time`: the generator moves, and the output follows it and the command within the
physical envelope. -/
def advance (u : RegulatedUnit α) (time : α) : RegulatedUnit α :=
  let dt := time - u.generator.now
  if 0 < dt then
    let g := u.generator.advance time
    let slope := u.regulationRate ((g.base - u.generator.base) / dt) dt
    let output := u.physical.holdPower (u.generator.output + slope * dt)
    { u with generator := { g with output, slope }, current := output - g.base }
  else u

/-- The output at `time` if nothing changes. -/
def predict (u : RegulatedUnit α) (time : α) : α :=
  let g := u.generator
  let dt := time - g.now
  if 0 < dt then
    let slope := u.regulationRate ((g.predict time - u.current - g.base) / dt) dt
    u.physical.holdPower (g.output + slope * dt)
  else g.output

end RegulatedUnit

end UnitDispatch
