import UnitDispatch.Envelope
import UnitDispatch.Leg
import UnitDispatch.Schedule

/-! # Generators

A generator follows a schedule of setpoints within its ramp limits and holds a reserve beside it.
It keeps two trajectories: the committed power, delivered toward the setpoints, and the output,
which also carries the realized reserve and whatever is laid over the generator from outside.
-/

namespace UnitDispatch

open Quantity

/-- The pair of an upward and a downward ramp capability. -/
structure RampPair (α : Type) where
  up : α
  down : α
  deriving Repr

/-- Sets both members to one value, downward as a magnitude. -/
def RampPair.both {α : Type} [Quantity α] (value : α) : RampPair α := ⟨value, magnitude value⟩

/-- Power that can be called on beside the schedule. -/
structure Reserve (α : Type) where
  /-- Held available. -/
  available : α
  /-- Called for. -/
  requested : α
  /-- Delivered. -/
  realized : α
  /-- Time allowed to bring it online. -/
  rampTime : α
  deriving Repr

namespace Reserve

variable {α : Type} [Quantity α]

/-- Gaps up to this size are left as they are. -/
def tolerance : α := 1e-3

/-- What is called for and not yet delivered; negative where too much is. -/
def gap (r : Reserve α) : α := r.requested - r.realized

/-- No reserve held. -/
def empty : Reserve α := ⟨0, 0, 0, 900⟩

/-- Calls for `level`, of which no more than is available counts. -/
def call (r : Reserve α) (level : α) : Reserve α :=
  { r with requested := greater (lesser level r.available) 0 }

/-- Changes what is held available, and with it what may stay called for. -/
def hold (r : Reserve α) (available : α) : Reserve α :=
  let available := greater available 0
  { r with available, requested := lesser r.requested available }

/-- What is delivered when the reserve has been moving at `rate` for `dt`: never beyond what is
called for, and unchanged when that is close enough already. -/
def after (r : Reserve α) (rate dt : α) : α :=
  let moved := r.realized + rate * dt
  if tolerance < r.gap then lesser moved r.requested
  else if r.gap < -tolerance then greater moved r.requested
  else r.realized

end Reserve

/-- A generator that follows a schedule. -/
structure Generator (α : Type) where
  schedule : Schedule α
  /-- Power delivered toward the setpoints. -/
  committed : α
  /-- Total output. -/
  output : α
  /-- Rate of the leg in progress. -/
  rate : α
  /-- Rate at which the output last moved. -/
  slope : α
  envelope : Envelope α
  /-- Ten-minute ramp capability, for information only. -/
  ramp10 : RampPair α
  /-- Thirty-minute ramp capability, for information only. -/
  ramp30 : RampPair α
  rampTime : α
  mode : RampMode
  reserve : Reserve α
  /-- The time reached. -/
  now : α
  /-- When the plan is to be revised. -/
  review : α
  /-- When the last setpoint fell due. -/
  last : α
  /-- Setpoints taken from the schedule as due, those it queued itself not counted. -/
  consumed : Nat
  /-- Who last registered as the dispatcher. -/
  dispatcher : Option Nat
  deriving Repr

namespace Generator

variable {α : Type} [Quantity α]

/-- Powers closer than this count as equal. -/
def tolerance : α := 1e-4

/-- How far ahead a generator with nothing to do reports itself settled: a day. -/
def idleHorizon : α := 86400

/-- An idle generator without limits. -/
def idle (output : α) : Generator α where
  schedule := {}
  committed := output
  output := output
  rate := 0
  slope := 0
  envelope := .boundless
  ramp10 := ⟨unbounded, unbounded⟩
  ramp30 := ⟨unbounded, unbounded⟩
  rampTime := 1200
  mode := .interpolated
  reserve := .empty
  now := 0
  review := unbounded
  last := 0
  consumed := 0
  dispatcher := none

/-- The power next asked for, or the committed power when nothing is. -/
def target (g : Generator α) : α := (g.schedule.first?.map (·.power)).getD g.committed

/-- Committed power and reserve. -/
def base (g : Generator α) : α := g.committed + g.reserve.realized

/-- What the output carries on top of committed power and reserve. -/
def overlay (g : Generator α) : α := g.output - g.committed - g.reserve.realized

/-- The upward ramp limit, less what the reserve not in use may need. -/
def rampLimitUp (g : Generator α) : α :=
  let r := g.reserve
  if r.available < Reserve.tolerance ∨ r.rampTime ≤ 0 then g.envelope.rampUp
  else g.envelope.rampUp - (r.available - r.requested) / r.rampTime

/-- A power held within what the reserve leaves of the power limits. -/
def holdTarget (g : Generator α) (power : α) : α :=
  limit g.envelope.powerMin (g.envelope.powerMax - g.reserve.available) power

/-- The rate that drives the output: a reserve that is not settled moves it at the full limit. -/
def drive (g : Generator α) : α :=
  if Reserve.tolerance < g.reserve.gap then g.envelope.rampUp
  else if g.reserve.gap < -Reserve.tolerance then -g.envelope.rampDown
  else g.rate

/-- How long until the reserve is settled or, if it is, until the next setpoint is due. -/
def timeToSettle (g : Generator α) : α :=
  let closing (rate : α) : α :=
    let t := g.reserve.gap / rate
    if isFinite t ∧ 0 ≤ t then t else unbounded
  if Reserve.tolerance < g.reserve.gap then closing (g.envelope.rampUp - g.rate)
  else if g.reserve.gap < -Reserve.tolerance then closing (-g.envelope.rampDown - g.rate)
  else match g.schedule.first? with
    | some p => p.time - g.now
    | none => idleHorizon

end Generator

end UnitDispatch
