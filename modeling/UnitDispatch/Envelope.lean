import UnitDispatch.Quantity

/-! # Envelopes

An envelope bounds what a unit may do: its power, and how fast the power may change.
-/

namespace UnitDispatch

open Quantity

/-- Power limits and ramp limits; the downward ramp limit is a magnitude. -/
structure Envelope (α : Type) where
  powerMin : α
  powerMax : α
  rampUp : α
  rampDown : α
  deriving Repr

namespace Envelope

variable {α : Type} [Quantity α]

/-- No limits at all. -/
def boundless : Envelope α := ⟨-unbounded, unbounded, unbounded, unbounded⟩

/-- A power held within the limits. -/
def holdPower (e : Envelope α) (power : α) : α := limit e.powerMin e.powerMax power

/-- A rate held within the limits. -/
def holdRate (e : Envelope α) (rate : α) : α := limit (-e.rampDown) e.rampUp rate

/-- Sets both ramp limits to one value. -/
def withRamp (e : Envelope α) (value : α) : Envelope α :=
  { e with rampUp := value, rampDown := magnitude value }

/-- Time within which a reserved share of the envelope must be deliverable. -/
def regulationWindow : α := 600

/-- The envelope left when `up` and `down` are kept for a second purpose, which must be able to
deliver them within the regulation window. -/
def without (e : Envelope α) (up down : α) : Envelope α where
  powerMin := e.powerMin + down
  powerMax := e.powerMax - up
  rampUp := e.rampUp - up / regulationWindow
  rampDown := e.rampDown - down / regulationWindow

end Envelope

end UnitDispatch
