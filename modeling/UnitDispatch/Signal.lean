import UnitDispatch.Quantity
import UnitDispatch.Random.Stream

/-! # Regulation signals

A made-up regulation command: a sinusoid with correlated noise. At each call the noise keeps a share
`alpha` of what it was and takes the rest from a normal deviate; the command is held between -1 and
1, where a positive one asks for upward regulation.
-/

namespace UnitDispatch

open Quantity

/-- Half the period of a sine. -/
def pi : Float := 3.141592653589793

/-- A normal deviate of a standard deviation, from two numbers of a stream; none is taken where the
deviation is not positive. -/
def normalDeviate (stream : Random.Stream) (deviation : Float) : Float × Random.Stream :=
  if deviation ≤ 0 then (0, stream)
  else
    let (u, stream) := stream.fraction
    let (v, stream) := stream.fraction
    let radius := Float.sqrt (-2.0 * Float.log (clamp 1e-12 1.0 u))
    (radius * Float.cos (2.0 * pi * v) * deviation, stream)

/-- A source of regulation commands: each call is given the time and passes on what is left. -/
class CommandSource (σ : Type) (α : outParam Type) where
  command : σ → α → α × σ

/-- A sinusoid with correlated noise. -/
structure Signal where
  amplitude : Float
  /-- There is no sinusoid where the period is not positive. -/
  period : Float
  /-- The share of the noise that lasts. -/
  alpha : Float
  /-- Standard deviation of what is added to the noise. -/
  deviation : Float
  noise : Float := 0
  stream : Random.Stream
  deriving Repr

namespace Signal

/-- A signal with its parameters held to what they may be. -/
def ofSeed (amplitude period alpha deviation : Float) (seed : UInt64) : Signal where
  amplitude := clamp 0 1 amplitude
  period := period
  alpha := clamp 0 1 alpha
  deviation := greater deviation 0
  stream := .ofSeed seed

/-- The sinusoid at a time. -/
def wave (s : Signal) (time : Float) : Float :=
  if 0 < s.period then s.amplitude * Float.sin (2.0 * pi * time / s.period) else 0

/-- The command at a time. -/
def command (s : Signal) (time : Float) : Float × Signal :=
  let (deviate, stream) := normalDeviate s.stream s.deviation
  let noise := s.alpha * s.noise + (1.0 - s.alpha) * deviate
  (clamp (-1) 1 (s.wave time + noise), { s with noise, stream })

instance : CommandSource Signal Float := ⟨command⟩

end Signal

end UnitDispatch
