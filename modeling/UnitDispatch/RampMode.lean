import UnitDispatch.Setting

/-! # Ramp modes

A ramp mode says when a generator moves toward its next setpoint. Two modes are reserved: they have
names, but ramp as the interpolated mode does.
-/

namespace UnitDispatch

/-- When a generator moves toward its next setpoint. -/
inductive RampMode where
  /-- Steadily, so as to arrive exactly when the setpoint is due. -/
  | interpolated
  /-- In a window of the ramp time, in the middle between two setpoints. -/
  | midpoint
  /-- At the ramp limit, but taking at least the ramp time. -/
  | delayed
  /-- Reserved. -/
  | justInTime
  /-- Reserved. -/
  | onTargetRamp
  deriving DecidableEq, Repr

namespace RampMode

instance : Inhabited RampMode := ⟨interpolated⟩

/-- Whether a mode has a rule of its own. -/
def isSpecified : RampMode → Bool
  | justInTime | onTargetRamp => false
  | _ => true

/-- The mode whose rule is followed. -/
def effective (mode : RampMode) : RampMode := if mode.isSpecified then mode else interpolated

def name : RampMode → String
  | interpolated => "interp"
  | midpoint => "midpoint"
  | delayed => "delayed"
  | justInTime => "justintime"
  | onTargetRamp => "ontargetramp"

/-- The key under which a mode is set. -/
def key : String := "rampmode"

/-- A text with its Latin capitals made small. -/
def uncapitalized (text : String) : String := String.ofList (text.toList.map Char.toLower)

/-- The mode of a name, in capitals or not; the interpolated mode has a long name too. -/
def ofName? (text : String) : Except SettingError RampMode :=
  match uncapitalized text with
  | "interp" | "interpolated" => .ok interpolated
  | "midpoint" => .ok midpoint
  | "delayed" => .ok delayed
  | "justintime" => .ok justInTime
  | "ontargetramp" => .ok onTargetRamp
  | _ => .error (.badValue key text)

theorem ofName?_name (mode : RampMode) : ofName? mode.name = .ok mode := by
  cases mode <;> rfl

theorem effective_effective (mode : RampMode) : mode.effective.effective = mode.effective := by
  cases mode <;> rfl

theorem isSpecified_effective (mode : RampMode) : mode.effective.isSpecified = true := by
  cases mode <;> rfl

end RampMode

end UnitDispatch
