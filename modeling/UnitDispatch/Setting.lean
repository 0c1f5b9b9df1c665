/-! # Settings

The named settings of a generator and of a regulated unit, the keys they go by, and what is wrong
with a key or value that is refused. `key` and `ofKey?` undo each other; two keys name the rating.
-/

namespace UnitDispatch

/-- Why a setting was refused. -/
inductive SettingError where
  | unknownKey (key : String)
  | badValue (key value : String)
  deriving DecidableEq, Repr

/-- The text shown for a refused setting. -/
def SettingError.message : SettingError → String
  | .unknownKey key => "unknown option \"" ++ key ++ "\""
  | .badValue key value => "invalid value \"" ++ value ++ "\" for option \"" ++ key ++ "\""

/-- The numeric settings of a generator. -/
inductive GeneratorSetting where
  /-- Both ramp limits at once. -/
  | ramp
  | rampUp
  | rampDown
  /-- Ten-minute ramp capability, for information only. -/
  | ramp10
  | ramp10Up
  | ramp10Down
  /-- Thirty-minute ramp capability, for information only. -/
  | ramp30
  | ramp30Up
  | ramp30Down
  /-- Least duration of a ramp in the midpoint and delayed modes. -/
  | rampTime
  /-- A setpoint due at once. -/
  | target
  /-- Reserve held available. -/
  | reserve
  /-- Time allowed to bring the reserve online. -/
  | reserveRampTime
  | min
  | max
  deriving DecidableEq, Repr

namespace GeneratorSetting

/-- The key a setting goes by. -/
def key : GeneratorSetting → String
  | ramp => "ramp"
  | rampUp => "rampup"
  | rampDown => "rampdown"
  | ramp10 => "ramp10"
  | ramp10Up => "ramp10up"
  | ramp10Down => "ramp10down"
  | ramp30 => "ramp30"
  | ramp30Up => "ramp30up"
  | ramp30Down => "ramp30down"
  | rampTime => "ramptime"
  | target => "target"
  | reserve => "reserve"
  | reserveRampTime => "reserveramptime"
  | min => "min"
  | max => "max"

def all : List GeneratorSetting :=
  [ramp, rampUp, rampDown, ramp10, ramp10Up, ramp10Down, ramp30, ramp30Up, ramp30Down,
    rampTime, target, reserve, reserveRampTime, min, max]

/-- The setting that goes by a key, if there is one. -/
def ofKey? (text : String) : Except SettingError GeneratorSetting :=
  match all.find? (·.key == text) with
  | some setting => .ok setting
  | none => .error (.unknownKey text)

theorem mem_all (s : GeneratorSetting) : s ∈ all := by cases s <;> decide

theorem ofKey?_key (s : GeneratorSetting) : ofKey? s.key = .ok s := by cases s <;> rfl

end GeneratorSetting

/-- The numeric settings of a regulated unit. Limits mean those the unit physically has; what is
not about regulation is passed on to its generator. -/
inductive UnitSetting where
  | max
  | min
  | ramp
  | rampUp
  | rampDown
  /-- The machine rating that participation is a fraction of. -/
  | rating
  /-- Both participation fractions at once. -/
  | fraction
  | upFraction
  | downFraction
  /-- Regulation takes part while this is positive. -/
  | enabled
  | generator (setting : GeneratorSetting)
  deriving DecidableEq, Repr

namespace UnitSetting

/-- The unit's own settings by key; `rating` goes by two. -/
def keys : List (String × UnitSetting) :=
  [("max", max), ("min", min), ("ramp", ramp), ("rampup", rampUp), ("rampdown", rampDown),
    ("rating", rating), ("base", rating), ("regfrac", fraction), ("regupfrac", upFraction),
    ("regdownfrac", downFraction), ("regenabled", enabled)]

/-- The setting that goes by a key: the unit's own first, then its generator's. -/
def ofKey? (text : String) : Except SettingError UnitSetting :=
  match keys.lookup text with
  | some setting => .ok setting
  | none => (GeneratorSetting.ofKey? text).map generator

end UnitSetting

end UnitDispatch
