/-! # Command line options

What the command line can say. Each option takes the word after it for its value, and of several
values for one option the last counts.
-/

namespace UnitDispatch.CommandLine

/-- What a run is asked for. -/
structure Options where
  scenario : Option String := none
  preset : Option String := none
  seed : Option UInt64 := none
  telemetry : Option String := none
  deriving DecidableEq, Repr

/-- The options that take a value. -/
inductive Flag where
  | scenario
  | preset
  | seed
  | telemetry
  deriving DecidableEq, Repr

/-- The word of an option. -/
def Flag.word : Flag → String
  | scenario => "--scenario"
  | preset => "--preset"
  | seed => "--seed"
  | telemetry => "--telemetry-out"

/-- What the value of an option is. -/
def Flag.wanted : Flag → String
  | scenario => "a path"
  | preset => "a name"
  | seed => "a u64"
  | telemetry => "a path"

/-- The option of a word. -/
def Flag.ofWord? (word : String) : Option Flag :=
  [scenario, preset, seed, telemetry].find? (·.word == word)

theorem Flag.ofWord?_word (flag : Flag) : Flag.ofWord? flag.word = some flag := by
  cases flag <;> rfl

def isHelp (word : String) : Bool := word == "--help" || word == "-h"

/-- Why the command line asks for no run. -/
inductive Stop where
  | help
  | noValue (flag : Flag)
  | badSeed (text : String)
  | unknown (word : String)
  deriving DecidableEq, Repr

/-- A number of 64 bits in decimal digits; a plus may stand before them. -/
def seedOf? (text : String) : Option UInt64 :=
  let digits := match text.toList with
    | '+' :: rest => rest
    | all => all
  if digits.isEmpty || !digits.all Char.isDigit then none
  else
    let n := digits.foldl (fun n c => 10 * n + (c.toNat - 0x30)) 0
    if n < UInt64.size then some (.ofNat n) else none

/-- Gives an option its value. -/
def Options.set (o : Options) (flag : Flag) (value : String) : Except Stop Options :=
  match flag with
  | .scenario => .ok { o with scenario := some value }
  | .preset => .ok { o with preset := some value }
  | .telemetry => .ok { o with telemetry := some value }
  | .seed =>
    match seedOf? value with
    | some n => .ok { o with seed := some n }
    | none => .error (.badSeed value)

/-- Reads words from left to right, up to the first that stops it. -/
def Options.read (o : Options) : List String → Except Stop Options
  | [] => .ok o
  | word :: rest =>
    if isHelp word then .error .help
    else match Flag.ofWord? word with
      | none => .error (.unknown word)
      | some flag =>
        match rest with
        | [] => .error (.noValue flag)
        | value :: rest => do (← o.set flag value).read rest

/-- Reads a command line. -/
def Options.ofWords (words : List String) : Except Stop Options := Options.read {} words

end UnitDispatch.CommandLine
