import UnitDispatch.CommandLine.Options
import UnitDispatch.Folder
import UnitDispatch.Scenario.OfToml
import UnitDispatch.Simulation
import UnitDispatch.Telemetry.Csv
import UnitDispatch.Telemetry.Report

/-! # Command line sessions

What a command line leads to: the texts it shows, its exit code, and the file it writes. A session
either stops before it has shown anything or runs the scenario it is asked for to the end. Files and
memory are those of the machine it runs on.
-/

namespace UnitDispatch.CommandLine

/-- The help, line by line. -/
def helpLines : List String :=
  ["ramp-dispatch: ramp-rate limited generator dispatch simulator",
    "",
    "Usage: ramp-dispatch [OPTIONS]",
    "",
    "Options:",
    "  --scenario <path>        Load scenario from TOML config file",
    "  --preset <name>          Use a built-in preset (" ++ Scenario.presetNames ++ ")",
    "  --seed <u64>             Override random seed",
    "  --telemetry-out <path>   Export step results to CSV",
    "  --help                   Show this help message",
    "",
    "If no --scenario or --preset is given, the baseline preset is used.",
    "Log verbosity follows RUST_LOG (default: info)."]

/-- What a stopped command line shows. -/
def Stop.lines : Stop → List String
  | help => helpLines
  | noValue flag => ["error: " ++ flag.word ++ " requires " ++ flag.wanted ++ " argument"]
  | badSeed text => ["error: --seed value \"" ++ text ++ "\" is not a valid u64"]
  | unknown word => ("error: unknown argument \"" ++ word ++ "\"") :: helpLines

/-- The exit code of a stopped command line; help is no failure. -/
def Stop.code : Stop → Nat
  | help => 0
  | _ => 1

/-- What a session leaves behind, apart from files. -/
structure Result where
  code : Nat
  /-- Standard output. -/
  out : String := ""
  /-- Standard error, apart from the log. -/
  err : String := ""
  deriving DecidableEq, Repr

/-- A machine to run on. -/
structure Machine (σ : Type) extends FileSystem σ where
  /-- Makes room for so many rows, or says how the program ends that finds none. -/
  allocate : Nat → Except Result Unit

/-- A file to write. -/
structure Export where
  path : String
  content : String
  deriving DecidableEq, Repr

/-- Lines, each with its end. -/
def unlines (lines : List String) : String := String.join (lines.map (· ++ "\n"))

/-- Reads a scenario from the content of a file, or from the reason why there is none. -/
def loadFile (path : String) (content : Except String ByteArray) :
    Except ScenarioError (Scenario Float) := do
  let bytes ← content.mapError (.unreadable path)
  match String.fromUTF8? bytes with
  | some text => Scenario.ofToml? text
  | none => .error (.unreadable path "stream did not contain valid UTF-8")

/-- The scenario that is asked for: a file before a preset, and the baseline if neither is. -/
def Options.load (o : Options) (read : String → Except String ByteArray) :
    Except ScenarioError (Scenario Float) := do
  let scenario ← match o.scenario, o.preset with
    | some path, _ => loadFile path (read path)
    | none, some name => Scenario.ofPreset? name
    | none, none => .ok Scenario.baseline
  match o.seed with
  | some seed => return { scenario with timing := { scenario.timing with seed } }
  | none => return scenario

/-- The simulation of a scenario that has no faults, or all that is wrong with it. -/
def prepare (scenario : Scenario Float) :
    Except (List ScenarioError) (Simulation Signal Float) :=
  match scenario.faults with
  | [] => (scenario.simulation scenario.signal).mapError ([·])
  | faults => .error faults

/-- What a run shows: a line for each row, a blank line and the report. -/
def shown (rows : List (Row Float)) (report : Report Float) : String :=
  unlines (rows.map Row.line ++ ["", report.text])

/-- What a command line leads to. -/
inductive Session where
  /-- Nothing was run. -/
  | stopped (result : Result)
  /-- A scenario was run; a file may remain to be written. -/
  | finished (out : String) (export? : Option Export)
  deriving DecidableEq, Repr

/-- Goes through with a command line, given how files are read and room is made for rows. -/
def session (read : String → Except String ByteArray) (allocate : Nat → Except Result Unit)
    (words : List String) : Session :=
  match Options.ofWords words with
  | .error stop => .stopped { code := stop.code, err := unlines stop.lines }
  | .ok options =>
    match (options.load read).mapError ([·]) >>= fun s => return (s, ← prepare s) with
    | .error faults => .stopped { code := 1, err := unlines (faults.map ScenarioError.text) }
    | .ok (scenario, simulation) =>
      match allocate scenario.timing.steps with
      | .error ended => .stopped ended
      | .ok () =>
        let rows := simulation.run.1
        .finished (shown rows (.ofRows rows scenario.timing.step))
          (options.telemetry.map fun path => { path, content := Csv.table rows })

/-- What a session leaves behind when its file, if there is one, was written or not. -/
def Session.result (s : Session) (written : Except String Unit) : Result :=
  match s with
  | .stopped result => result
  | .finished out none => { code := 0, out }
  | .finished out (some file) =>
    match written with
    | .ok _ => { code := 0, out, err := unlines ["Telemetry written to " ++ file.path] }
    | .error reason => { code := 1, out, err := unlines ["error: failed to write CSV: " ++ reason] }

/-- Goes through with a command line on a machine. -/
def runOn {σ : Type} (m : Machine σ) (files : σ) (words : List String) : Result × σ :=
  let s := session (m.read files) m.allocate words
  match s with
  | .finished _ (some file) =>
    let (written, left) := m.save files file.path file.content
    (s.result written, left)
  | _ => (s.result (.ok ()), files)

/-- The bytes that a row takes. -/
def rowSize : Nat := 88

/-- Finds room as long as the bytes can be counted by 64 bits with a sign. -/
def allocate (rows : Nat) : Except Result Unit :=
  if rows * rowSize ≤ 0x7fffffffffffffff then .ok ()
  else .error { code := 101, err := unlines ["capacity overflow"] }

/-- A machine with one folder. -/
def folderMachine : Machine Folder := { Folder.fileSystem with allocate }

/-- Goes through with a command line in a folder. -/
def runIn (folder : Folder) (words : List String) : Result × Folder :=
  runOn folderMachine folder words

end UnitDispatch.CommandLine
