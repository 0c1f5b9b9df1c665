import UnitDispatch.CommandLine.Session
import UnitDispatch.Proofs.CommandWords
import UnitDispatch.Proofs.ReadBack

/-! # Sessions are whole or nothing

A command line that is refused, for its words, for a scenario that cannot be had or for the faults
of one, shows nothing on standard output and touches no file. Any other for which there is room
shows every row and the report, and then saves the table of the rows where it is asked for. What
goes wrong with that is told by the exit code. `runOn_whole_or_nothing` says both, on any machine,
and that of the options only the last values count.
-/

namespace UnitDispatch.CommandLine

variable {σ : Type}

/-! ## What stops a session -/

/-- What options with their values ask for, given how files are read. -/
def loaded (read : String → Except String ByteArray) (pairs : List (Flag × String)) :
    Except ScenarioError (Scenario Float) :=
  (Options.ofValues (last? pairs)).load read

/-- Why nothing is run: help or a bad word, a scenario that cannot be had, or one with faults. -/
inductive Refused (read : String → Except String ByteArray) : List String → Prop
  | halted {pairs : List (Flag × String)} {rest : List String} {stop : Stop}
    (wellFormed : WellFormed pairs) (halts : Halts stop rest) : Refused read (spell pairs ++ rest)
  | unloaded {pairs : List (Flag × String)} {error : ScenarioError} (wellFormed : WellFormed pairs)
    (fails : loaded read pairs = .error error) : Refused read (spell pairs)
  | faulty {pairs : List (Flag × String)} {s : Scenario Float} (wellFormed : WellFormed pairs)
    (loads : loaded read pairs = .ok s) (faulty : s.faults ≠ []) : Refused read (spell pairs)

section Steps

variable {read : String → Except String ByteArray} {allocate : Nat → Except Result Unit}
  {words : List String} {o : Options} {s : Scenario Float} {sim : Simulation Signal Float}

theorem session_of_unloaded {error : ScenarioError} (asked : Options.ofWords words = .ok o)
    (fails : o.load read = .error error) :
    session read allocate words = .stopped { code := 1, err := unlines [error.text] } := by
  simp only [session, asked, fails]
  rfl

/-- With a scenario at hand, it depends on its faults and on the room for its rows. -/
theorem session_of_loaded (asked : Options.ofWords words = .ok o) (loads : o.load read = .ok s) :
    session read allocate words =
      match prepare s with
      | .error faults => .stopped { code := 1, err := unlines (faults.map ScenarioError.text) }
      | .ok sim =>
        match allocate s.timing.steps with
        | .error ended => .stopped ended
        | .ok () => .finished (shown sim.run.1 (.ofRows sim.run.1 s.timing.step))
            (o.telemetry.map fun path => { path, content := Csv.table sim.run.1 }) := by
  have prepared : ((Except.ok s).mapError ([·]) >>= fun s => return (s, ← prepare s)) =
      (prepare s).map fun sim => (s, sim) := by
    show (prepare s >>= fun sim => pure (s, sim)) = _
    cases prepare s <;> rfl
  unfold session
  simp only [asked, loads]
  rw [prepared]
  cases prepare s <;> rfl

theorem prepare_of_faulty (faulty : s.faults ≠ []) : prepare s = .error s.faults := by
  unfold prepare
  split
  next none => exact absurd none faulty
  next => rfl

theorem prepare_of_valid (valid : s.faults = []) (built : s.simulation s.signal = .ok sim) :
    prepare s = .ok sim := by
  unfold prepare
  rw [valid, built]
  rfl

/-- A scenario without faults has a simulation. -/
theorem exists_simulation (valid : s.faults = []) : ∃ sim, s.simulation s.signal = .ok sim := by
  obtain ⟨mode, known⟩ := Scenario.rampMode?_of_faults_eq_nil valid
  unfold Scenario.simulation
  rw [known]
  exact ⟨_, rfl⟩

theorem Refused.stopped (h : Refused read words) :
    ∃ result, result.out = "" ∧ session read allocate words = .stopped result := by
  cases h with
  | @halted pairs rest stop wellFormed halts =>
    have halted := ofWords_eq_error_iff.mpr ⟨_, _, rfl, wellFormed, halts⟩
    refine ⟨{ code := stop.code, err := unlines stop.lines }, rfl, ?_⟩
    rw [session, halted]
  | unloaded wellFormed fails =>
    refine ⟨_, ?_, session_of_unloaded (ofWords_of_wellFormed wellFormed) fails⟩
    rfl
  | @faulty pairs s wellFormed loads faulty =>
    refine ⟨{ code := 1, err := unlines (s.faults.map ScenarioError.text) }, rfl, ?_⟩
    rw [session_of_loaded (ofWords_of_wellFormed wellFormed) loads, prepare_of_faulty faulty]

end Steps

/-! ## What a session leaves -/

/-- What a run leaves behind: all rows and the report on standard output, and the table of the rows
where it is asked for, if it can be saved there. If it cannot, the rows and the report are shown all
the same. -/
structure Finished (m : Machine σ) (files : σ) (telemetry : Option String) (rows : List (Row Float))
    (step : Float) (left : Result × σ) : Prop where
  shown : left.1.out =
    String.join (rows.map fun r => r.line ++ "\n") ++ "\n" ++ (Report.ofRows rows step).text ++ "\n"
  unasked : telemetry = none → left.1.code = 0 ∧ left.2 = files
  saved : ∀ path ∈ telemetry, (m.save files path (Csv.table rows)).1 = .ok () →
    left.1.code = 0 ∧ (m.Keeps files path → ∃ text, m.read left.2 path = .ok text.toUTF8 ∧
      Csv.read? text = some (Csv.header :: rows.map Csv.fields))
  unsaved : ∀ path ∈ telemetry, ∀ reason, (m.save files path (Csv.table rows)).1 = .error reason →
    left.1.code = 1 ∧ left.1.err = unlines ["error: failed to write CSV: " ++ reason]
  /-- Where no file can be made, nothing comes of it. -/
  unmade : ∀ path ∈ telemetry, m.Keeps files path → ∀ reason,
    (m.create files path).1 = .error reason → left.2 = files

section Steps

variable {m : Machine σ} {files : σ} {words : List String}

theorem shown_eq (rows : List (Row Float)) (report : Report Float) : shown rows report =
    String.join (rows.map fun r => r.line ++ "\n") ++ "\n" ++ report.text ++ "\n" := by
  unfold shown unlines
  simp [List.map_append, String.join_append, String.append_assoc, Function.comp_def]

/-- A session that is stopped leaves the files alone. -/
theorem runOn_of_stopped {result : Result}
    (h : session (m.read files) m.allocate words = .stopped result) :
    runOn m files words = (result, files) := by
  simp [runOn, h, Session.result]

theorem runOn_of_unasked {out : String}
    (h : session (m.read files) m.allocate words = .finished out none) :
    runOn m files words = ({ code := 0, out }, files) := by
  simp [runOn, h, Session.result]

theorem runOn_of_asked {out : String} {file : Export}
    (h : session (m.read files) m.allocate words = .finished out (some file)) :
    runOn m files words = (Session.result (.finished out (some file))
      (m.save files file.path file.content).1, (m.save files file.path file.content).2) := by
  simp [runOn, h]

theorem finished_of_session {telemetry : Option String} {rows : List (Row Float)} {step : Float}
    (h : session (m.read files) m.allocate words = .finished (shown rows (.ofRows rows step))
      (telemetry.map fun path => { path, content := Csv.table rows })) :
    Finished m files telemetry rows step (runOn m files words) := by
  rw [shown_eq] at h
  cases telemetry with
  | none =>
    rw [runOn_of_unasked h]
    exact ⟨rfl, fun _ => ⟨rfl, rfl⟩, nofun, nofun, nofun⟩
  | some path =>
    rw [runOn_of_asked h]
    dsimp only
    refine ⟨?_, nofun, ?_, ?_, ?_⟩
    · cases (m.save files path (Csv.table rows)).1 <;> rfl
    · rintro _ ⟨⟩ done
      refine ⟨by rw [done]; rfl, fun keeps => ⟨Csv.table rows, ?_, ?_⟩⟩
      · exact keeps.read_save (Prod.ext done rfl)
      · exact Csv.read?_tableBy Csv.joins_record rows
    · rintro _ ⟨⟩ reason failed
      rw [failed]
      exact ⟨rfl, rfl⟩
    · rintro _ ⟨⟩ keeps reason failed
      have unmade : m.create files path = (.error reason, (m.create files path).2) :=
        Prod.ext failed rfl
      rw [FileSystem.save_of_unmade unmade]
      exact keeps.untouched unmade

end Steps

/-- Whole or nothing: a command line that is refused leaves no trace but on standard error, and any
other is carried out to the end, if there is room for the rows. -/
structure WholeOrNothing (m : Machine σ) (files : σ) (words : List String) : Prop where
  nothing : Refused (m.read files) words →
    (runOn m files words).1.out = "" ∧ (runOn m files words).2 = files
  whole : ¬ Refused (m.read files) words → ∃ pairs s sim, words = spell pairs ∧ WellFormed pairs ∧
    loaded (m.read files) pairs = .ok s ∧ s.faults = [] ∧ s.simulation s.signal = .ok sim ∧
    (m.allocate s.timing.steps = .ok () →
      Finished m files (last? pairs .telemetry) sim.run.1 s.timing.step (runOn m files words))

/-- Of the values that options take only the last one of each counts, and a file goes before a
preset. -/
structure LastCounts (m : Machine σ) (files : σ) : Prop where
  last : ∀ pairs pairs', WellFormed pairs → WellFormed pairs' → last? pairs = last? pairs' →
    runOn m files (spell pairs) = runOn m files (spell pairs')
  exchange : ∀ p q front back, p.1 ≠ q.1 → WellFormed (front ++ p :: q :: back) →
    runOn m files (spell (front ++ p :: q :: back)) =
      runOn m files (spell (front ++ q :: p :: back))
  file : ∀ pairs path, WellFormed pairs → last? pairs .scenario = some path →
    runOn m files (spell pairs) =
      runOn m files (spell (pairs.filter fun p => p.1 != .preset))

theorem whole_or_nothing (m : Machine σ) (files : σ) (words : List String) :
    WholeOrNothing m files words where
  nothing := by
    intro refused
    obtain ⟨result, out, stopped⟩ := refused.stopped
    rw [runOn_of_stopped stopped]
    exact ⟨out, rfl⟩
  whole := by
    intro accepted
    obtain ⟨pairs, wellFormed, rfl | ⟨rest, stop, rfl, halts⟩⟩ := exists_spell words
    · cases loads : loaded (m.read files) pairs with
      | error e => exact absurd (.unloaded wellFormed loads) accepted
      | ok s =>
        have valid : s.faults = [] := by
          by_contra faulty
          exact accepted (.faulty wellFormed loads faulty)
        obtain ⟨sim, built⟩ := exists_simulation valid
        refine ⟨pairs, s, sim, rfl, wellFormed, loads, valid, built, fun room => ?_⟩
        refine finished_of_session ?_
        rw [session_of_loaded (ofWords_of_wellFormed wellFormed) loads,
          prepare_of_valid valid built]
        simp only [room]
        rfl
    · exact absurd (.halted wellFormed halts) accepted

/-- Command lines that ask for the same leave the same. -/
theorem runOn_congr {m : Machine σ} {files : σ} {words words' : List String} {o o' : Options}
    (asked : Options.ofWords words = .ok o) (asked' : Options.ofWords words' = .ok o')
    (load : o.load (m.read files) = o'.load (m.read files))
    (telemetry : o.telemetry = o'.telemetry) : runOn m files words = runOn m files words' := by
  have same : session (m.read files) m.allocate words =
      session (m.read files) m.allocate words' := by
    simp only [session, asked, asked', load, telemetry]
  unfold runOn
  rw [same]

theorem last_counts (m : Machine σ) (files : σ) : LastCounts m files := by
  have last (pairs pairs' : List (Flag × String)) (wellFormed : WellFormed pairs)
      (wellFormed' : WellFormed pairs') (same : last? pairs = last? pairs') :
      runOn m files (spell pairs) = runOn m files (spell pairs') := by
    refine runOn_congr (ofWords_of_wellFormed wellFormed) (ofWords_of_wellFormed wellFormed') ?_ ?_
    all_goals rw [same]
  refine ⟨last, ?_, ?_⟩
  · intro p q front back apart wellFormed
    have swapped : WellFormed (front ++ q :: p :: back) :=
      fun r hr => wellFormed r (((List.Perm.swap p q back).append_left front).mem_iff.mp hr)
    exact last _ _ wellFormed swapped (last?_swap apart front back)
  · intro pairs path wellFormed asked
    have others : WellFormed (pairs.filter fun p => p.1 != .preset) :=
      fun p hp => wellFormed p (List.mem_of_mem_filter hp)
    have same (flag : Flag) (apart : flag ≠ .preset) :
        last? (pairs.filter fun p => p.1 != .preset) flag = last? pairs flag := last?_filter apart
    refine runOn_congr (ofWords_of_wellFormed wellFormed) (ofWords_of_wellFormed others) ?_ ?_
    · simp only [Options.load, Options.ofValues, asked, same .scenario nofun, same .seed nofun]
    · simp only [Options.ofValues, same .telemetry nofun]

theorem not_refused {read : String → Except String ByteArray} {pairs : List (Flag × String)}
    {s : Scenario Float} (wellFormed : WellFormed pairs) (loads : loaded read pairs = .ok s)
    (valid : s.faults = []) : ¬ Refused read (spell pairs) := by
  intro refused
  obtain ⟨result, -, stopped⟩ := @Refused.stopped _ (fun _ => .ok ()) _ refused
  obtain ⟨sim, built⟩ := exists_simulation valid
  rw [session_of_loaded (ofWords_of_wellFormed wellFormed) loads,
    prepare_of_valid valid built] at stopped
  cases stopped

/-- Whatever machine it runs on, every session is whole or nothing, and of the values of an option
only the last counts. -/
theorem runOn_whole_or_nothing (m : Machine σ) (files : σ) :
    (∀ words, WholeOrNothing m files words) ∧ LastCounts m files :=
  ⟨whole_or_nothing m files, last_counts m files⟩

/-- In an empty folder: a line that is refused for its last word, one that runs in either order, a
preset that is not looked for beside a file, and a table that is saved. -/
theorem runOn_whole_or_nothing_saved :
    Refused (folderMachine.read {}) ["--preset", "delayed", "--seed", "-1"] ∧
      (runIn {} ["--preset", "delayed", "--seed", "-1"]).1.out = "" ∧
      runIn {} ["--preset", "delayed", "--seed", "7"] =
        runIn {} ["--seed", "7", "--preset", "delayed"] ∧
      runIn {} ["--scenario", "s.toml", "--preset", "none"] =
        runIn {} ["--scenario", "s.toml"] ∧
      ¬ Refused (folderMachine.read {}) ["--telemetry-out", "out"] ∧
      (runIn {} ["--telemetry-out", "out"]).1.code = 0 ∧
      ∃ (rows : List (Row Float)) (text : String),
        folderMachine.read (runIn {} ["--telemetry-out", "out"]).2 "out" = .ok text.toUTF8 ∧
          Csv.read? text = some (Csv.header :: rows.map Csv.fields) := by
  have refused :
      Refused (folderMachine.read {}) (spell [(.preset, "delayed")] ++ ["--seed", "-1"]) :=
    .halted (by decide +kernel) (.badSeed (by decide +kernel) [])
  have wellFormed : WellFormed [(.telemetry, "out")] := by decide +kernel
  have baseline : loaded (folderMachine.read {}) [(.telemetry, "out")] = .ok .baseline := rfl
  have accepted : ¬ Refused (folderMachine.read {}) (spell [(.telemetry, "out")]) :=
    not_refused wellFormed baseline (by decide +kernel)
  have place : Folder.locate "out" = .ok (.file "" "out") := by cbv
  obtain ⟨sessions, counts⟩ := runOn_whole_or_nothing folderMachine {}
  obtain ⟨pairs, s, sim, words, formed, loads, -, -, finished⟩ := (sessions _).whole accepted
  have options := ofWords_of_wellFormed formed
  rw [← words, ofWords_of_wellFormed wellFormed] at options
  have options := Except.ok.inj options
  have asked : last? pairs .telemetry = some "out" :=
    (congrArg Options.telemetry options).symm
  have plan : s = .baseline := by
    refine Except.ok.inj (loads.symm.trans ?_)
    rw [loaded, ← options]
    rfl
  have finished := finished (by rw [plan]; rfl)
  obtain ⟨code, file⟩ := finished.saved "out" asked
    (Folder.save_of_file place (by decide) {} _)
  obtain ⟨text, kept, read⟩ := file (Folder.keeps {} "out")
  refine ⟨refused, ((sessions _).nothing refused).1, ?_, ?_, accepted, code, _, text, kept, read⟩
  · exact counts.exchange (.preset, "delayed") (.seed, "7") [] [] nofun (by decide +kernel)
  · exact counts.file [(.scenario, "s.toml"), (.preset, "none")] "s.toml" (by decide +kernel) rfl

/-- A run that shows all there is, and has no file for the table: there is no folder to put it
in. -/
theorem telemetry_unwritten :
    ¬ Refused (folderMachine.read {}) ["--telemetry-out", "a/b"] ∧
      last? [(.telemetry, "a/b")] .telemetry = some "a/b" ∧
      spell [(.telemetry, "a/b")] = ["--telemetry-out", "a/b"] ∧
      (runIn {} ["--telemetry-out", "a/b"]).1.code = 1 ∧
      (runIn {} ["--telemetry-out", "a/b"]).2.read "a/b" = .error .notFound := by
  have wellFormed : WellFormed [(.telemetry, "a/b")] := by decide +kernel
  have loads : loaded (folderMachine.read {}) [(.telemetry, "a/b")] = .ok .baseline := rfl
  have valid : (Scenario.baseline : Scenario Float).faults = [] := by decide +kernel
  have place : Folder.locate "a/b" = .ok (.within "" "a") := by cbv
  have absent : ({} : Folder).lookUp "" "a" = .error .notFound := by cbv
  obtain ⟨sim, built⟩ := exists_simulation valid
  have ended := @session_of_loaded _ folderMachine.allocate _ _ _
    (ofWords_of_wellFormed wellFormed) loads
  rw [prepare_of_valid valid built] at ended
  have left := runOn_of_asked ended
  have unsaved (text : String) :
      folderMachine.save {} "a/b" text = (.error FileError.notFound.text, {}) :=
    Folder.save_of_within place absent text
  rw [unsaved] at left
  have untouched : (runIn {} (spell [(.telemetry, "a/b")])).2 = {} := congrArg Prod.snd left
  refine ⟨not_refused wellFormed loads valid, rfl, rfl, congrArg (·.1.code) left, ?_⟩
  show (runIn {} (spell [(.telemetry, "a/b")])).2.read "a/b" = _
  rw [untouched, Folder.read, place]
  rfl

end UnitDispatch.CommandLine
