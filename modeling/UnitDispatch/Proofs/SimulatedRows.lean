import UnitDispatch.Proofs.LookAhead
import UnitDispatch.Proofs.Participation
import UnitDispatch.Simulation
import UnitDispatch.Telemetry.Report

/-! # Simulated rows

What a simulation records is physically admissible. Calls on the reserve and commands are delivered
without moving the output, and an advance moves it at a rate that the physical ramp limits allow.
The power limits may cut that move short but never lengthen it, as long as the output lies within
them to begin with; how the base is dispatched in what regulation leaves of the envelope does not
matter. `Bounded` is what every step keeps.
-/

namespace UnitDispatch

open Quantity Exact

/-! ## Units within their limits -/

namespace RegulatedUnit

variable {K : Type} [Field K] [LinearOrder K] [IsStrictOrderedRing K]

/-- A unit whose physical limits are the numbers given. Neither a ramp limit nor the base of
regulation is negative. -/
structure Bounded (low high up down : K) (u : RegulatedUnit (Exact K)) : Prop where
  sound : u.Sound
  fitted : u.Fitted
  physical : u.physical = ⟨fin low, fin high, fin up, fin down⟩
  rampUp : 0 ≤ up
  rampDown : 0 ≤ down
  base : 0 ≤ u.regulationBase

variable {u : RegulatedUnit (Exact K)} {low high up down n t o : K}

/-- What is left of finite ramp limits is finite. -/
theorem Bounded.finiteRamps (bounded : u.Bounded low high up down) :
    u.generator.FiniteRamps := by
  obtain ⟨a, b, base, ha, hb, hbase⟩ := bounded.sound.band
  have window : (Envelope.regulationWindow : Exact K) = fin ((600 : Nat) : K) := ofNat_fin 600
  have nonzero : ((600 : Nat) : K) ≠ 0 := by norm_num
  have envelope := bounded.fitted.envelope
  unfold dispatchEnvelope Envelope.without at envelope
  rw [bounded.physical, ha, hb, hbase, window, fin_mul, fin_mul, fin_div _ nonzero,
    fin_div _ nonzero] at envelope
  refine ⟨?_, ?_⟩ <;> rw [envelope] <;> split
  · exact isFinite_fin _
  · exact isFinite_fin _
  · exact isFinite_fin _
  · exact isFinite_fin _

/-- A call on the reserve moves neither output nor clock. -/
theorem Bounded.callReserve (bounded : u.Bounded low high up down) {level : Exact K}
    (finite : isFinite level = true) :
    Bounded low high up down { u with generator := u.generator.callReserve level } ∧
      (u.generator.callReserve level).output = u.generator.output ∧
      (u.generator.callReserve level).now = u.generator.now := by
  have given : (Generator.Action.callReserve level).Numeric := by
    intro v hv
    rw [List.mem_singleton.mp hv]
    exact finite
  obtain ⟨x, -, generator⟩ := bounded.sound.generator
  let g := { u.generator with reserve := u.generator.reserve.call level }
  have change : u.generator.configure (.callReserve level) = some g := rfl
  have called : g.Sound x :=
    generator.resettle (generator.numeric.configure given change)
      (Generator.configure_sameState change)
  have same : Generator.SamePlant g g.replan := Generator.replan_samePlant g
  have ramps : g.FiniteRamps := ⟨bounded.finiteRamps.up, bounded.finiteRamps.down⟩
  exact ⟨⟨bounded.sound.act_generator given, bounded.fitted.withGenerator same.envelope,
    bounded.physical, bounded.rampUp, bounded.rampDown, bounded.base⟩, called.replan_output ramps,
    same.now⟩

/-- Any command at all is held at a number within the band. -/
theorem Bounded.regulate (bounded : u.Bounded low high up down) (level : Exact K) :
    (u.regulate level).Bounded low high up down := by
  have fitted := bounded.fitted.regulate level
  obtain ⟨a, b, base, ha, hb, hbase⟩ := bounded.sound.band
  obtain ⟨least, most⟩ := fitted.band bounded.base
  have finite : isFinite (u.regulate level).commanded = true := by
    change -u.downFraction * u.regulationBase ≤ (u.regulate level).commanded at least
    change (u.regulate level).commanded ≤ u.upFraction * u.regulationBase at most
    rw [hb, hbase, neg_fin, fin_mul] at least
    rw [ha, hbase, fin_mul] at most
    exact isFinite_of_between least most
  exact ⟨⟨bounded.sound.generator, bounded.sound.physical, finite, bounded.sound.upFraction,
    bounded.sound.downFraction⟩, fitted, bounded.physical, bounded.rampUp, bounded.rampDown,
    bounded.base⟩

/-- An advance moves the output within the physical limits, of power and of ramp alike. -/
theorem Bounded.advance (bounded : u.Bounded low high up down)
    (now : u.generator.now = fin n) (output : u.generator.output = fin o)
    (inside : o ∈ Set.Icc low high) (ahead : n < t) :
    ∃ w, (u.advance (fin t)).generator.output = fin w ∧ w ∈ Set.Icc low high ∧
      (w - o) / (t - n) ∈ Set.Icc (-down) up := by
  obtain ⟨x, -, generator⟩ := bounded.sound.generator
  obtain ⟨c, y, carries⟩ := generator.balanced
  obtain ⟨c', y', carries'⟩ := (generator.advance t).balanced
  obtain ⟨v, w, rate, held, eq⟩ :=
    bounded.sound.advance_eq now ahead carries.base carries'.base output
  have span : 0 < t - n := sub_pos.mpr ahead
  have below : -down ≤ 0 := neg_nonpos.mpr bounded.rampDown
  -- the rate is held within the ramp limits
  have rated : v ∈ Set.Icc (-down) up := by
    unfold RegulatedUnit.regulationRate Envelope.holdRate at rate
    rw [bounded.physical, neg_fin] at rate
    obtain ⟨v', hv', rated⟩ := limit_mem_Icc (below.trans bounded.rampUp)
      ((u.regulationGoal - u.current) / fin (t - n) + fin ((c' + y' - (c + y)) / (t - n)))
    obtain rfl : v' = v := by simpa using hv'.symm.trans rate
    exact rated
  -- and the power limits, with the old output between them, can only cut the move short
  unfold Envelope.holdPower at held
  rw [bounded.physical] at held
  have above : (fin low : Exact K) ≤ fin o := fin_le.mpr inside.1
  have under : (fin o : Exact K) ≤ fin high := fin_le.mpr inside.2
  obtain ⟨w', hw', least, most, toward⟩ := limit_toward above under (o + v * (t - n))
  obtain rfl : w' = w := by simpa using hw'.symm.trans held
  refine ⟨w', by rw [eq], ⟨fin_le.mp least, fin_le.mp most⟩, ?_⟩
  rcases Set.mem_uIcc.mp toward with ⟨rise, le⟩ | ⟨ge, fall⟩
  · refine ⟨below.trans (div_nonneg (sub_nonneg.mpr rise) span.le), ?_⟩
    exact ((div_le_iff₀ span).mpr (by linarith)).trans rated.2
  · refine ⟨rated.1.trans ((le_div_iff₀ span).mpr (by linarith)), ?_⟩
    exact (div_nonpos_of_nonpos_of_nonneg (sub_nonpos.mpr fall) span.le).trans bounded.rampUp

/-- The ramp observed over an advance is within the limits, also when the time does not lie
ahead. -/
theorem Bounded.observed (bounded : u.Bounded low high up down) (now : u.generator.now = fin n)
    (output : u.generator.output = fin o) (inside : o ∈ Set.Icc low high) (t : K) :
    ∃ w r, (u.advance (fin t)).generator.output = fin w ∧ w ∈ Set.Icc low high ∧
      (if 0 < (fin (t - n) : Exact K) then (fin w - fin o) / fin (t - n) else 0) = fin r ∧
      r ∈ Set.Icc (-down) up := by
  rcases lt_or_ge n t with ahead | past
  · obtain ⟨w, after, inside', ramp⟩ := bounded.advance now output inside ahead
    have span : 0 < t - n := sub_pos.mpr ahead
    refine ⟨w, (w - o) / (t - n), after, inside', ?_, ramp⟩
    rw [if_pos (by simpa using ahead), fin_sub, fin_div _ span.ne']
  · rw [advance_of_past now past]
    refine ⟨o, 0, output, inside, ?_, neg_nonpos.mpr bounded.rampDown, bounded.rampUp⟩
    rw [if_neg (by simpa using past), zero_eq]

/-- An advance leaves a unit within its limits. -/
theorem Bounded.after_advance (bounded : u.Bounded low high up down) (t : K) :
    (u.advance (fin t)).Bounded low high up down := by
  have same : (u.advance (fin t)).physical = u.physical ∧
      (u.advance (fin t)).rating = u.rating := by
    unfold RegulatedUnit.advance
    dsimp only
    split <;> exact ⟨rfl, rfl⟩
  refine ⟨bounded.sound.advance t, bounded.fitted.advance (fin t),
    same.1.trans bounded.physical, bounded.rampUp, bounded.rampDown, ?_⟩
  unfold RegulatedUnit.regulationBase
  rw [same.1, same.2]
  exact bounded.base

end RegulatedUnit

/-! ## Steps -/

/-- A row whose output lies between `low` and `high`, was reached within the ramp limits and is made
up of committed power, reserve and regulation. -/
structure Row.Admissible {α : Type} [Quantity α] (low high : α) (row : Row α) : Prop where
  low : low ≤ row.output
  high : row.output ≤ high
  within : row.withinLimits = true
  balance : row.output = row.committed + row.reserve + row.regulation

namespace Simulation

variable {σ K : Type} [Field K] [LinearOrder K] [IsStrictOrderedRing K]

/-- A simulation of a unit within its limits, the levels still to be called for being numbers. -/
structure Bounded (low high up down : K) (s : Simulation σ (Exact K)) : Prop where
  unit : s.unit.Bounded low high up down
  calls : ∀ c ∈ s.calls, isFinite c.level = true
  output : ∃ o ∈ Set.Icc low high, s.unit.generator.output = fin o

variable {s : Simulation σ (Exact K)} {low high up down : K}

/-- Calls on the reserve move neither output nor clock. -/
theorem deliverCalls_bounded (unit : s.unit.Bounded low high up down)
    (calls : ∀ c ∈ s.calls, isFinite c.level = true) (time : Exact K) :
    (s.deliverCalls time).unit.Bounded low high up down ∧
      (s.deliverCalls time).unit.generator.output = s.unit.generator.output ∧
      (s.deliverCalls time).unit.generator.now = s.unit.generator.now := by
  refine deliverCalls_induction (P := fun u => u.Bounded low high up down ∧
    u.generator.output = s.unit.generator.output ∧ u.generator.now = s.unit.generator.now)
    ?_ ⟨unit, rfl, rfl⟩ time
  rintro u ⟨bounded, output, now⟩ c hc
  obtain ⟨called, output', now'⟩ := bounded.callReserve (calls c hc)
  exact ⟨called, output'.trans output, now'.trans now⟩

variable [CommandSource σ (Exact K)]

/-- A command moves neither output nor clock, whatever it is. -/
theorem deliverCommand_bounded (unit : s.unit.Bounded low high up down) (time : Exact K) :
    (s.deliverCommand time).unit.Bounded low high up down ∧
      (s.deliverCommand time).unit.generator = s.unit.generator ∧
      (s.deliverCommand time).calls = s.calls := by
  unfold deliverCommand
  split
  · exact ⟨unit, rfl, rfl⟩
  · exact ⟨unit.regulate _, rfl, rfl⟩

omit [IsStrictOrderedRing K] [CommandSource σ (Exact K)] in
theorem rampSlack_eq : (rampSlack : Exact K) = fin (1 / 10 ^ 6) := by
  unfold rampSlack
  rw [ofScientific_fin, Nat.cast_one]

/-- A step records an admissible row and leaves the unit within its limits. -/
theorem Bounded.step (bounded : s.Bounded low high up down) (index : Nat) (t : K) :
    (s.step index (fin t)).1.Admissible (fin low) (fin high) ∧
      (s.step index (fin t)).2.Bounded low high up down := by
  obtain ⟨called, output, now⟩ :=
    deliverCalls_bounded bounded.unit bounded.calls s.unit.generator.now
  obtain ⟨unit, same, calls⟩ := deliverCommand_bounded called s.unit.generator.now
  obtain ⟨o, inside, before⟩ := bounded.output
  obtain ⟨x, -, generator⟩ := bounded.unit.sound.generator
  obtain ⟨n, _, _, _, stands⟩ := generator.regular.stands
  unfold Simulation.step
  dsimp only
  generalize (s.deliverCalls s.unit.generator.now).deliverCommand s.unit.generator.now = v at *
  rw [← same, before] at output
  rw [← same, stands.now] at now
  -- delivering left clock and output alone, so the ramp is the one observed over the advance
  obtain ⟨w, r, after, ⟨least, most⟩, ramp, ⟨fall, rise⟩⟩ := unit.observed now output inside t
  have advanced := unit.after_advance t
  refine ⟨⟨?_, ?_, ?_, advanced.sound.inBalance.2⟩, advanced, ?_, w, ⟨least, most⟩, after⟩
  · dsimp only
    rw [after, fin_le]
    exact least
  · dsimp only
    rw [after, fin_le]
    exact most
  · have slack : (0 : K) ≤ 1 / 10 ^ 6 := by positivity
    dsimp only
    rw [after, before, stands.now, fin_sub t n, ramp, advanced.physical, rampSlack_eq, fin_add,
      neg_fin, fin_sub, Bool.and_eq_true, decide_eq_true_iff, decide_eq_true_iff, fin_le, fin_le]
    exact ⟨by linarith, by linarith⟩
  · intro c hc
    rw [calls] at hc
    exact bounded.calls c (List.dropWhile_subset _ hc)

/-- Every row that a simulation records is admissible. -/
theorem Bounded.steps (bounded : s.Bounded low high up down) {ticks : List (Nat × Exact K)}
    (finite : ∀ tick ∈ ticks, isFinite tick.2 = true) :
    ∀ row ∈ (s.steps ticks).1, row.Admissible (fin low) (fin high) := by
  induction ticks generalizing s with
  | nil =>
    intro row hrow
    exact (List.not_mem_nil hrow).elim
  | cons tick rest ih =>
    obtain ⟨index, time⟩ := tick
    obtain ⟨t, rfl⟩ := isFinite_iff.mp (finite (index, time) List.mem_cons_self)
    obtain ⟨first, after⟩ := bounded.step index t
    rw [steps_cons]
    intro row hrow
    rcases List.mem_cons.mp hrow with rfl | later
    · exact first
    · exact ih after (fun tick htick => finite tick (List.mem_cons_of_mem _ htick)) row later

end Simulation

/-! ## Scenarios -/

namespace Scenario

section

variable {α : Type}

/-- The numbers in a scenario. -/
def values (s : Scenario α) : List α :=
  [s.timing.start, s.timing.step, s.unit.initialOutput, s.unit.rampUp, s.unit.rampDown,
      s.unit.rampTime, s.unit.powerMin, s.unit.powerMax, s.unit.reserveAvailable,
      s.unit.reserveRampTime, s.regulation.upFraction, s.regulation.downFraction,
      s.regulation.rating, s.regulation.initialLevel, s.regulation.signalAmplitude,
      s.regulation.signalPeriod, s.regulation.signalAlpha, s.regulation.signalDeviation] ++
    s.targets.flatMap (fun t => [t.time, t.power]) ++
    s.reserveCalls.flatMap fun c => [c.time, c.level]

variable [Quantity α]

/-- What sets up the generator of a scenario. -/
def generatorSetup (u : UnitPlan α) (mode : RampMode) : List (Generator.Action α) :=
  [.setMode mode, .set .rampUp u.rampUp, .set .rampDown u.rampDown, .set .rampTime u.rampTime,
    .set .min u.powerMin, .set .max u.powerMax, .set .reserveRampTime u.reserveRampTime,
    .set .reserve u.reserveAvailable]

theorem generator_eq_run (u : UnitPlan α) (mode : RampMode) :
    generator u mode = (Generator.idle u.initialOutput).run (generatorSetup u mode) := rfl

theorem generator_envelope (u : UnitPlan α) (mode : RampMode) :
    (generator u mode).envelope = ⟨u.powerMin, u.powerMax, u.rampUp, magnitude u.rampDown⟩ := by
  simp only [generator, Generator.set, Generator.assign, Generator.setMode,
    (Generator.replan_samePlant _).envelope]

omit [Quantity α] in
theorem generatorSetup_values (s : Scenario α) (mode : RampMode) :
    ∀ a ∈ generatorSetup s.unit mode, ∀ v ∈ a.values, v ∈ s.values := by
  simp [generatorSetup, Generator.Action.values, values]

/-- What sets up the unit of a scenario and its simulation. -/
def unitSetup (s : Scenario α) : List (RegulatedUnit.Action α) :=
  [.set .rating s.regulation.rating,
    .participate s.regulation.enabled (some s.regulation.upFraction)
      (some s.regulation.downFraction),
    .receive (.addTargets (s.targets.map (·.time)) (s.targets.map (·.power))),
    .receive (.registerDispatcher Simulation.dispatcherNumber),
    .startWith s.timing.start s.regulation.initialLevel]

omit [Quantity α] in
theorem unitSetup_values (s : Scenario α) : ∀ a ∈ s.unitSetup, ∀ v ∈ a.values, v ∈ s.values := by
  have targets : ∀ t ∈ s.targets, t.time ∈ s.values ∧ t.power ∈ s.values := by
    intro t ht
    have listed (x : α) (hx : x ∈ [t.time, t.power]) : x ∈ s.values :=
      List.mem_append_left _ (List.mem_append_right _ (List.mem_flatMap.mpr ⟨t, ht, hx⟩))
    exact ⟨listed _ List.mem_cons_self, listed _ (List.mem_cons_of_mem _ List.mem_cons_self)⟩
  simp only [unitSetup, List.forall_mem_cons, RegulatedUnit.Action.values, Message.values]
  refine ⟨?_, ?_, ?_, nofun, ?_, nofun⟩
  · simp [values]
  · simp [values]
  · intro v hv
    rcases List.mem_append.mp hv with time | power
    · obtain ⟨t, ht, rfl⟩ := List.mem_map.mp time
      exact (targets t ht).1
    · obtain ⟨t, ht, rfl⟩ := List.mem_map.mp power
      exact (targets t ht).2
  · simp [values]

theorem unit_eq_run {σ : Type} {s : Scenario α} {source : σ} {sim : Simulation σ α}
    (built : s.simulation source = .ok sim) : ∃ mode,
      sim.unit = (RegulatedUnit.ofGenerator (generator s.unit mode)).run s.unitSetup ∧
      sim.clock = { start := s.timing.start, step := s.timing.step, total := s.timing.steps } ∧
      sim.calls = Simulation.inOrder s.reserveCalls := by
  unfold simulation at built
  cases known : s.rampMode? with
  | error e =>
    rw [known] at built
    cases built
  | ok mode =>
    rw [known] at built
    cases built
    exact ⟨mode, rfl, rfl, rfl⟩

end

variable {K : Type} [Field K] [LinearOrder K] [IsStrictOrderedRing K]

omit [IsStrictOrderedRing K] in
/-- What the limits of a unit are in a scenario with finite numbers and no faults. -/
theorem limits_of_valid {s : Scenario (Exact K)} (finite : ∀ v ∈ s.values, isFinite v = true)
    (valid : s.faults = []) : ∃ low high up down rating : K,
      s.unit.powerMin = fin low ∧ s.unit.powerMax = fin high ∧ s.unit.rampUp = fin up ∧
      s.unit.rampDown = fin down ∧ s.regulation.rating = fin rating ∧ 0 ≤ up ∧ 0 ≤ down ∧
      0 < rating := by
  obtain ⟨up, hup⟩ := isFinite_iff.mp (finite s.unit.rampUp (by simp [values]))
  obtain ⟨down, hdown⟩ := isFinite_iff.mp (finite s.unit.rampDown (by simp [values]))
  obtain ⟨low, hlow⟩ := isFinite_iff.mp (finite s.unit.powerMin (by simp [values]))
  obtain ⟨high, hhigh⟩ := isFinite_iff.mp (finite s.unit.powerMax (by simp [values]))
  obtain ⟨rating, hrating⟩ := isFinite_iff.mp (finite s.regulation.rating (by simp [values]))
  simp only [faults, unitFaults, regulationFaults, List.append_eq_nil_iff, demand_eq_nil,
    Bool.not_eq_true', decide_eq_false_iff_not, hup, hdown, hrating, zero_eq, fin_lt, fin_le,
    not_lt, not_le] at valid
  obtain ⟨⟨⟨⟨-, limits⟩, regulation⟩, -⟩, -⟩ := valid
  exact ⟨low, high, up, down, rating, hlow, hhigh, hup, hdown, hrating, by tauto, by tauto,
    by tauto⟩

theorem generator_sound {s : Scenario (Exact K)} (finite : ∀ v ∈ s.values, isFinite v = true)
    (mode : RampMode) : (generator s.unit mode).Sound 0 := by
  obtain ⟨o, ho⟩ := isFinite_iff.mp (finite s.unit.initialOutput (by simp [values]))
  rw [generator_eq_run, ho]
  exact (Generator.idle_sound o).run
    fun a ha v hv => finite v (generatorSetup_values s mode a ha v hv)

/-- The unit of a simulation is within the limits of the scenario. -/
theorem simulation_bounded {σ : Type} {s : Scenario (Exact K)}
    (finite : ∀ v ∈ s.values, isFinite v = true) (valid : s.faults = []) {source : σ}
    {sim : Simulation σ (Exact K)} (built : s.simulation source = .ok sim) :
    ∃ low high up down : K, s.unit.powerMin = fin low ∧ s.unit.powerMax = fin high ∧
      sim.unit.Bounded low high up down ∧ ∀ c ∈ sim.calls, isFinite c.level = true := by
  obtain ⟨mode, unit, -, calls⟩ := unit_eq_run built
  obtain ⟨low, high, up, down, rating, hlow, hhigh, hup, hdown, hrating, up0, down0, rating0⟩ :=
    limits_of_valid finite valid
  have setup : ∀ a ∈ s.unitSetup, ∀ v ∈ a.values, isFinite v = true :=
    fun a ha v hv => finite v (unitSetup_values s a ha v hv)
  have keyed : ∀ a ∈ s.unitSetup, a.Keyed := by
    simp only [unitSetup, List.forall_mem_cons]
    exact ⟨⟨"rating", rfl⟩, trivial, trivial, trivial, trivial, nofun⟩
  have physical : sim.unit.physical = ⟨fin low, fin high, fin up, fin down⟩ := by
    have same : sim.unit.physical = (Scenario.generator s.unit mode).envelope := by
      rw [unit]
      rfl
    rw [same, generator_envelope, hlow, hhigh, hup, hdown, magnitude_fin, abs_of_nonneg down0]
  have base : 0 ≤ sim.unit.regulationBase := by
    have same : sim.unit.rating = fin rating := by
      rw [unit, ← hrating]
      rfl
    unfold RegulatedUnit.regulationBase
    rw [same, if_pos (isFinite_fin rating)]
    simpa using rating0.le
  refine ⟨low, high, up, down, hlow, hhigh, ⟨?_, ?_, physical, up0, down0, base⟩, ?_⟩
  · rw [unit]
    exact (RegulatedUnit.ofGenerator_sound (generator_sound finite mode)).run setup
  · rw [unit]
    exact (RegulatedUnit.ofGenerator_fitted _).run keyed
      fun a ha v hv => Ordered.defined_of_isFinite (setup a ha v hv)
  · intro c hc
    rw [calls] at hc
    have listed : c ∈ s.reserveCalls := List.mem_mergeSort.mp hc
    refine finite c.level (List.mem_append_right _ (List.mem_flatMap.mpr ⟨c, listed, ?_⟩))
    exact List.mem_cons_of_mem _ List.mem_cons_self

/-- In a scenario with finite numbers and no faults, whatever commands the unit is given, there is a
row for every step, every one of them is admissible if the output is within the power limits at the
start, and no violation is reported. -/
theorem rows_admissible {σ : Type} [CommandSource σ (Exact K)] {s : Scenario (Exact K)}
    (finite : ∀ v ∈ s.values, isFinite v = true) (valid : s.faults = []) (source : σ) :
    ∃ sim, s.simulation source = .ok sim ∧ sim.run.1.length = s.timing.steps ∧
      (s.unit.powerMin ≤ sim.unit.generator.output → sim.unit.generator.output ≤ s.unit.powerMax →
        (∀ row ∈ sim.run.1, row.Admissible s.unit.powerMin s.unit.powerMax) ∧
          (Report.ofRows sim.run.1 s.timing.step).violations = 0) := by
  obtain ⟨mode, known⟩ := rampMode?_of_faults_eq_nil valid
  obtain ⟨sim, built⟩ : ∃ sim, s.simulation source = .ok sim := by
    unfold simulation
    rw [known]
    exact ⟨_, rfl⟩
  obtain ⟨_, -, clock, -⟩ := unit_eq_run built
  have length : sim.run.1.length = s.timing.steps := by
    rw [Simulation.length_run, clock]
    exact Nat.sub_zero _
  refine ⟨sim, built, length, ?_⟩
  obtain ⟨low, high, up, down, hlow, hhigh, unit, calls⟩ := simulation_bounded finite valid built
  intro above below
  obtain ⟨o, output⟩ := isFinite_iff.mp unit.sound.inBalance.1
  rw [output, hlow, fin_le] at above
  rw [output, hhigh, fin_le] at below
  have times : ∀ tick ∈ sim.clock.remaining, isFinite tick.2 = true := by
    obtain ⟨start, hstart⟩ := isFinite_iff.mp (finite s.timing.start (by simp [values]))
    obtain ⟨step, hstep⟩ := isFinite_iff.mp (finite s.timing.step (by simp [values]))
    intro tick htick
    obtain ⟨k, -, rfl⟩ := List.mem_map.mp htick
    unfold Clock.timeAfter
    rw [clock, hstart, hstep, ofNat_eq, fin_mul, fin_add]
    exact isFinite_fin _
  have bounded : sim.Bounded low high up down := ⟨unit, calls, o, ⟨above, below⟩, output⟩
  have rows := bounded.steps times
  rw [hlow, hhigh]
  exact ⟨rows, Report.violations_ofRows fun row hrow => (rows row hrow).within⟩

/-- Commands played back from a record; a unit is not commanded beyond its end. -/
structure Recording (α : Type) where
  commands : List α

instance {α : Type} [Quantity α] : CommandSource (Recording α) α where
  command r _ := (r.commands.headD 0, ⟨r.commands.tail⟩)

/-- Half of the rating kept either way leaves the generator no power and a negative ramp limit, and
one command is undefined. -/
theorem rows_admissible_crossed :
    let s : Scenario (Exact ℚ) :=
      { timing := { (Timing.standard : Timing (Exact ℚ)) with steps := 3 }
        unit := { (UnitPlan.standard : UnitPlan (Exact ℚ)) with reserveAvailable := 10 }
        regulation := { (RegulationPlan.standard : RegulationPlan (Exact ℚ)) with
          enabled := true, upFraction := fin (1 / 2), downFraction := fin (1 / 2) }
        targets := [⟨100, 80⟩]
        reserveCalls := [{ time := 60, level := 6 }] }
    let source : Recording (Exact ℚ) := ⟨[1, -1, .nan]⟩
    ∃ sim, s.simulation source = .ok sim ∧ sim.unit.generator.envelope.rampUp < 0 ∧
      sim.run.1.length = 3 ∧ (∀ row ∈ sim.run.1, row.Admissible s.unit.powerMin s.unit.powerMax) ∧
      (Report.ofRows sim.run.1 s.timing.step).violations = 0 := by
  intro s source
  obtain ⟨sim, built, length, admissible⟩ :=
    rows_admissible (s := s) (by decide +kernel) (by decide +kernel) source
  have start : (s.simulation source).toOption.all (fun sim =>
      decide (sim.unit.generator.envelope.rampUp < 0) &&
        decide (s.unit.powerMin ≤ sim.unit.generator.output) &&
        decide (sim.unit.generator.output ≤ s.unit.powerMax)) = true := by decide +kernel
  rw [built] at start
  simp only [Except.toOption, Option.all_some, Bool.and_eq_true, decide_eq_true_iff] at start
  obtain ⟨⟨negative, above⟩, below⟩ := start
  exact ⟨sim, built, negative, length, admissible above below⟩

end Scenario

end UnitDispatch
