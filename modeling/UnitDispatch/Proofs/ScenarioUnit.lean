import UnitDispatch.Proofs.SimulatedRows

/-! # The unit of a scenario

How the unit of a scenario is set up before its simulation takes the first step: a generator gets
its limits one by one, the unit takes part in regulation, the targets are handed over in order
(`Scenario.targets_sorted`), and the unit is made ready (`Scenario.simulation_eq`). Until it has its
targets, its generator is blank and at rest (`Scenario.equipped_idle`, `Scenario.equipped_resting`).
-/

namespace UnitDispatch

open Quantity

/-- The setpoint that a target asks for. -/
def Target.setpoint {α : Type} (t : Target α) : Setpoint α := ⟨t.time, t.power, false⟩

namespace Generator

variable {α : Type} [Quantity α] {g h : Generator α} {o : α}

/-- Nothing is scheduled yet, and the clock stands at zero. -/
structure Blank (g : Generator α) : Prop where
  empty : g.schedule.setpoints = []
  now : g.now = 0

theorem Blank.replan (blank : g.Blank) (schedule : h.schedule = g.schedule)
    (now : h.now = g.now) : h.replan.Blank := by
  have empty : h.schedule.setpoints = [] := by rw [schedule, blank.empty]
  rw [replan_of_ahead (by rw [empty]; nofun)]
  exact ⟨empty, now.trans blank.now⟩

/-- A blank generator that rests at the power it was set up with. -/
structure Resting (o : α) (g : Generator α) : Prop extends g.Blank where
  committed : g.committed = o
  rate : g.rate = 0

theorem Resting.replan (resting : g.Resting o) (schedule : h.schedule = g.schedule)
    (now : h.now = g.now) (committed : h.committed = g.committed) : h.replan.Resting o := by
  have empty : h.schedule.setpoints = [] := by rw [schedule, resting.empty]
  have rest : h.nextLeg.rate = 0 := by
    unfold nextLeg
    rw [Schedule.first?_eq_none_iff.mpr empty]
  refine ⟨resting.toBlank.replan schedule now, ?_, ?_⟩ <;>
    rw [replan_of_ahead (by rw [empty]; nofun)]
  · exact committed.trans resting.committed
  · exact rest

end Generator

namespace Scenario

variable {σ α : Type} [Quantity α]

/-- The unit of a scenario before it is given its targets. -/
def equipped (u : UnitPlan α) (r : RegulationPlan α) (mode : RampMode) : RegulatedUnit α :=
  ((RegulatedUnit.ofGenerator (generator u mode)).set .rating r.rating).participate r.enabled
    (some r.upFraction) (some r.downFraction)

/-- What every revision of a generator without a schedule keeps is kept by the whole setup. -/
theorem generator_induction {P : Generator α → Prop}
    (kept : ∀ g h : Generator α, P g → h.schedule = g.schedule → h.now = g.now →
      h.committed = g.committed → P h.replan)
    (u : UnitPlan α) (mode : RampMode) (idle : P (Generator.idle u.initialOutput)) :
    P (generator u mode) := by
  have set {g : Generator α} (holds : P g) (setting : GeneratorSetting) (value : α)
      (limit : setting ≠ .target) : P (g.set setting value) := by
    cases setting with
    | target => exact absurd rfl limit
    | _ => exact kept g _ holds rfl rfl rfl
  have known : P ((Generator.idle u.initialOutput).setMode mode) := kept _ _ idle rfl rfl rfl
  have up := set known .rampUp u.rampUp (by decide)
  have down := set up .rampDown u.rampDown (by decide)
  have time := set down .rampTime u.rampTime (by decide)
  have min := set time .min u.powerMin (by decide)
  have max := set min .max u.powerMax (by decide)
  have reserveTime := set max .reserveRampTime u.reserveRampTime (by decide)
  exact set reserveTime .reserve u.reserveAvailable (by decide)

theorem generator_blank (u : UnitPlan α) (mode : RampMode) : (generator u mode).Blank :=
  generator_induction (fun _ _ blank schedule now _ => blank.replan schedule now) u mode ⟨rfl, rfl⟩

theorem generator_mode (u : UnitPlan α) (mode : RampMode) :
    (generator u mode).mode = mode ∧ (generator u mode).rampTime = u.rampTime := by
  simp only [generator, Generator.set, Generator.assign, Generator.setMode,
    (Generator.replan_samePlant _).mode, (Generator.replan_samePlant _).rampTime, and_self]

/-- A unit made ready to regulate changes the envelope of its generator, twice. -/
theorem equip_generator (g : Generator α) (rating : α) (active : Bool) (up down : α) :
    ∃ e e' : Envelope α, (((RegulatedUnit.ofGenerator g).set .rating rating).participate active
        (some up) (some down)).generator =
      Generator.replan { Generator.replan { g with envelope := e } with envelope := e' } :=
  ⟨_, _, rfl⟩

theorem equipped_idle (u : UnitPlan α) (r : RegulationPlan α) (mode : RampMode) :
    (equipped u r mode).generator.Blank ∧ (equipped u r mode).generator.mode = mode ∧
      (equipped u r mode).generator.rampTime = u.rampTime := by
  have blank := generator_blank u mode
  have known := generator_mode u mode
  unfold equipped
  generalize generator u mode = g at blank known ⊢
  obtain ⟨e, e', eq⟩ := equip_generator g r.rating r.enabled r.upFraction r.downFraction
  let h : Generator α := { g with envelope := e }
  have first := Generator.replan_samePlant h
  have second := Generator.replan_samePlant { h.replan with envelope := e' }
  have blank' : h.replan.Blank := blank.replan rfl rfl
  rw [eq]
  exact ⟨blank'.replan rfl rfl, second.mode.trans (first.mode.trans known.1),
    second.rampTime.trans (first.rampTime.trans known.2)⟩

theorem equipped_resting (u : UnitPlan α) (r : RegulationPlan α) (mode : RampMode) :
    (equipped u r mode).generator.Resting u.initialOutput := by
  have resting : (generator u mode).Resting u.initialOutput :=
    generator_induction (fun _ _ resting => resting.replan) u mode ⟨⟨rfl, rfl⟩, rfl, rfl⟩
  unfold equipped
  generalize generator u mode = g at resting ⊢
  obtain ⟨e, e', eq⟩ := equip_generator g r.rating r.enabled r.upFraction r.downFraction
  have first : (Generator.replan { g with envelope := e }).Resting u.initialOutput :=
    resting.replan rfl rfl rfl
  rw [eq]
  exact first.replan rfl rfl rfl

theorem equipped_envelope (u : UnitPlan α) (r : RegulationPlan α) (mode : RampMode) :
    (equipped u r mode).generator.envelope = (equipped u r mode).dispatchEnvelope := by
  unfold equipped
  generalize (RegulatedUnit.ofGenerator (generator u mode)).set .rating r.rating = v
  exact RegulatedUnit.applyEnvelope_envelope _

/-- Targets in order are times in order. -/
theorem pairwise_of_ordered [Ordered α] {targets : List (Target α)}
    (ordered : isDisordered targets = false) (defined : ∀ t ∈ targets, isNaN t.time = false) :
    targets.Pairwise fun t u => t.time ≤ u.time := by
  induction targets with
  | nil => exact .nil
  | cons t rest ih =>
    cases rest with
    | nil => exact List.pairwise_singleton _ _
    | cons u rest =>
      simp only [isDisordered, Bool.or_eq_false_iff, decide_eq_false_iff_not] at ordered
      have sorted := ih ordered.2 fun v hv => defined v (List.mem_cons_of_mem _ hv)
      have next : t.time ≤ u.time := Ordered.le_of_not_lt
        (defined u (by simp)) (defined t (by simp)) ordered.1
      refine List.pairwise_cons.mpr ⟨fun v hv => ?_, sorted⟩
      rcases List.mem_cons.mp hv with rfl | later
      · exact next
      · exact Ordered.le_trans next ((List.pairwise_cons.mp sorted).1 v later)

/-- The targets of a scenario without faults have finite times and powers. -/
theorem targets_isFinite {s : Scenario α} (valid : s.faults = []) :
    ∀ t ∈ s.targets, isFinite t.time = true ∧ isFinite t.power = true := by
  simp only [faults, targetFaults, List.append_eq_nil_iff, demand_eq_nil, List.flatMap_eq_nil_iff,
    Bool.and_eq_true] at valid
  obtain ⟨⟨-, finite, -⟩, -⟩ := valid
  intro t ht
  obtain ⟨i, at_, rfl⟩ := List.mem_iff_getElem.mp ht
  exact finite (s.targets[i], i) (List.mem_zipIdx_iff_getElem?.mpr (by simp [at_]))

/-- The targets of a scenario without faults are in order. -/
theorem targets_sorted [Ordered α] {s : Scenario α} (valid : s.faults = []) :
    s.targets.Pairwise fun t u => t.time ≤ u.time := by
  have finite := targets_isFinite valid
  simp only [faults, targetFaults, List.append_eq_nil_iff, demand_eq_nil, Bool.not_eq_true']
    at valid
  obtain ⟨⟨-, -, ordered⟩, -⟩ := valid
  exact pairwise_of_ordered ordered fun t ht => Ordered.defined_of_isFinite (finite t ht).1

/-- The fractions of a scenario without faults are fractions, and its times for ramps and for the
reserve are times. -/
theorem plans_of_valid {s : Scenario α} (valid : s.faults = []) :
    isFraction s.regulation.upFraction = true ∧ isFraction s.regulation.downFraction = true ∧
      ¬ s.unit.rampTime < 0 ∧ ¬ s.unit.reserveAvailable < 0 ∧ ¬ s.unit.reserveRampTime ≤ 0 := by
  simp only [faults, unitFaults, regulationFaults, List.append_eq_nil_iff, demand_eq_nil,
    Bool.not_eq_true', decide_eq_false_iff_not] at valid
  tauto

theorem target_isFinite {s : Scenario α} (finite : ∀ v ∈ s.values, isFinite v = true)
    {t : Target α} (ht : t ∈ s.targets) : isFinite t.time = true ∧ isFinite t.power = true := by
  have listed (x : α) (hx : x ∈ [t.time, t.power]) : x ∈ s.values :=
    List.mem_append_left _ (List.mem_append_right _ (List.mem_flatMap.mpr ⟨t, ht, hx⟩))
  exact ⟨finite _ (listed _ List.mem_cons_self),
    finite _ (listed _ (List.mem_cons_of_mem _ List.mem_cons_self))⟩

theorem regulatedUnit_eq (s : Scenario α) (mode : RampMode) :
    s.regulatedUnit mode =
      { equipped s.unit s.regulation mode with
        generator := (equipped s.unit s.regulation mode).generator.addAll (s.targets.map (·.time))
          (s.targets.map (·.power)) } := rfl

/-- The simulation of a scenario whose mode is known. -/
theorem simulation_eq {s : Scenario α} {mode : RampMode} (known : s.rampMode? = .ok mode)
    (source : σ) : s.simulation source = .ok (Simulation.ofUnit unitNumber (s.regulatedUnit mode)
      { start := s.timing.start, step := s.timing.step, total := s.timing.steps }
      (if s.regulation.enabled then some source else none) s.reserveCalls
      s.regulation.initialLevel) := by
  unfold simulation
  rw [known]
  rfl

end Scenario

end UnitDispatch
