import UnitDispatch.Proofs.DefinedRows
import UnitDispatch.Proofs.Monotone

/-! # The command in force

A row shows a regulation command beside what the unit delivers of it. A simulation keeps that
command apart from the one its unit keeps, and takes it over from the unit whenever one is
delivered. So the two are the same from the first step on while the unit takes part in regulation. A
unit that does not take part is never commanded: its rows show the level the run was to start with,
as it was given, while the unit holds that level within its band. `Scenario.rows_commanded` says
which rows show a command that was in force.
-/

namespace UnitDispatch

open Quantity

namespace Quantity

/-- A value between the bounds is held where it is. -/
theorem Rounded.limit_beq {α : Type} [Quantity α] [Rounded α] {low high x : α} (above : low ≤ x)
    (below : x ≤ high) : (x == limit low high x) = true := by
  have defined : isNaN x = false := (Signed.defined_of_le above).2
  have itself : x ≤ x := Ordered.le_refl defined
  have cut : x ≤ lesser x high ∧ lesser x high ≤ x := by
    unfold lesser
    rw [defined, if_neg Bool.false_ne_true]
    split
    next top => exact ⟨below, top⟩
    · exact ⟨itself, itself⟩
  have defined' : isNaN (lesser x high) = false := (Signed.defined_of_le cut.1).2
  rw [Rounded.beq_iff]
  unfold limit greater
  rw [defined', if_neg Bool.false_ne_true]
  split
  next under => exact ⟨Ordered.le_trans cut.1 under, above⟩
  · exact cut

end Quantity

namespace RegulationPlan

variable {α : Type} [Quantity α]

/-- A level within the band that a plan has the unit take part with. -/
def InBand (r : RegulationPlan α) (level : α) : Prop :=
  -r.downFraction * r.rating ≤ level ∧ level ≤ r.upFraction * r.rating

instance (r : RegulationPlan α) (level : α) : Decidable (r.InBand level) :=
  inferInstanceAs (Decidable (_ ∧ _))

/-- A level held within that band. -/
def hold (r : RegulationPlan α) (level : α) : α :=
  limit (-r.downFraction * r.rating) (r.upFraction * r.rating) level

end RegulationPlan

namespace RegulatedUnit

variable {α : Type} [Quantity α] {r : RegulationPlan α} {u : RegulatedUnit α}

/-- A unit that takes part as a plan has it, with a command it can be given. -/
structure OnTerms (r : RegulationPlan α) (u : RegulatedUnit α) : Prop where
  enabled : u.enabled = r.enabled
  upFraction : u.upFraction = r.upFraction
  downFraction : u.downFraction = r.downFraction
  base : u.regulationBase = r.rating
  commanded : r.InBand u.commanded

theorem OnTerms.holdRegulation (terms : u.OnTerms r) (level : α) :
    u.holdRegulation level = r.hold level := by
  unfold RegulatedUnit.holdRegulation RegulationPlan.hold
  rw [terms.upFraction, terms.downFraction, terms.base]

theorem OnTerms.withGenerator (terms : u.OnTerms r) (g : Generator α) :
    OnTerms r { u with generator := g } :=
  ⟨terms.enabled, terms.upFraction, terms.downFraction, terms.base, terms.commanded⟩

/-- Whatever the unit is commanded, it takes as a command it can be given. -/
theorem OnTerms.regulate (terms : u.OnTerms r) (band : ∀ level, r.InBand (r.hold level))
    (level : α) : (u.regulate level).OnTerms r := by
  refine ⟨terms.enabled, terms.upFraction, terms.downFraction, terms.base, ?_⟩
  show r.InBand (u.holdRegulation level)
  rw [terms.holdRegulation]
  exact band level

/-- A level to start with is taken for a command as well. -/
theorem OnTerms.startWith (terms : u.OnTerms r) (band : ∀ level, r.InBand (r.hold level))
    (time level : α) : (u.startWith time level).OnTerms r ∧
      (u.startWith time level).commanded = r.hold level := by
  have started := terms.withGenerator (u.generator.start time)
  have held : (u.startWith time level).commanded = r.hold level := started.holdRegulation level
  refine ⟨⟨terms.enabled, terms.upFraction, terms.downFraction, terms.base, ?_⟩, held⟩
  rw [held]
  exact band level

theorem OnTerms.advance (terms : u.OnTerms r) (time : α) :
    (u.advance time).OnTerms r ∧ (u.advance time).commanded = u.commanded := by
  unfold RegulatedUnit.advance
  dsimp only
  split
  · exact ⟨⟨terms.enabled, terms.upFraction, terms.downFraction, terms.base, terms.commanded⟩, rfl⟩
  · exact ⟨terms, rfl⟩

end RegulatedUnit

namespace Simulation

variable {σ α : Type} [Quantity α] {r : RegulationPlan α} {s : Simulation σ α}

/-- A unit that takes part has a source of commands. One that does not is still at the level it
started with, and the command kept beside it at the level given for it. -/
structure Commanding (r : RegulationPlan α) (s : Simulation σ α) : Prop where
  terms : s.unit.OnTerms r
  band : ∀ level, r.InBand (r.hold level)
  source : s.source.isSome = r.enabled
  idle : r.enabled = false → s.command = r.initialLevel ∧ s.unit.commanded = r.hold r.initialLevel

theorem Commanding.deliverCalls (commanding : s.Commanding r) (time : α) :
    (s.deliverCalls time).Commanding r := by
  refine ⟨?_, commanding.band, commanding.source, ?_⟩ <;> rw [s.deliverCalls_unit time]
  · exact commanding.terms.withGenerator _
  · exact commanding.idle

variable [CommandSource σ α]

/-- A command that is delivered is the one the unit has then. -/
theorem Commanding.deliverCommand (commanding : s.Commanding r) (time : α) :
    (s.deliverCommand time).Commanding r ∧
      (r.enabled = true →
        (s.deliverCommand time).command = (s.deliverCommand time).unit.commanded) := by
  have source := commanding.source
  unfold Simulation.deliverCommand
  split
  next none =>
    rw [none] at source
    exact ⟨commanding, fun enabled => absurd (source.trans enabled) Bool.false_ne_true⟩
  next some =>
    rw [some] at source
    have enabled : r.enabled = true := source.symm
    refine ⟨⟨commanding.terms.regulate commanding.band _, commanding.band, source, ?_⟩,
      fun _ => rfl⟩
    intro disabled
    exact absurd (disabled.symm.trans enabled) Bool.false_ne_true

/-- A step records the command kept, and leaves it in force if the unit takes part. -/
theorem Commanding.step (commanding : s.Commanding r) (index : ℕ) (time : α) :
    (s.step index time).2.Commanding r ∧
      (s.step index time).1.command = (s.step index time).2.command ∧
      (r.enabled = true →
        (s.step index time).2.command = (s.step index time).2.unit.commanded) := by
  obtain ⟨delivered, same⟩ :=
    (commanding.deliverCalls s.unit.generator.now).deliverCommand s.unit.generator.now
  obtain ⟨terms, commanded⟩ := delivered.terms.advance time
  refine ⟨⟨terms, delivered.band, delivered.source, ?_⟩, rfl, ?_⟩
  · intro disabled
    exact ⟨(delivered.idle disabled).1, commanded.trans (delivered.idle disabled).2⟩
  · intro enabled
    exact (same enabled).trans commanded.symm

theorem Commanding.steps (commanding : s.Commanding r) (ticks : List (ℕ × α)) :
    (s.steps ticks).2.Commanding r :=
  steps_induction (P := fun s => s.Commanding r)
    (fun _ index time kept => (kept.step index time).1) commanding ticks

/-- A row shows the command kept, which is the one in force if the unit takes part. -/
theorem Commanding.row (commanding : s.Commanding r) {ticks : List (ℕ × α)} {k : ℕ} {row : Row α}
    (at_ : (s.steps ticks).1[k]? = some row) :
    (s.steps (ticks.take (k + 1))).2.Commanding r ∧
      row.command = (s.steps (ticks.take (k + 1))).2.command ∧
      (r.enabled = true → row.command = (s.steps (ticks.take (k + 1))).2.unit.commanded) := by
  rw [getElem?_steps] at at_
  obtain ⟨tick, ticked, rfl⟩ := Option.map_eq_some_iff.mp at_
  obtain ⟨after, shown, inForce⟩ := (commanding.steps (ticks.take k)).step tick.1 tick.2
  rw [steps_take_succ s ticked]
  exact ⟨after, shown, fun enabled => shown.trans (inForce enabled)⟩

end Simulation

namespace Scenario

variable {σ α : Type} [Quantity α] [Rounded α] {s : Scenario α}

/-- A fraction needs no clamping. -/
theorem clamp_of_fraction {x : α} (fraction : isFraction x = true) : clamp 0 1 x = x := by
  unfold isFraction at fraction
  rw [Bool.and_eq_true, decide_eq_true_iff, decide_eq_true_iff] at fraction
  unfold clamp
  rw [if_neg (Rounded.not_lt_of_le fraction.1), if_neg (Rounded.not_lt_of_le fraction.2)]

/-- The rating of a scenario is positive if it is a number. -/
theorem rating_nonneg (finite : isFinite s.regulation.rating = true) (valid : s.faults = []) :
    0 ≤ s.regulation.rating := by
  have positive : ¬ s.regulation.rating ≤ 0 := by
    simp only [faults, regulationFaults, List.append_eq_nil_iff, demand_eq_nil, Bool.not_eq_true',
      decide_eq_false_iff_not] at valid
    tauto
  exact Ordered.le_of_not_le (Ordered.defined_of_isFinite finite) Ordered.defined_zero positive

omit [Rounded α] in
theorem equipped_commanded (u : UnitPlan α) (r : RegulationPlan α) (mode : RampMode) :
    ∃ level, (equipped u r mode).commanded = (equipped u r mode).holdRegulation level := by
  unfold equipped
  generalize (RegulatedUnit.ofGenerator (generator u mode)).set .rating r.rating = v
  exact ⟨_, rfl⟩

/-- The unit of a scenario takes part as the plan has it, which leaves every level it is given
within the band. -/
theorem equipped_onTerms (finite : isFinite s.regulation.rating = true) (valid : s.faults = [])
    (mode : RampMode) : (∀ level, s.regulation.InBand (s.regulation.hold level)) ∧
      (equipped s.unit s.regulation mode).OnTerms s.regulation := by
  obtain ⟨upFraction, downFraction, -⟩ := plans_of_valid valid
  obtain ⟨-, rating, enabled, up, down, -⟩ := equipped_settings s.unit s.regulation mode
  obtain ⟨level, commanded⟩ := equipped_commanded s.unit s.regulation mode
  rw [clamp_of_fraction upFraction] at up
  rw [clamp_of_fraction downFraction] at down
  generalize equipped s.unit s.regulation mode = u at *
  have base : u.regulationBase = s.regulation.rating := by
    unfold RegulatedUnit.regulationBase
    rw [rating, if_pos finite]
  have hold (level : α) : u.holdRegulation level = s.regulation.hold level := by
    unfold RegulatedUnit.holdRegulation RegulationPlan.hold
    rw [up, down, base]
  unfold isFraction at upFraction downFraction
  rw [Bool.and_eq_true, decide_eq_true_iff, decide_eq_true_iff] at upFraction downFraction
  have band (level : α) : s.regulation.InBand (s.regulation.hold level) := by
    have held := u.holdRegulation_mem (up ▸ upFraction) (down ▸ downFraction)
      (base ▸ rating_nonneg finite valid) level
    rwa [hold, up, down, base] at held
  refine ⟨band, enabled, up, down, base, ?_⟩
  rw [commanded, hold]
  exact band level

/-- A scenario without faults whose rating is a number has a simulation that commands its unit as
the plan has it. -/
theorem simulation_commanding (finite : isFinite s.regulation.rating = true) (valid : s.faults = [])
    (source : σ) : ∃ sim, s.simulation source = .ok sim ∧ sim.Commanding s.regulation ∧
      sim.clock.remaining.length = s.timing.steps := by
  obtain ⟨mode, known⟩ := rampMode?_of_faults_eq_nil valid
  obtain ⟨band, terms⟩ := equipped_onTerms finite valid mode
  refine ⟨_, simulation_eq known source, ?_, Clock.length_remaining _⟩
  have started (g : Generator α) := (terms.withGenerator g).startWith band s.timing.start
    s.regulation.initialLevel
  have commanded : (if s.regulation.enabled then some source else none).isSome =
      s.regulation.enabled := by
    cases s.regulation.enabled <;> rfl
  rw [regulatedUnit_eq]
  refine ⟨?_, band, commanded, fun _ => ⟨rfl, ?_⟩⟩ <;> rw [ofUnit_unit_eq]
  · exact (started _).1
  · exact (started _).2

variable [CommandSource σ α]

/-- In a scenario without faults whose numbers are finite, whatever commands the unit is given: the
unit has a command within the band of the plan at every step. A row shows that command if the unit
takes part in regulation, and the level that the run was to start with if it does not. So what a row
shows lies within the band and was in force then, unless the unit does not take part and the level
to start with lies beyond the band. -/
theorem rows_commanded (finite : ∀ v ∈ s.values, isFinite v = true) (valid : s.faults = [])
    (source : σ) :
    ∃ sim, s.simulation source = .ok sim ∧ sim.run.1.length = s.timing.steps ∧
      ∀ k row, sim.run.1[k]? = some row →
        let u := (sim.steps (sim.clock.remaining.take (k + 1))).2.unit
        u.OnTerms s.regulation ∧
        (s.regulation.enabled = true → row.command = u.commanded) ∧
        (s.regulation.enabled = false → row.command = s.regulation.initialLevel) ∧
        (s.regulation.InBand row.command ∧ (row.command == u.commanded) = true ↔
          s.regulation.enabled = true ∨ s.regulation.InBand s.regulation.initialLevel) := by
  obtain ⟨sim, built, commanding, length⟩ :=
    simulation_commanding (finite _ (by simp [values])) valid source
  refine ⟨sim, built, (sim.length_steps _).trans length, ?_⟩
  intro k row at_ u
  obtain ⟨after, shown, inForce⟩ := commanding.row at_
  have terms : u.OnTerms s.regulation := after.terms
  have level (disabled : s.regulation.enabled = false) :
      row.command = s.regulation.initialLevel := shown.trans (after.idle disabled).1
  refine ⟨terms, inForce, level, ?_⟩
  constructor
  · rintro ⟨inBand, -⟩
    cases enabled : s.regulation.enabled with
    | true => exact .inl rfl
    | false => exact .inr (level enabled ▸ inBand)
  · intro seeded
    cases enabled : s.regulation.enabled with
    | true =>
      rw [inForce enabled]
      exact ⟨terms.commanded, beq_self_of_defined (Signed.defined_of_le terms.commanded.1).2⟩
    | false =>
      have inBand := seeded.resolve_left (by simp [enabled])
      have commanded : u.commanded = s.regulation.hold s.regulation.initialLevel :=
        (after.idle enabled).2
      rw [level enabled, commanded]
      exact ⟨inBand, Rounded.limit_beq inBand.1 inBand.2⟩

/-- A unit that is to start far above its band, and is given commands at its ends and one that is
undefined. -/
theorem rows_commanded_enabled :
    let r : RegulationPlan Float := { (RegulationPlan.standard : RegulationPlan Float) with
      enabled := true, upFraction := 0.1, downFraction := 0.2, initialLevel := 500 }
    let s : Scenario Float := { brief with regulation := r }
    let source : Recording Float := ⟨[0 / 0, -1]⟩
    (∀ v ∈ s.values, isFinite v = true) ∧ s.faults = [] ∧
      ∃ sim, s.simulation source = .ok sim ∧ sim.run.1.length = 2 ∧
        ∀ row ∈ sim.run.1, r.InBand row.command := by
  intro r s source
  have finite : ∀ v ∈ s.values, isFinite v = true := by decide +kernel
  have valid : s.faults = [] := by decide +kernel
  obtain ⟨sim, built, length, rows⟩ := rows_commanded finite valid source
  refine ⟨finite, valid, sim, built, length, fun row listed => ?_⟩
  obtain ⟨k, inside, rfl⟩ := List.mem_iff_getElem.mp listed
  obtain ⟨-, -, -, shown⟩ := rows k _ (List.getElem?_eq_getElem inside)
  exact (shown.mpr (.inl rfl)).1

/-- A level to start with for a unit that does not take part in regulation. -/
def seeded : Scenario Float := { brief with regulation.initialLevel := 5 }

/-- Every row shows that level, though the unit can have none. -/
theorem rows_beyond_band :
    (∀ v ∈ seeded.values, isFinite v = true) ∧ seeded.faults = [] ∧
      ∃ sim, seeded.simulation seeded.signal = .ok sim ∧ ∃ row, sim.run.1[0]? = some row ∧
        ¬ seeded.regulation.InBand row.command ∧
        (row.command == (sim.steps (sim.clock.remaining.take 1)).2.unit.commanded) = false := by
  have known : seeded.rampMode? = .ok .interpolated := rfl
  refine ⟨by decide +kernel, by decide +kernel, _, simulation_eq known seeded.signal, ?_⟩
  exact ⟨_, rfl, by decide +kernel, by decide +kernel⟩

end Scenario

end UnitDispatch
