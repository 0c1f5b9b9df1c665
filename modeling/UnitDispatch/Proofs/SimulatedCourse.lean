import UnitDispatch.Proofs.Headroom
import UnitDispatch.Proofs.Isolation
import UnitDispatch.Proofs.ScenarioUnit

/-! # Simulations on course

The ramp limits of a scenario are enough when they cover what regulation and reserve may take of
them (`Scenario.RampsLeft`). Then no limit of the generator ever gets negative, whatever is called
of the reserve and whatever the unit is commanded, and the generator of the simulation is on course
after every step: see `Scenario.simulation_steps`. What legs and revisions keep of a generator
(`Generator.Lasting`) holds on along the way.
-/

namespace UnitDispatch

open Quantity Exact

/-! ## Generators with enough of a ramp limit -/

namespace Generator

variable {K : Type} [Field K] [LinearOrder K] {g h : Generator (Exact K)} {n l c ρ t : K}

/-- No limit is negative, not even when all of the reserve is still to come. -/
structure Ample (g : Generator (Exact K)) : Prop where
  rampDown : 0 ≤ g.envelope.rampDown
  rampTime : 0 ≤ g.rampTime
  spare : ∃ up available time, g.envelope.rampUp = fin up ∧ g.reserve.available = fin available ∧
    g.reserve.rampTime = fin time ∧ 0 < time ∧ available / time ≤ up

theorem Ample.congr (ample : g.Ample) (envelope : h.envelope = g.envelope)
    (rampTime : h.rampTime = g.rampTime) (available : h.reserve.available = g.reserve.available)
    (reserveTime : h.reserve.rampTime = g.reserve.rampTime) : h.Ample := by
  refine ⟨?_, ?_, ?_⟩
  · rw [envelope]
    exact ample.rampDown
  · rw [rampTime]
    exact ample.rampTime
  · rw [envelope, available, reserveTime]
    exact ample.spare

theorem Ample.of_same (ample : g.Ample) (same : SameSettings g h) : h.Ample :=
  ample.congr same.envelope same.rampTime same.available same.reserveRampTime

/-- What may be called for is never more than what there is room for. -/
theorem Ample.limitsNonneg [IsStrictOrderedRing K] (ample : g.Ample) (called : g.reserve.Called) :
    g.LimitsNonneg := by
  obtain ⟨u, a, r, up, available, time, positive, room⟩ := ample.spare
  obtain ⟨q, requested⟩ := isFinite_iff.mp
    (called.isFinite_requested (available ▸ isFinite_fin a))
  have nonneg := called.nonneg
  have most := called.le_available
  rw [requested, zero_eq, fin_le] at nonneg
  rw [requested, available, fin_le] at most
  have whole : 0 ≤ u := (div_nonneg (nonneg.trans most) positive.le).trans room
  refine ⟨?_, ample.rampDown, ?_, ample.rampTime⟩
  · rw [up, zero_eq, fin_le]
    exact whole
  · unfold Generator.rampLimitUp
    dsimp only
    rw [up]
    split
    · rw [zero_eq, fin_le]
      exact whole
    · have share : (a - q) / r ≤ a / r :=
        div_le_div_of_nonneg_right (sub_le_self a nonneg) positive.le
      rw [available, requested, time, fin_sub, fin_div _ positive.ne', fin_sub, zero_eq, fin_le,
        sub_nonneg]
      exact share.trans room

/-- The output does not matter for the course. -/
theorem OnCourse.withOutput (course : g.OnCourse n l c ρ) (output slope : Exact K) :
    (g.withOutput output slope).OnCourse n l c ρ where
  sorted := course.sorted
  times := course.times
  stands := ⟨course.stands.now, course.stands.last, course.stands.committed, course.stands.rate⟩
  last := course.last
  called := course.called
  ahead := course.ahead
  rated := ⟨course.rated.down, course.rated.up⟩
  heading := by
    cases course.heading with
    | rest empty rate review => exact .rest empty rate review
    | leg underway =>
      exact .leg ⟨underway.review, underway.before, underway.nonempty, underway.first,
        underway.held, underway.short⟩

/-- What moves along a leg, revisions, calls on the reserve and another output keep. -/
structure Lasting (P : Generator (Exact K) → Prop) : Prop where
  call : ∀ {g} level, P g → P { g with reserve := g.reserve.call level }
  withOutput : ∀ {g} output slope, P g → P (g.withOutput output slope)
  move : ∀ {g n l c ρ s}, OnCourse g n l c ρ → P g → n < s → fin s ≤ g.review →
    P (g.moveTo (fin s))
  replan : ∀ {g n l c ρ}, Ready g n l c ρ → g.Workable → P g → P g.replan

theorem Lasting.keptByLegs {P : Generator (Exact K) → Prop} (lasting : Lasting P)
    (g : Generator (Exact K)) (t : K) : KeptByLegs g t P where
  move := fun _ course _ holds ahead short _ => lasting.move course holds ahead short
  replan := fun _ ready workable _ holds => lasting.replan ready workable holds

end Generator

/-! ## Units -/

namespace RegulatedUnit

variable {K : Type} [Field K] [LinearOrder K] [IsStrictOrderedRing K]

/-- A unit within its limits, with a generator on course at `n` that has enough of a ramp limit and
a property. -/
structure Coursing (P : Generator (Exact K) → Prop) (n : K) (u : RegulatedUnit (Exact K)) :
    Prop where
  bounded : ∃ low high up down, u.Bounded low high up down
  ample : u.generator.Ample
  course : ∃ l c ρ, u.generator.OnCourse n l c ρ
  holds : P u.generator

variable {P : Generator (Exact K) → Prop} {u : RegulatedUnit (Exact K)} {n t : K}

theorem Coursing.workable (coursing : u.Coursing P n) : u.generator.Workable := by
  obtain ⟨_, _, _, _, bounded⟩ := coursing.bounded
  obtain ⟨_, -, sound⟩ := bounded.sound.generator
  obtain ⟨_, _, _, course⟩ := coursing.course
  exact sound.workable (coursing.ample.limitsNonneg course.called)

theorem Coursing.callReserve (coursing : u.Coursing P n) (lasting : Generator.Lasting P)
    {level : Exact K} (finite : isFinite level = true) :
    Coursing P n { u with generator := u.generator.callReserve level } := by
  obtain ⟨low, high, up, down, bounded⟩ := coursing.bounded
  obtain ⟨l, c, ρ, course⟩ := coursing.course
  let h := { u.generator with reserve := u.generator.reserve.call level }
  have change : u.generator.configure (.callReserve level) = some h := rfl
  have orderly := course.toOrderly.configure change
  have room : h.Ample := coursing.ample.congr rfl rfl rfl rfl
  have workable : h.Workable := ⟨room.limitsNonneg orderly.called, coursing.workable.targets⟩
  obtain ⟨⟨v, still⟩, -⟩ := course.configure change (workable.replan orderly.regular)
  exact ⟨⟨low, high, up, down, (bounded.callReserve finite).1⟩,
    room.of_same (Generator.replan_sameSettings h), ⟨l, c, v, still⟩,
    lasting.replan ⟨orderly, .inl course.ahead⟩ workable (lasting.call level coursing.holds)⟩

theorem Coursing.regulate (coursing : u.Coursing P n) (level : Exact K) :
    (u.regulate level).Coursing P n := by
  obtain ⟨low, high, up, down, bounded⟩ := coursing.bounded
  exact ⟨⟨low, high, up, down, bounded.regulate level⟩, coursing.ample, coursing.course,
    coursing.holds⟩

/-- The generator advances, and gets an output of its own. -/
theorem advance_generator {α : Type} [Quantity α] (u : RegulatedUnit α) {time : α}
    (ahead : 0 < time - u.generator.now) : ∃ output slope,
      (u.advance time).generator = (u.generator.advance time).withOutput output slope := by
  unfold RegulatedUnit.advance
  dsimp only
  rw [if_pos ahead]
  exact ⟨_, _, rfl⟩

theorem Coursing.advance (coursing : u.Coursing P n) (lasting : Generator.Lasting P)
    (ahead : n < t) : (u.advance (fin t)).Coursing P t := by
  obtain ⟨low, high, up, down, bounded⟩ := coursing.bounded
  obtain ⟨l, c, ρ, course⟩ := coursing.course
  obtain ⟨l', c', v, arrived, holds⟩ :=
    course.advance coursing.workable (lasting.keptByLegs u.generator t) coursing.holds
  have time : 0 < fin t - u.generator.now := by
    rw [course.stands.now, fin_sub, zero_eq, fin_lt]
    exact sub_pos.mpr ahead
  obtain ⟨output, slope, generator⟩ := u.advance_generator time
  rw [max_eq_right ahead.le] at arrived
  refine ⟨⟨low, high, up, down, bounded.after_advance t⟩, ?_, ?_, ?_⟩ <;> rw [generator]
  · exact (coursing.ample.of_same (Generator.advance_sameSettings _ _)).congr rfl rfl rfl rfl
  · exact ⟨l', c', v, arrived.withOutput output slope⟩
  · exact lasting.withOutput output slope holds

end RegulatedUnit

/-! ## Simulations -/

namespace Simulation

variable {σ K : Type} [Field K] [LinearOrder K] [IsStrictOrderedRing K]
  {P : Generator (Exact K) → Prop} {s : Simulation σ (Exact K)} {n t : K}

/-- A simulation of a unit on course, the levels still to be called for being numbers. -/
structure Coursing (P : Generator (Exact K) → Prop) (n : K) (s : Simulation σ (Exact K)) :
    Prop where
  unit : s.unit.Coursing P n
  calls : ∀ c ∈ s.calls, isFinite c.level = true

theorem Coursing.deliverCalls (coursing : s.Coursing P n) (lasting : Generator.Lasting P)
    (time : Exact K) : (s.deliverCalls time).Coursing P n := by
  refine ⟨?_, fun c hc => coursing.calls c (List.dropWhile_subset _ hc)⟩
  exact deliverCalls_induction (P := fun u => u.Coursing P n)
    (fun u unit c hc => unit.callReserve lasting (coursing.calls c hc)) coursing.unit time

variable [CommandSource σ (Exact K)]

theorem Coursing.deliverCommand (coursing : s.Coursing P n) (time : Exact K) :
    (s.deliverCommand time).Coursing P n := by
  unfold Simulation.deliverCommand
  split
  · exact coursing
  · exact ⟨coursing.unit.regulate _, coursing.calls⟩

/-- A row that counts the setpoints counted from one unit on course to another. -/
def Counts (P : Generator (Exact K) → Prop) (n t : K) (row : Row (Exact K)) : Prop :=
  ∃ u v : RegulatedUnit (Exact K), u.Coursing P n ∧ v.Coursing P t ∧
    row.consumed = v.generator.consumed - u.generator.consumed

theorem Coursing.step (coursing : s.Coursing P n) (lasting : Generator.Lasting P) (index : Nat)
    (ahead : n < t) :
    Counts P n t (s.step index (fin t)).1 ∧ (s.step index (fin t)).2.Coursing P t := by
  have ready := (coursing.deliverCalls lasting s.unit.generator.now).deliverCommand
    s.unit.generator.now
  have advanced := ready.unit.advance lasting ahead
  exact ⟨⟨_, _, ready.unit, advanced, rfl⟩, advanced, ready.calls⟩

/-- Equal steps from `start` on take a unit on course through their ends, each with a row. -/
theorem Coursing.steps {start step : K} {k : Nat} (coursing : s.Coursing P (start + k * step))
    (lasting : Generator.Lasting P) (positive : 0 < step) (m : Nat) {ticks : List (Nat × Exact K)}
    (equal : ticks = (List.range' k m).map fun i => (i, fin (start + (i + 1 : Nat) * step))) :
    List.Forall₂ (fun i : Nat => Counts P (start + i * step) (start + (i + 1 : Nat) * step))
        (List.range' k m) (s.steps ticks).1 ∧
      (s.steps ticks).2.Coursing P (start + (k + m : Nat) * step) := by
  subst equal
  induction m generalizing s k with
  | zero => exact ⟨.nil, coursing⟩
  | succ m ih =>
    have later : start + k * step < start + (k + 1 : Nat) * step := by
      push_cast
      linarith
    obtain ⟨row, next⟩ := coursing.step lasting k later
    obtain ⟨rows, last⟩ := ih next
    rw [List.range'_succ, List.map_cons, steps_cons]
    refine ⟨.cons row rows, ?_⟩
    rwa [Nat.add_right_comm] at last

end Simulation

/-! ## Scenarios -/

namespace Generator

variable {K : Type} [Field K] [LinearOrder K] [IsStrictOrderedRing K] {g : Generator (Exact K)}
  {n l c ρ : K}

omit [IsStrictOrderedRing K] in
/-- With nothing scheduled, a generator rests in whatever envelope it is given. -/
theorem Orderly.refit (orderly : g.Orderly n l c ρ) (empty : g.schedule.setpoints = [])
    (envelope : Envelope (Exact K)) :
    (Generator.replan { g with envelope }).Orderly n l c 0 := by
  have ahead : ∀ p ∈ ({ g with envelope } : Generator (Exact K)).schedule.setpoints,
      g.now < p.time := by
    dsimp only
    rw [empty]
    nofun
  rw [replan_of_ahead ahead]
  unfold Generator.planNext
  rw [nextLeg_idle (g := { g with envelope }) empty, zero_eq]
  exact ⟨orderly.sorted, orderly.times, ⟨orderly.stands.now, orderly.stands.last,
    orderly.stands.committed, rfl⟩, orderly.last, orderly.called⟩

end Generator

/-- The time after so many steps. -/
def Timing.after {α : Type} [Quantity α] (t : Timing α) (steps : Nat) : α :=
  t.start + Quantity.ofNat steps * t.step

namespace Scenario

section

variable {α : Type} [Quantity α]

/-- What regulation takes of a ramp limit for a fraction of the rating. -/
def withheld (s : Scenario α) (fraction : α) : α :=
  if s.regulation.enabled then fraction * s.regulation.rating / Envelope.regulationWindow else 0

/-- The ramp limits cover what regulation takes of them and, upward, what the reserve may take. -/
structure RampsLeft (s : Scenario α) : Prop where
  up : 0 ≤ s.unit.rampUp - s.withheld s.regulation.upFraction -
    s.unit.reserveAvailable / s.unit.reserveRampTime
  down : 0 ≤ s.unit.rampDown - s.withheld s.regulation.downFraction

instance (s : Scenario α) : Decidable s.RampsLeft :=
  decidable_of_iff (0 ≤ s.unit.rampUp - s.withheld s.regulation.upFraction -
      s.unit.reserveAvailable / s.unit.reserveRampTime ∧
        0 ≤ s.unit.rampDown - s.withheld s.regulation.downFraction)
    ⟨fun ⟨up, down⟩ => ⟨up, down⟩, fun ⟨up, down⟩ => ⟨up, down⟩⟩

/-- The generator of a scenario with its targets and its dispatcher, not ready to advance yet. -/
def supplied (s : Scenario α) (mode : RampMode) : Generator α :=
  { (equipped s.unit s.regulation mode).generator.addAll (s.targets.map (·.time))
      (s.targets.map (·.power)) with dispatcher := some Simulation.dispatcherNumber }

theorem generator_reserve (u : UnitPlan α) (mode : RampMode) :
    (generator u mode).reserve =
      { Reserve.hold Reserve.empty u.reserveAvailable with rampTime := u.reserveRampTime } := by
  simp only [generator, Generator.set, Generator.assign, Generator.setMode,
    (Generator.replan_samePlant _).reserve]
  rfl

/-- What the unit of a scenario takes over from its generator and from its part in regulation. -/
theorem equipped_settings (u : UnitPlan α) (r : RegulationPlan α) (mode : RampMode) :
    (equipped u r mode).physical = (generator u mode).envelope ∧
      (equipped u r mode).rating = r.rating ∧ (equipped u r mode).enabled = r.enabled ∧
      (equipped u r mode).upFraction = clamp 0 1 r.upFraction ∧
      (equipped u r mode).downFraction = clamp 0 1 r.downFraction ∧
      (equipped u r mode).generator.reserve = (generator u mode).reserve := by
  unfold equipped
  generalize generator u mode = g
  refine ⟨rfl, rfl, rfl, rfl, rfl, ?_⟩
  obtain ⟨e, e', eq⟩ := equip_generator g r.rating r.enabled r.upFraction r.downFraction
  rw [eq, (Generator.replan_samePlant _).reserve]
  exact (Generator.replan_samePlant { g with envelope := e }).reserve

/-- The generator of a unit that takes part has the envelope that is left to it. -/
theorem equipped_fitted [Signed α] (u : UnitPlan α) {r : RegulationPlan α} (mode : RampMode)
    (rating : isNaN r.rating = false) (up : isNaN r.upFraction = false)
    (down : isNaN r.downFraction = false) : (equipped u r mode).Fitted := by
  have fitted := RegulatedUnit.ofGenerator_fitted (generator u mode)
  unfold equipped
  generalize generator u mode = g at fitted ⊢
  have rated := fitted.act (a := .set .rating r.rating) ⟨"rating", rfl⟩ (by
    intro v hv
    rwa [List.mem_singleton.mp hv])
  refine rated.act (a := .participate r.enabled (some r.upFraction) (some r.downFraction))
    trivial ?_
  intro v hv
  rcases List.mem_pair.mp hv with rfl | rfl
  · exact up
  · exact down

end

variable {K : Type} [Field K] [LinearOrder K] [IsStrictOrderedRing K] {s : Scenario (Exact K)}

omit [IsStrictOrderedRing K] in
theorem clamp_fraction {x : Exact K} (fraction : isFraction x = true) : clamp 0 1 x = x := by
  simp only [isFraction, Bool.and_eq_true, decide_eq_true_iff] at fraction
  unfold clamp
  rw [if_neg fun below => not_le_of_lt below fraction.1,
    if_neg fun above => not_le_of_lt above fraction.2]

omit [IsStrictOrderedRing K] in
/-- The ends of the steps, in numbers. -/
theorem after_of_valid (finite : ∀ v ∈ s.values, isFinite v = true) (valid : s.faults = []) :
    ∃ start step : K, s.timing.start = fin start ∧ 0 < step ∧
      ∀ k, s.timing.after k = fin (start + k * step) := by
  obtain ⟨start, begins⟩ := isFinite_iff.mp (finite s.timing.start (by simp [values]))
  obtain ⟨step, lasts⟩ := isFinite_iff.mp (finite s.timing.step (by simp [values]))
  simp only [faults, timingFaults, List.append_eq_nil_iff, demand_eq_nil, Bool.and_eq_true,
    decide_eq_true_iff, lasts, zero_eq, fin_lt] at valid
  refine ⟨start, step, begins, by tauto, fun k => ?_⟩
  unfold Timing.after
  rw [begins, lasts, ofNat_eq, fin_mul, fin_add]

/-- The unit of a scenario has the ramp limits that regulation leaves it. -/
theorem equipped_ramps (finite : ∀ v ∈ s.values, isFinite v = true) (valid : s.faults = [])
    (mode : RampMode) :
    (equipped s.unit s.regulation mode).generator.envelope.rampUp =
        s.unit.rampUp - s.withheld s.regulation.upFraction ∧
      (equipped s.unit s.regulation mode).generator.envelope.rampDown =
        s.unit.rampDown - s.withheld s.regulation.downFraction := by
  obtain ⟨_, _, up, down, rating, -, -, hup, hdown, hrating, -, down0, -⟩ :=
    limits_of_valid finite valid
  obtain ⟨upFraction, downFraction, -⟩ := plans_of_valid valid
  have defined {v : Exact K} (hv : v ∈ s.values) : isNaN v = false :=
    Ordered.defined_of_isFinite (finite v hv)
  have fitted := equipped_fitted s.unit (r := s.regulation) mode (defined (by simp [values]))
    (defined (by simp [values])) (defined (by simp [values]))
  obtain ⟨physical, base, enabled, hupFraction, hdownFraction, -⟩ :=
    equipped_settings s.unit s.regulation mode
  rw [generator_envelope] at physical
  rw [fitted.envelope]
  unfold RegulatedUnit.dispatchEnvelope withheld RegulatedUnit.regulationBase
  rw [physical, base, enabled, hupFraction, hdownFraction, clamp_fraction upFraction,
    clamp_fraction downFraction, hrating, if_pos (isFinite_fin rating), hdown, magnitude_fin,
    abs_of_nonneg down0]
  split
  · exact ⟨rfl, rfl⟩
  · rw [hup, zero_eq, fin_sub, fin_sub, sub_zero, sub_zero]
    exact ⟨rfl, rfl⟩

/-- Ramp limits that cover everything leave the generator enough. -/
theorem equipped_ample (finite : ∀ v ∈ s.values, isFinite v = true) (valid : s.faults = [])
    (ramps : s.RampsLeft) (mode : RampMode) :
    (equipped s.unit s.regulation mode).generator.Ample := by
  obtain ⟨up, hup⟩ := isFinite_iff.mp (finite s.unit.rampUp (by simp [values]))
  obtain ⟨m, hm⟩ := isFinite_iff.mp (finite s.unit.rampTime (by simp [values]))
  obtain ⟨a, ha⟩ := isFinite_iff.mp (finite s.unit.reserveAvailable (by simp [values]))
  obtain ⟨r, hr⟩ := isFinite_iff.mp (finite s.unit.reserveRampTime (by simp [values]))
  obtain ⟨f, hf⟩ := isFinite_iff.mp (finite s.regulation.upFraction (by simp [values]))
  obtain ⟨b, hb⟩ := isFinite_iff.mp (finite s.regulation.rating (by simp [values]))
  obtain ⟨-, -, time, available, reserveTime⟩ := plans_of_valid valid
  rw [hm, zero_eq, fin_lt, not_lt] at time
  rw [ha, zero_eq, fin_lt, not_lt] at available
  rw [hr, zero_eq, fin_le, not_le] at reserveTime
  obtain ⟨w, hw⟩ : ∃ w, s.withheld s.regulation.upFraction = fin w := by
    unfold withheld
    split
    · rw [hf, hb, RegulatedUnit.window_eq, fin_mul]
      exact ⟨_, fin_div _ (by norm_num)⟩
    · exact ⟨0, zero_eq⟩
  obtain ⟨rampUp, rampDown⟩ := equipped_ramps finite valid mode
  obtain ⟨-, -, -, -, -, reserve⟩ := equipped_settings s.unit s.regulation mode
  obtain ⟨-, -, rampTime⟩ := equipped_idle s.unit s.regulation mode
  have room := ramps.up
  rw [hup, hw, ha, hr, fin_div _ reserveTime.ne', fin_sub, fin_sub, zero_eq, fin_le,
    sub_nonneg] at room
  rw [generator_reserve, ha, hr] at reserve
  refine ⟨?_, ?_, up - w, a, r, ?_, ?_, ?_, reserveTime, room⟩
  · rw [rampDown]
    exact ramps.down
  · rw [rampTime, hm, zero_eq, fin_le]
    exact time
  · rw [rampUp, hup, hw, fin_sub]
  · rw [reserve]
    show greater (fin a) 0 = fin a
    rw [zero_eq, greater_fin, max_eq_left available]
  · rw [reserve]

/-- Before it has its targets, the generator of a scenario rests. -/
theorem equipped_onCourse (finite : ∀ v ∈ s.values, isFinite v = true) (valid : s.faults = [])
    (ramps : s.RampsLeft) (mode : RampMode) :
    ∃ l c ρ, (equipped s.unit s.regulation mode).generator.OnCourse 0 l c ρ := by
  have ample := equipped_ample finite valid ramps mode
  have blank := generator_blank s.unit mode
  obtain ⟨n, l, c, ρ, orderly⟩ : ∃ n l c ρ, (generator s.unit mode).Orderly n l c ρ := by
    obtain ⟨o, ho⟩ := isFinite_iff.mp (finite s.unit.initialOutput (by simp [values]))
    rw [generator_eq_run, ho]
    refine ((Generator.idle_historic o).run fun a ha => .of_finite fun v hv => ?_).orderly
    exact finite v (generatorSetup_values s mode a ha v hv)
  unfold equipped at ample ⊢
  generalize generator s.unit mode = g at ample blank orderly ⊢
  obtain ⟨e, e', eq⟩ := equip_generator g s.regulation.rating s.regulation.enabled
    s.regulation.upFraction s.regulation.downFraction
  rw [eq] at ample ⊢
  let h := Generator.replan { g with envelope := e }
  have rests : h.Blank := blank.replan rfl rfl
  have first := orderly.refit blank.empty e
  have ahead : ∀ p ∈ h.schedule.setpoints, h.now < p.time := by
    intro p hp
    rw [rests.empty] at hp
    exact (List.not_mem_nil hp).elim
  have second : Generator.Orderly { h with envelope := e' } n l c 0 :=
    ⟨first.sorted, first.times, ⟨first.stands.now, first.stands.last, first.stands.committed,
      first.stands.rate⟩, first.last, first.called⟩
  have room := ample.of_same (Generator.replan_sameSettings { h with envelope := e' }).symm
  have workable : Generator.Workable { h with envelope := e' } := by
    refine ⟨room.limitsNonneg second.called, fun p hp => ?_⟩
    change p ∈ h.schedule.setpoints at hp
    rw [rests.empty] at hp
    exact (List.not_mem_nil hp).elim
  obtain rfl : n = 0 := fin.inj (orderly.stands.now.symm.trans (blank.now.trans zero_eq))
  rw [Generator.replan_of_ahead (g := { h with envelope := e' }) ahead]
  obtain ⟨v, course⟩ := second.planNext workable ahead
  exact ⟨l, c, v, course⟩

theorem equipped_sound (finite : ∀ v ∈ s.values, isFinite v = true) (mode : RampMode) :
    (equipped s.unit s.regulation mode).Sound := by
  have sound := RegulatedUnit.ofGenerator_sound (generator_sound finite mode)
  have defined {v : Exact K} (hv : v ∈ s.values) : ∀ x ∈ some v, isNaN x = false := by
    intro x hx
    rw [← Option.mem_some_iff.mp hx]
    exact Ordered.defined_of_isFinite (finite v hv)
  have rated := sound.set
    (UnitSetting.takes_of_isFinite (finite s.regulation.rating (by simp [values])) .rating)
  exact rated.participate s.regulation.enabled (defined (by simp [values]))
    (defined (by simp [values]))

/-- With its targets, the generator of a scenario is on course. -/
theorem supplied_going (finite : ∀ v ∈ s.values, isFinite v = true) (valid : s.faults = [])
    (ramps : s.RampsLeft) (mode : RampMode) :
    Generator.Going (equipped s.unit s.regulation mode).generator (fun _ => True)
      (s.supplied mode) := by
  have ample := equipped_ample finite valid ramps mode
  obtain ⟨l, c, ρ, course⟩ := equipped_onCourse finite valid ramps mode
  obtain ⟨blank, -⟩ := equipped_idle s.unit s.regulation mode
  obtain ⟨_, -, sound⟩ := (equipped_sound finite mode).generator
  unfold supplied
  generalize (equipped s.unit s.regulation mode).generator = g at *
  have nothing := Generator.keptByPlans_true g
  have workable : g.Workable := by
    refine ⟨ample.limitsNonneg course.called, ?_⟩
    rw [blank.empty]
    nofun
  have going : Generator.Going g (fun _ => True) g :=
    ⟨⟨0, l, c, ρ, course⟩, workable, .refl g, trivial⟩
  have queued : Generator.Going g (fun _ => True)
      (g.addAll (s.targets.map (·.time)) (s.targets.map (·.power))) := by
    refine going.addAll nothing fun p hp => ?_
    obtain ⟨time, power⟩ := List.of_mem_zip hp
    obtain ⟨t, ht, htime⟩ := List.mem_map.mp time
    obtain ⟨u, hu, hpower⟩ := List.mem_map.mp power
    rw [← htime, ← hpower]
    exact ⟨(target_isFinite finite ht).1, sound.numeric.holdTarget (target_isFinite finite hu).2⟩
  exact queued.congr nothing ⟨rfl, rfl, rfl, rfl, rfl, rfl⟩ ⟨rfl, rfl, rfl, rfl, rfl, rfl, rfl, rfl⟩

/-- The unit of a simulation has its dispatcher and is made ready. -/
theorem ofUnit_unit_eq {σ α : Type} [Quantity α] (number : Nat) (u : RegulatedUnit α)
    (clock : Clock α) (source : Option σ) (calls : List (ReserveCall α)) (level : α) :
    (Simulation.ofUnit number u clock source calls level).unit =
      RegulatedUnit.startWith { u with generator := { u.generator with
        dispatcher := some Simulation.dispatcherNumber } } clock.start level := rfl

/-- The unit of a simulation is made ready with its targets and its dispatcher. -/
theorem ofUnit_unit {σ α : Type} [Quantity α] (number : Nat) (u : RegulatedUnit α) (clock : Clock α)
    (source : Option σ) (calls : List (ReserveCall α)) (level : α) :
    ∃ output slope, (Simulation.ofUnit number u clock source calls level).unit.generator =
      (Generator.start { u.generator with dispatcher := some Simulation.dispatcherNumber }
        clock.start).withOutput output slope := ⟨_, _, rfl⟩

/-- The generator of a simulation has the targets of the scenario and is made ready. -/
theorem simulation_generator {σ α : Type} [Quantity α] {s : Scenario α} {mode : RampMode}
    {source : σ} {sim : Simulation σ α} (known : s.rampMode? = .ok mode)
    (built : s.simulation source = .ok sim) : ∃ output slope, sim.unit.generator =
      ((s.supplied mode).start s.timing.start).withOutput output slope := by
  have given : { (s.regulatedUnit mode).generator with
      dispatcher := some Simulation.dispatcherNumber } = s.supplied mode := by
    rw [regulatedUnit_eq]
    rfl
  rw [simulation_eq known] at built
  obtain rfl := Except.ok.inj built
  rw [← given]
  exact ofUnit_unit _ _ _ _ _ _

/-- The simulation of a scenario whose ramp limits cover everything is on course from the start,
with any property that lasts and that the generator has when it is ready. -/
theorem simulation_coursing {σ : Type} {P : Generator (Exact K) → Prop}
    (lasting : Generator.Lasting P) (finite : ∀ v ∈ s.values, isFinite v = true)
    (valid : s.faults = []) (ramps : s.RampsLeft) {start : K} (begins : s.timing.start = fin start)
    (holds : ∀ mode, s.rampMode? = .ok mode → P ((s.supplied mode).start s.timing.start))
    (source : σ) :
    ∃ sim, s.simulation source = .ok sim ∧ sim.Coursing P start ∧
      sim.clock.remaining =
        (List.range' 0 s.timing.steps).map fun i => (i, s.timing.after (i + 1)) := by
  obtain ⟨mode, known⟩ := rampMode?_of_faults_eq_nil valid
  have built := simulation_eq known source
  refine ⟨_, built, ?_, rfl⟩
  obtain ⟨low, high, up, down, -, -, bounded, calls⟩ := simulation_bounded finite valid built
  obtain ⟨output, slope, generator⟩ := simulation_generator known built
  have going := supplied_going finite valid ramps mode
  have ready := going.start (Generator.keptByPlans_true _) (begins ▸ isFinite_fin start)
  have ample := (equipped_ample finite valid ramps mode).of_same ready.same
  obtain ⟨n, l, c, ρ, course⟩ := ready.course
  obtain rfl : n = start := by
    exact fin.inj (course.stands.now.symm.trans ((Generator.start_now _ _).trans begins))
  refine ⟨⟨⟨low, high, up, down, bounded⟩, ?_, ?_, ?_⟩, calls⟩ <;> rw [generator]
  · exact ample.congr rfl rfl rfl rfl
  · exact ⟨l, c, ρ, course.withOutput output slope⟩
  · exact lasting.withOutput output slope (holds mode known)

/-- It is so after every step, and each row counts what is counted in its step. -/
theorem simulation_steps {σ : Type} [CommandSource σ (Exact K)] {P : Generator (Exact K) → Prop}
    (lasting : Generator.Lasting P) (finite : ∀ v ∈ s.values, isFinite v = true)
    (valid : s.faults = []) (ramps : s.RampsLeft) {start step : K}
    (begins : s.timing.start = fin start) (positive : 0 < step)
    (after : ∀ k : Nat, s.timing.after k = fin (start + k * step))
    (holds : ∀ mode, s.rampMode? = .ok mode → P ((s.supplied mode).start s.timing.start))
    (source : σ) :
    ∃ sim, s.simulation source = .ok sim ∧ sim.clock.remaining.length = s.timing.steps ∧
      ∀ k ≤ s.timing.steps,
        List.Forall₂
            (fun i : Nat => Simulation.Counts P (start + i * step) (start + (i + 1 : Nat) * step))
            (List.range' 0 k) (sim.steps (sim.clock.remaining.take k)).1 ∧
          (sim.steps (sim.clock.remaining.take k)).2.Coursing P (start + k * step) := by
  obtain ⟨sim, built, coursing, ticks⟩ :=
    simulation_coursing lasting finite valid ramps begins holds source
  refine ⟨sim, built, by rw [ticks, List.length_map, List.length_range'], fun k hk => ?_⟩
  have begun : sim.Coursing P (start + (0 : Nat) * step) := by
    rwa [Nat.cast_zero, zero_mul, add_zero]
  have taken : sim.clock.remaining.take k =
      (List.range' 0 k).map fun i => (i, fin (start + (i + 1 : Nat) * step)) := by
    rw [ticks, ← List.map_take, List.take_range'_of_length_ge hk]
    simp only [after]
  have went := begun.steps lasting positive k taken
  rwa [Nat.zero_add] at went

end Scenario

end UnitDispatch
