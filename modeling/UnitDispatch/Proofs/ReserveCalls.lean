import UnitDispatch.Proofs.CallOrder
import UnitDispatch.Proofs.DefinedRows
import UnitDispatch.Proofs.Termination

/-! # Calls on the reserve are delivered once

A simulation delivers each call on the reserve in the first step that does not start before it, the
calls of a step in the order of their times. `Scenario.calls_delivered` says so, and that what is
requested of the reserve during a step is what the last call so far asked for. The steps start
where the clock of the unit stands (`Timing.begun`): nothing is assumed of the scenario but that
the times of its calls are defined.
-/

namespace UnitDispatch

open Quantity

/-! ## When steps start -/

namespace Timing

variable {α : Type} [Quantity α]

/-- The time at which a step starts. A step starts where the one before it ended, and a step that
does not end later than it started takes no time. -/
def begun (t : Timing α) : ℕ → α
  | 0 => t.start
  | k + 1 => if t.begun k < t.after (k + 1) then t.after (k + 1) else t.begun k

/-- No step before the one given starts at a time or later. -/
def awaits (t : Timing α) (step : ℕ) (time : α) : Bool :=
  (List.range step).all fun k => decide (t.begun k < time)

theorem awaits_succ (t : Timing α) (k : ℕ) (time : α) :
    t.awaits (k + 1) time = (t.awaits k time && decide (t.begun k < time)) := by
  simp [awaits, List.range_succ]

variable [Separated α] {t : Timing α} {k : ℕ} {x y : α}

/-- Steps do not start earlier than the steps before them. -/
theorem begun_lt_of_succ (later : t.begun (k + 1) < x) : t.begun k < x := by
  unfold begun at later
  split at later
  next ahead => exact Ordered.lt_of_lt_of_le ahead (Ordered.le_of_lt later)
  next => exact later

/-- Where no step ends before the one before it, a step starts at the end of the one before it. -/
theorem begun_lt_iff (starts : t.start ≤ t.after 0 ∧ t.after 0 ≤ t.start)
    (forward : ∀ j < k, t.after j ≤ t.after (j + 1)) : t.begun k < x ↔ t.after k < x := by
  induction k generalizing x with
  | zero => exact ⟨Ordered.lt_of_le_of_lt starts.2, Ordered.lt_of_le_of_lt starts.1⟩
  | succ k ih =>
    have before {y : α} : t.begun k < y ↔ t.after k < y :=
      ih fun j hj => forward j (hj.trans k.lt_succ_self)
    have next := forward k k.lt_succ_self
    obtain ⟨defined, defined'⟩ := Signed.defined_of_le next
    rw [begun]
    split
    · exact Iff.rfl
    next still =>
      have same : t.after (k + 1) ≤ t.after k :=
        Ordered.le_of_not_lt defined defined' fun ahead => still (before.mpr ahead)
      rw [before]
      exact ⟨Ordered.lt_of_le_of_lt same, Ordered.lt_of_le_of_lt next⟩

/-- The step before is the one that counts. -/
theorem awaits_succ_eq (t : Timing α) (k : ℕ) (time : α) :
    t.awaits (k + 1) time = decide (t.begun k < time) := by
  induction k with
  | zero => simp [awaits]
  | succ k ih =>
    rw [awaits_succ, ih, Bool.and_eq_right_iff_imp]
    simpa using begun_lt_of_succ

/-- What is awaited is not awaited in vain by what comes later. -/
theorem awaits_of_noLater (noLater : NoLater x y) (awaited : t.awaits k x = true) :
    t.awaits k y = true := by
  unfold awaits at awaited ⊢
  simp only [List.all_eq_true, decide_eq_true_iff] at awaited ⊢
  exact fun j hj => Ordered.lt_of_lt_of_le (awaited j hj) noLater.le

end Timing

/-! ## The clock of a unit -/

namespace Generator

variable {α : Type} [Quantity α] [Separated α] {g : Generator α} {time : α}

omit [Separated α] in
/-- On the way to a time the clock stays short of it. -/
theorem legsTo_now_le (fuel : ℕ) (before : g.now ≤ time) : (legsTo time fuel g).now ≤ time := by
  refine legsTo_induction (P := fun h => h.now ≤ time) (fun h due le => ?_) fuel before
  rw [leg_now]
  split
  · exact due
  · exact le

/-- An advance takes the clock to a time that lies ahead. -/
theorem advance_now (ahead : g.now < time) :
    (g.advance time).now ≤ time ∧ time ≤ (g.advance time).now := by
  obtain ⟨defined, defined'⟩ := Ordered.defined_of_lt ahead
  have before := legsTo_now_le g.legBound (Ordered.le_of_lt ahead)
  have reached := (Signed.defined_of_le before).1
  have proceed : ¬ (isNaN time = true ∨ time ≤ g.now) := by
    rintro (undefined | past)
    · exact Bool.false_ne_true (defined'.symm.trans undefined)
    · exact Rounded.not_lt_of_le past ahead
  unfold advance
  rw [if_neg proceed]
  generalize legsTo time g.legBound g = h at before reached ⊢
  unfold moveTo
  dsimp only
  split
  · exact ⟨Ordered.le_refl defined', Ordered.le_refl defined'⟩
  next arrived =>
    rw [Separated.sub_pos_iff] at arrived
    exact ⟨before, Ordered.le_of_not_lt reached defined' arrived⟩

end Generator

namespace RegulatedUnit

variable {α : Type} [Quantity α]

theorem advance_sameSettings (u : RegulatedUnit α) (time : α) :
    u.generator.SameSettings (u.advance time).generator := by
  unfold advance
  dsimp only
  split
  · exact (u.generator.advance_sameSettings time).trans ⟨rfl, rfl, rfl, rfl, rfl, rfl⟩
  · exact .refl u.generator

/-- A unit advances if the time lies ahead. -/
theorem advance_now_lt [Separated α] (u : RegulatedUnit α) (time x : α) :
    (u.advance time).generator.now < x ↔
      (if u.generator.now < time then time else u.generator.now) < x := by
  unfold advance
  dsimp only
  simp only [Separated.sub_pos_iff]
  split
  next ahead =>
    obtain ⟨le, ge⟩ := Generator.advance_now ahead
    exact ⟨Ordered.lt_of_le_of_lt ge, Ordered.lt_of_le_of_lt le⟩
  next => exact Iff.rfl

end RegulatedUnit

/-! ## Calls on a generator -/

namespace Reserve

variable {α : Type} [Quantity α]

/-- What the last of some calls makes of what is requested, if so much is available. -/
def afterCalls (available requested : α) (calls : List (ReserveCall α)) : α :=
  calls.getLast?.elim requested fun c => greater (lesser c.level available) 0

theorem afterCalls_append (available requested : α) (first second : List (ReserveCall α)) :
    afterCalls available requested (first ++ second) =
      afterCalls available (afterCalls available requested first) second := by
  unfold afterCalls
  rw [List.getLast?_append]
  cases second.getLast? <;> simp

end Reserve

namespace Generator

variable {α : Type} [Quantity α]

/-- Calls, one after another: the last of them counts, and the clock stands still. -/
theorem callAll_reserve (g : Generator α) (calls : List (ReserveCall α)) :
    let h := calls.foldl (fun g c => g.callReserve c.level) g
    h.now = g.now ∧ h.reserve.available = g.reserve.available ∧
      h.reserve.requested = Reserve.afterCalls g.reserve.available g.reserve.requested calls := by
  induction calls generalizing g with
  | nil => exact ⟨rfl, rfl, rfl⟩
  | cons c calls ih =>
    have plant := replan_samePlant { g with reserve := g.reserve.call c.level }
    have called : (g.callReserve c.level).reserve = g.reserve.call c.level := plant.reserve
    obtain ⟨now, available, requested⟩ := ih (g.callReserve c.level)
    rw [called] at available requested
    refine ⟨now.trans plant.now, available, requested.trans ?_⟩
    exact (Reserve.afterCalls_append g.reserve.available g.reserve.requested [c] calls).symm

end Generator

/-! ## Steps -/

namespace Simulation

variable {σ α : Type} [Quantity α]

/-- The calls that the next step delivers. -/
def delivers (s : Simulation σ α) : List (ReserveCall α) :=
  s.calls.takeWhile fun c => !decide (s.unit.generator.now < c.time)

variable [CommandSource σ α]

/-- A command is no matter of the generator, and no call. -/
theorem deliverCommand_generator (s : Simulation σ α) (time : α) :
    (s.deliverCommand time).unit.generator = s.unit.generator ∧
      (s.deliverCommand time).calls = s.calls := by
  unfold deliverCommand
  split <;> exact ⟨rfl, rfl⟩

theorem step_calls (s : Simulation σ α) (index : ℕ) (time : α) :
    (s.step index time).2.calls =
      s.calls.dropWhile fun c => !decide (s.unit.generator.now < c.time) :=
  (deliverCommand_generator (s.deliverCalls s.unit.generator.now) _).2

/-- What is delivered is not kept, and nothing else is lost. -/
theorem delivers_append (s : Simulation σ α) (index : ℕ) (time : α) :
    s.delivers ++ (s.step index time).2.calls = s.calls := by
  rw [s.step_calls]
  exact List.takeWhile_append_dropWhile

/-- A step advances the unit once its calls are delivered. -/
theorem step_unit (s : Simulation σ α) (index : ℕ) (time : α) :
    ∃ u : RegulatedUnit α, (s.step index time).2.unit = u.advance time ∧ u.generator =
      s.delivers.foldl (fun g c => g.callReserve c.level) s.unit.generator :=
  ⟨_, rfl, (deliverCommand_generator _ _).1.trans
    (congrArg RegulatedUnit.generator (s.deliverCalls_unit s.unit.generator.now))⟩

theorem step_reserve (s : Simulation σ α) (index : ℕ) (time : α) :
    let r := s.unit.generator.reserve
    let r' := (s.step index time).2.unit.generator.reserve
    r'.available = r.available ∧
      r'.requested = Reserve.afterCalls r.available r.requested s.delivers := by
  obtain ⟨u, unit, generator⟩ := s.step_unit index time
  obtain ⟨-, available, requested⟩ := s.unit.generator.callAll_reserve s.delivers
  have same := u.advance_sameSettings time
  rw [generator] at same
  rw [unit]
  exact ⟨same.available.trans available, same.requested.trans requested⟩

theorem step_now_lt [Separated α] (s : Simulation σ α) (index : ℕ) (time x : α) :
    (s.step index time).2.unit.generator.now < x ↔
      (if s.unit.generator.now < time then time else s.unit.generator.now) < x := by
  obtain ⟨u, unit, generator⟩ := s.step_unit index time
  obtain ⟨now, -⟩ := s.unit.generator.callAll_reserve s.delivers
  rw [unit, u.advance_now_lt, generator, now]

/-- After so many steps the unit stands at the start of the next, the calls that came due were
delivered, and what is requested is what the last of them asked for. -/
structure Stands (t : Timing α) (order : List (ReserveCall α)) (available : α) (k : ℕ)
    (s : Simulation σ α) : Prop where
  clock : ∀ x, s.unit.generator.now < x ↔ t.begun k < x
  calls : s.calls = order.filter fun c => t.awaits k c.time
  requested : s.unit.generator.reserve.requested =
    Reserve.afterCalls available 0 (order.filter fun c => !t.awaits k c.time)
  available : s.unit.generator.reserve.available = available

section Stands

variable [Separated α] {t : Timing α} {order : List (ReserveCall α)} {available : α} {k : ℕ}
  {s : Simulation σ α}

omit [CommandSource σ α] in
/-- A step parts calls in order into those that it does not start before and the others. -/
theorem parted_of_ascending (ascending : order.Pairwise fun a b => NoLater a.time b.time)
    (now : α) : order.Pairwise fun a b =>
      (!decide (now < b.time)) = true → (!decide (now < a.time)) = true := by
  refine ascending.imp fun noLater => ?_
  simpa using mt fun later => Ordered.lt_of_lt_of_le later noLater.le

omit [CommandSource σ α] in
/-- The calls that came due before a step stand in front of the others. -/
theorem filter_awaits (ascending : order.Pairwise fun a b => NoLater a.time b.time) (t : Timing α)
    (k : ℕ) : (order.filter fun c => !t.awaits k c.time) ++
      (order.filter fun c => t.awaits k c.time) = order := by
  have parted : order.Pairwise fun a b =>
      (!t.awaits k b.time) = true → (!t.awaits k a.time) = true := by
    refine ascending.imp fun noLater => ?_
    simpa using mt (Timing.awaits_of_noLater noLater)
  obtain ⟨front, back⟩ := parted_by parted
  simp only [Bool.not_not] at back
  rw [← front, ← back, List.takeWhile_append_dropWhile]

omit [CommandSource σ α] in
/-- A step delivers the calls that it does not start before and that no step before it came up
to. -/
theorem Stands.delivers_eq (stands : s.Stands t order available k)
    (ascending : order.Pairwise fun a b => NoLater a.time b.time) :
    s.delivers = order.filter fun c => t.awaits k c.time && !decide (t.begun k < c.time) := by
  have parted := parted_of_ascending (ascending.filter fun c => t.awaits k c.time) (t.begun k)
  unfold delivers
  simp only [stands.clock, stands.calls]
  rw [(parted_by parted).1, List.filter_filter]
  simp only [Bool.and_comm]

/-- What is requested during a step and after it, whatever time it is taken to: what the last call
that it does not start before asked for. -/
theorem Stands.requested_step (stands : s.Stands t order available k)
    (ascending : order.Pairwise fun a b => NoLater a.time b.time) (index : ℕ) (time : α) :
    (s.step index time).2.unit.generator.reserve.requested =
      Reserve.afterCalls available 0 (order.filter fun c => !decide (t.begun k < c.time)) := by
  obtain ⟨-, requested⟩ := s.step_reserve index time
  have due : (order.filter fun c => !t.awaits (k + 1) c.time) =
      (order.filter fun c => !t.awaits k c.time) ++ s.delivers := by
    conv_lhs => rw [← filter_awaits ascending t k, List.filter_append, List.filter_filter,
      List.filter_filter]
    rw [stands.delivers_eq ascending]
    congr 1 <;> refine List.filter_congr fun c _ => ?_
    all_goals
      rw [Timing.awaits_succ]
      cases t.awaits k c.time <;> simp
  simp only [Timing.awaits_succ_eq] at due
  rw [requested, stands.available, stands.requested, due, Reserve.afterCalls_append]

/-- What a step leaves for the next. -/
theorem Stands.step (stands : s.Stands t order available k)
    (ascending : order.Pairwise fun a b => NoLater a.time b.time) (index : ℕ) :
    (s.step index (t.after (k + 1))).2.Stands t order available (k + 1) := by
  obtain ⟨held, -⟩ := s.step_reserve index (t.after (k + 1))
  refine ⟨fun x => ?_, ?_, ?_, held.trans stands.available⟩
  · rw [s.step_now_lt, Timing.begun]
    simp only [stands.clock]
    split
    · exact Iff.rfl
    · exact stands.clock x
  · have parted := parted_of_ascending (ascending.filter fun c => t.awaits k c.time) (t.begun k)
    rw [s.step_calls]
    simp only [stands.clock, stands.calls]
    rw [(parted_by parted).2, List.filter_filter]
    simp only [Timing.awaits_succ, Bool.not_not, Bool.and_comm]
  · simp only [Timing.awaits_succ_eq]
    exact stands.requested_step ascending index _

/-- After so many steps of a simulation. -/
theorem Stands.steps {total : ℕ} (stands : s.Stands t order available 0)
    (ascending : order.Pairwise fun a b => NoLater a.time b.time) {ticks : List (ℕ × α)}
    (ticked : ∀ k < total, ticks[k]? = some (k, t.after (k + 1))) {k : ℕ} (within : k ≤ total) :
    (s.steps (ticks.take k)).2.Stands t order available k := by
  induction k with
  | zero => exact stands
  | succ k ih =>
    rw [steps_take_succ s (ticked k within)]
    exact (ih (Nat.le_of_succ_le within)).step ascending k

omit [Separated α] in
/-- Calls are delivered one after another, none of them twice. -/
theorem flatMap_delivers (s : Simulation σ α) (ticks : List (ℕ × α)) {k : ℕ}
    (within : k ≤ ticks.length) :
    (List.range k).flatMap (fun j => (s.steps (ticks.take j)).2.delivers) ++
      (s.steps (ticks.take k)).2.calls = s.calls := by
  induction k with
  | zero => rfl
  | succ k ih =>
    have ticked := List.getElem?_eq_getElem (Nat.lt_of_succ_le within)
    rw [List.range_succ, List.flatMap_append, List.flatMap_singleton, List.append_assoc,
      steps_take_succ s ticked, delivers_append]
    exact ih (Nat.le_of_succ_le within)

end Stands

end Simulation

/-! ## Scenarios -/

namespace Scenario

variable {σ α : Type} [Quantity α] [Separated α] {s : Scenario α} {source : σ}
  {sim : Simulation σ α}

/-- Nothing is requested as long as nothing was called for. -/
theorem hold_empty (available : α) :
    (Reserve.hold Reserve.empty available).available = greater available 0 ∧
      (Reserve.hold Reserve.empty available).requested = 0 := by
  refine ⟨rfl, ?_⟩
  show lesser 0 (greater available 0) = 0
  have defined : isNaN (0 : α) = false := Ordered.defined_zero
  unfold lesser
  simp only [defined, Bool.false_eq_true, if_false]
  split
  next none =>
    unfold greater at none ⊢
    grind
  next => rfl

/-- The reserve of a scenario with its targets: none of it is requested. -/
theorem supplied_reserve (s : Scenario α) (mode : RampMode) :
    (s.supplied mode).reserve.available = greater s.unit.reserveAvailable 0 ∧
      (s.supplied mode).reserve.requested = 0 := by
  have same := (equipped s.unit s.regulation mode).generator.addAll_sameSettings
    (s.targets.map (·.time)) (s.targets.map (·.power))
  obtain ⟨-, -, -, -, -, reserve⟩ := equipped_settings s.unit s.regulation mode
  rw [generator_reserve] at reserve
  obtain ⟨available, requested⟩ := hold_empty s.unit.reserveAvailable
  refine ⟨same.available.trans ?_, same.requested.trans ?_⟩ <;> rw [reserve]
  · exact available
  · exact requested

/-- A simulation stands at its start, and has its steps to take. -/
theorem simulation_stands (built : s.simulation source = .ok sim) :
    sim.Stands s.timing (Simulation.inOrder s.reserveCalls) (greater s.unit.reserveAvailable 0) 0 ∧
      sim.clock = { start := s.timing.start, step := s.timing.step, total := s.timing.steps } := by
  obtain ⟨mode, known⟩ : ∃ mode, s.rampMode? = .ok mode := by
    cases known : s.rampMode? with
    | ok mode => exact ⟨mode, rfl⟩
    | error e =>
      unfold simulation at built
      rw [known] at built
      cases built
  obtain ⟨output, slope, generator⟩ := simulation_generator known built
  obtain ⟨_, -, clock, calls⟩ := unit_eq_run built
  have settings := (s.supplied mode).start_sameSettings s.timing.start
  obtain ⟨available, requested⟩ := s.supplied_reserve mode
  have begins : sim.unit.generator.now = s.timing.start := by
    rw [generator]
    exact (s.supplied mode).start_now s.timing.start
  refine ⟨⟨fun x => by rw [begins]; rfl, ?_, ?_, ?_⟩, clock⟩
  · simp [calls, Timing.awaits]
  · rw [generator]
    refine (settings.requested.trans requested).trans ?_
    simp [Timing.awaits, Reserve.afterCalls]
  · rw [generator]
    exact settings.available.trans available

variable [CommandSource σ α]

/-- What the first step delivers and requests. -/
theorem first_step {mode : RampMode} (known : s.rampMode? = .ok mode)
    (defined : ∀ c ∈ s.reserveCalls, isNaN c.time = false) (source : σ) :
    ∃ sim, s.simulation source = .ok sim ∧
      let due := (Simulation.inOrder s.reserveCalls).filter fun c =>
        !decide (s.timing.start < c.time)
      sim.delivers = due ∧
        ∀ index time, (sim.step index time).2.unit.generator.reserve.requested =
          Reserve.afterCalls (greater s.unit.reserveAvailable 0) 0 due := by
  obtain ⟨stands, -⟩ := simulation_stands (simulation_eq known source)
  have ascending := (Simulation.inOrder_arranged defined).ascending
  exact ⟨_, simulation_eq known source, stands.delivers_eq ascending,
    stands.requested_step ascending⟩

/-- In a scenario whose calls are at defined times, whatever commands the unit is given. The calls
are put in the order of their times. The steps deliver them in that order, each call once, in the
first step that does not start before it; calls that every step starts before are left. What is
requested of the reserve, from the calls at the start of a step to its end, is what the last call so
far asked for, as far as it is available, and nothing if there was none. -/
theorem calls_delivered (defined : ∀ c ∈ s.reserveCalls, isNaN c.time = false)
    (built : s.simulation source = .ok sim) :
    let order := Simulation.inOrder s.reserveCalls
    let after (k : ℕ) := (sim.steps (sim.clock.remaining.take k)).2
    Simulation.Arranged s.reserveCalls order ∧ sim.clock.remaining.length = s.timing.steps ∧
      (∀ k ≤ s.timing.steps,
        (List.range k).flatMap (fun j => (after j).delivers) ++ (after k).calls = order ∧
        (after k).calls = order.filter fun c => s.timing.awaits k c.time) ∧
      ∀ k < s.timing.steps,
        (after k).delivers = order.filter (fun c =>
          s.timing.awaits k c.time && !decide (s.timing.begun k < c.time)) ∧
        ∀ index time, let s' := ((after k).step index time).2
          (∃ u : RegulatedUnit α, s'.unit = u.advance time ∧ u.generator =
            (after k).delivers.foldl (fun g c => g.callReserve c.level) (after k).unit.generator) ∧
          s'.unit.generator.reserve.requested =
            Reserve.afterCalls (greater s.unit.reserveAvailable 0) 0
              (order.filter fun c => !decide (s.timing.begun k < c.time)) := by
  intro order after
  have arranged : Simulation.Arranged s.reserveCalls order := Simulation.inOrder_arranged defined
  obtain ⟨stands, clock⟩ := simulation_stands built
  have length : sim.clock.remaining.length = s.timing.steps := by
    rw [Clock.length_remaining, clock]
    rfl
  have ticked : ∀ k < s.timing.steps,
      sim.clock.remaining[k]? = some (k, s.timing.after (k + 1)) := by
    intro k within
    simp [clock, Clock.remaining, Clock.timeAfter, Timing.after, within]
  have calls : sim.calls = order := stands.calls.trans (List.filter_eq_self.mpr fun _ _ => rfl)
  have stands {k : ℕ} (within : k ≤ s.timing.steps) := stands.steps arranged.ascending ticked within
  refine ⟨arranged, length, fun k within => ⟨?_, (stands within).calls⟩, fun k within => ?_⟩
  · rw [← calls]
    exact sim.flatMap_delivers _ (length ▸ within)
  · have stands := stands within.le
    exact ⟨stands.delivers_eq arranged.ascending, fun index time =>
      ⟨Simulation.step_unit _ index time, stands.requested_step arranged.ascending index time⟩⟩

/-- Calls out of order: one before the start, one at it, two at once, one before the last step and
one beyond the end. -/
def called : Scenario Float :=
  { brief with
    timing := { (Timing.standard : Timing Float) with start := 100, steps := 3 }
    unit.reserveAvailable := 6
    reserveCalls := [⟨200, 7, false⟩, ⟨40, 9, false⟩, ⟨1000, 1, false⟩, ⟨160, 5, false⟩,
      ⟨160, 2, false⟩, ⟨100, 3, false⟩] }

theorem calls_delivered_called :
    (∀ c ∈ called.reserveCalls, isNaN c.time = false) ∧
      ∃ sim, called.simulation called.signal = .ok sim ∧
        let after (k : ℕ) := (sim.steps (sim.clock.remaining.take k)).2
        ((after 0).delivers.map (·.level) = [9, 3] ∧ (after 1).delivers.map (·.level) = [5, 2] ∧
          (after 2).delivers.map (·.level) = [7] ∧ (after 3).calls.map (·.level) = [1]) ∧
        ∀ index time, ((after 1).step index time).2.unit.generator.reserve.requested = 2 := by
  have known : called.rampMode? = .ok .interpolated := rfl
  have defined : ∀ c ∈ called.reserveCalls, isNaN c.time = false := by decide +kernel
  have order : Simulation.inOrder called.reserveCalls =
      [⟨40, 9, false⟩, ⟨100, 3, false⟩, ⟨160, 5, false⟩, ⟨160, 2, false⟩, ⟨200, 7, false⟩,
        ⟨1000, 1, false⟩] := by
    simp (disch := decide +kernel) [called, Simulation.inOrder, List.mergeSort]
  obtain ⟨-, -, left, steps⟩ := calls_delivered defined (simulation_eq known called.signal)
  rw [order] at left steps
  refine ⟨defined, _, simulation_eq known called.signal, ⟨?_, ?_, ?_, ?_⟩, ?_⟩
  · rw [(steps 0 (by decide)).1]
    decide +kernel
  · rw [(steps 1 (by decide)).1]
    decide +kernel
  · rw [(steps 2 (by decide)).1]
    decide +kernel
  · rw [(left 3 (by decide)).2]
    decide +kernel
  · intro index time
    rw [((steps 1 (by decide)).2 index time).2]
    decide +kernel

/-- A call at zero, and one at a negative zero after it. -/
def zeros : Scenario Float :=
  { brief with
    unit.reserveAvailable := 10
    reserveCalls := [⟨0, 6, false⟩, ⟨-0, 4, false⟩] }

/-- A start at an undefined time. -/
def unstarted : Scenario Float :=
  { brief with
    timing.start := 0 / 0
    unit.reserveAvailable := 10
    reserveCalls := [⟨1000, 4, false⟩] }

/-- Of two calls at zero the one given first counts, if the sign of the other is negative. A step
that starts at an undefined time delivers every call. -/
theorem calls_misplaced :
    (zeros.faults = [] ∧ ((-0 : Float) == 0) = true ∧
      ∃ sim, zeros.simulation zeros.signal = .ok sim ∧ sim.delivers.map (·.level) = [4, 6] ∧
        ∀ index time, (sim.step index time).2.unit.generator.reserve.requested = 6) ∧
    ¬ 1000 ≤ unstarted.timing.start ∧
      ∃ sim, unstarted.simulation unstarted.signal = .ok sim ∧
        sim.delivers.map (·.level) = [4] ∧
        ∀ index time, (sim.step index time).2.unit.generator.reserve.requested = 4 := by
  have order : Simulation.inOrder zeros.reserveCalls = [⟨-0, 4, false⟩, ⟨0, 6, false⟩] := by
    simp (disch := decide +kernel) [zeros, Simulation.inOrder, List.mergeSort]
  have alone : Simulation.inOrder unstarted.reserveCalls = unstarted.reserveCalls :=
    List.mergeSort_singleton _
  obtain ⟨sim, built, delivers, requested⟩ :=
    first_step (s := zeros) rfl (by decide +kernel) zeros.signal
  obtain ⟨sim', built', delivers', requested'⟩ :=
    first_step (s := unstarted) rfl (by decide +kernel) unstarted.signal
  rw [order] at delivers requested
  rw [alone] at delivers' requested'
  refine ⟨⟨by decide +kernel, by decide +kernel, sim, built, ?_, fun index time => ?_⟩,
    by decide +kernel, sim', built', ?_, fun index time => ?_⟩
  · rw [delivers]
    decide +kernel
  · rw [requested]
    decide +kernel
  · rw [delivers']
    decide +kernel
  · rw [requested']
    decide +kernel

end Scenario

end UnitDispatch
