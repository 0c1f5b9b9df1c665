import UnitDispatch.Proofs.Layout
import UnitDispatch.Proofs.ScenarioUnit

/-! # Targets older than the start

Targets are handed to a unit before it is made ready, while its clock stands at zero. What they
leave behind, besides setpoints that are dropped at the start, is a rate and a time of review, and
the first plan after the start replaces both: `Scenario.stale_targets_leave_no_trace`.
`Scenario.Forgets` says when that is so, and `Scenario.forgets_exact` what it takes in exact
arithmetic. A target at or before zero is consumed before the start and finished after it, a target
at the very start may be finished at the rate planned for a stale one
(`Scenario.stale_target_ramps`), and so may a midpoint ramp whose window rounding has closed.
-/

namespace UnitDispatch

open Quantity Exact

/-! ## Legs that do not look at the present rate -/

section Leg

variable {α : Type} [Quantity α]

/-- A midpoint ramp has something left of its window, or no window to keep to. -/
def Approach.Unfinished (a : Approach α) : Prop :=
  if a.rampTime ≤ a.remaining then a.now < a.windowStart ∨ a.now < a.windowEnd
  else ¬ a.windowEnd ≤ a.now

instance (a : Approach α) : Decidable a.Unfinished :=
  inferInstanceAs (Decidable (if a.rampTime ≤ a.remaining then
    a.now < a.windowStart ∨ a.now < a.windowEnd else ¬ a.windowEnd ≤ a.now))

theorem Approach.Unfinished.congr {a b : Approach α} (unfinished : a.Unfinished)
    (now : b.now = a.now) (last : b.last = a.last) (due : b.due = a.due)
    (rampTime : b.rampTime = a.rampTime) :
    b.Unfinished := by
  unfold Unfinished remaining windowEnd windowStart at unfinished ⊢
  rw [now, last, due, rampTime]
  exact unfinished

/-- Only what finishes a midpoint ramp looks at the present rate. -/
theorem RampMode.leg_at_rate (mode : RampMode) {a : Approach α}
    (unfinished : mode = .midpoint → a.Unfinished) (rate : α) :
    mode.leg { a with rate } = mode.leg a := by
  cases mode with
  | midpoint =>
    have window := unfinished rfl
    unfold Approach.Unfinished at window
    show Approach.centred { a with rate } = a.centred
    unfold Approach.centred
    show (if a.rampTime ≤ a.remaining then
        if a.now < a.windowStart then _ else if a.now < a.windowEnd then _ else _
      else if a.windowEnd ≤ a.now then _ else _) = _
    split at window
    next long =>
      rw [if_pos long, if_pos long]
      split
      · rfl
      next inside =>
        have still := window.resolve_left inside
        rw [if_pos still, if_pos still]
        rfl
    next short =>
      rw [if_neg short, if_neg short, if_neg window, if_neg window]
      rfl
  | _ => rfl

end Leg

namespace Approach

variable {K : Type} [Field K] [LinearOrder K] [IsStrictOrderedRing K]

/-- In exact arithmetic a ramp that begins when the last setpoint fell due is never finished
beforehand: its window is centred between now and the time ahead. -/
theorem unfinished_between {n d δ ρ m : K} {up down : Exact K} (ahead : n < d) (least : 0 ≤ m) :
    (between n n d δ ρ up down (fin m)).Unfinished := by
  have left : n < opens n d m + m := by
    unfold opens
    linarith
  unfold Unfinished
  rw [remaining_between, windowStart_between, windowEnd_between]
  show if (fin m : Exact K) ≤ fin (d - n) then fin n < _ ∨ fin n < _ else ¬ _ ≤ fin n
  split
  · exact .inr (fin_lt.mpr left)
  · rw [fin_le, not_le]
    exact left

end Approach

/-! ## Targets handed over beforehand -/

namespace Generator

variable {α : Type} [Quantity α] {g : Generator α}

/-- The leg toward a setpoint ahead does not depend on the present rate, unless it finishes a
midpoint ramp. -/
theorem nextLeg_at_rate (unfinished : g.mode = .midpoint → ∀ a : Approach α, a.now = g.now →
      a.last = g.last → a.rampTime = g.rampTime →
      (∃ head, g.schedule.first? = some head ∧ a.due = head.time) → a.Unfinished)
    (rate review : α) : Generator.nextLeg { g with rate, review } = g.nextLeg := by
  unfold nextLeg
  dsimp only
  cases first : g.schedule.first? with
  | none => rfl
  | some head =>
    dsimp only
    show (if magnitude (g.holdTarget head.power - g.committed) < tolerance then _ else _) = _
    split
    · rfl
    · let a : Approach α :=
        { now := g.now, last := g.last, due := head.time,
          delta := g.holdTarget head.power - g.committed, rate := g.rate,
          limitUp := g.rampLimitUp, limitDown := g.envelope.rampDown, rampTime := g.rampTime }
      exact g.mode.leg_at_rate (a := a)
        (fun midpoint => unfinished midpoint a rfl rfl rfl ⟨head, first, rfl⟩) rate

variable [Signed α]

/-- A target that lies ahead, behind all setpoints, is queued, and at most the leg is planned
anew. -/
theorem add_ahead {t : Target α} (ahead : ∀ q ∈ g.schedule.setpoints, g.now < q.time)
    (next : g.now < t.time) (sorted : g.schedule.Sorted)
    (last : ∀ q ∈ g.schedule.setpoints, q.time ≤ t.time) :
    ∃ s leg, g.add t.time t.power = (g.withSchedule s).follow leg ∧
      s.setpoints = g.schedule.setpoints ++ [t.setpoint] := by
  let s := g.schedule.insert t.setpoint
  have setpoints : s.setpoints = g.schedule.setpoints ++ [t.setpoint] := by
    have all : ∀ q ∈ g.schedule.setpoints, decide (q.time ≤ t.setpoint.time) = true :=
      fun q hq => decide_eq_true (last q hq)
    show (g.schedule.insert t.setpoint).setpoints = _
    rw [sorted.setpoints_insert_eq, List.takeWhile_eq_self_iff.mpr all,
      List.dropWhile_eq_nil_iff.mpr all]
  rw [add_eq]
  split
  · refine ⟨s, _, replan_of_ahead fun q hq => ?_, setpoints⟩
    rcases Schedule.mem_insert.mp hq with rfl | hq
    · exact next
    · exact ahead q hq
  · exact ⟨s, ⟨g.rate, _⟩, rfl, setpoints⟩

/-- Targets that lie ahead in order, behind all setpoints, are queued. -/
theorem addAll_ahead (targets : List (Target α))
    (ahead : ∀ q ∈ g.schedule.setpoints ++ targets.map (·.setpoint), g.now < q.time)
    (sorted : (g.schedule.setpoints ++ targets.map (·.setpoint)).Pairwise
      fun p q => p.time ≤ q.time) :
    ∃ s leg, g.addAll (targets.map (·.time)) (targets.map (·.power)) =
        (g.withSchedule s).follow leg ∧
      s.setpoints = g.schedule.setpoints ++ targets.map (·.setpoint) := by
  induction targets generalizing g with
  | nil => exact ⟨g.schedule, ⟨g.rate, g.review⟩, rfl, (List.append_nil _).symm⟩
  | cons t rest ih =>
    obtain ⟨front, -, between⟩ := List.pairwise_append.mp sorted
    obtain ⟨s, leg, added, setpoints⟩ := add_ahead (t := t)
      (fun q hq => ahead q (List.mem_append_left _ hq))
      (ahead t.setpoint (List.mem_append_right _ List.mem_cons_self)) front
      (fun q hq => between q hq t.setpoint List.mem_cons_self)
    have all : s.setpoints ++ rest.map (·.setpoint) =
        g.schedule.setpoints ++ (t :: rest).map (·.setpoint) := by
      rw [setpoints, List.append_assoc]
      rfl
    obtain ⟨s', leg', queued, setpoints'⟩ :=
      ih (g := (g.withSchedule s).follow leg) (all ▸ ahead) (all ▸ sorted)
    refine ⟨s', leg', ?_, setpoints'.trans all⟩
    show (g.add t.time t.power).addAll _ _ = _
    rw [added, queued]
    rfl

omit [Signed α] in
/-- Whatever leg it was on, a generator with nothing due sets out on the leg toward the setpoint
ahead. -/
theorem start_ahead {time : α} (ahead : ∀ q ∈ (g.dropTo time).schedule.setpoints, time < q.time)
    (unfinished : g.mode = .midpoint → ∀ a : Approach α, a.now = time → a.last = time →
      a.rampTime = g.rampTime →
      (∃ q ∈ (g.dropTo time).schedule.setpoints, a.due = q.time) → a.Unfinished) (leg : Leg α) :
    (g.follow leg).start time =
      { (g.dropTo time).planNext with slope := (g.dropTo time).planNext.rate } := by
  have planned : ((g.dropTo time).follow leg).nextLeg = (g.dropTo time).nextLeg := by
    refine nextLeg_at_rate (fun midpoint a now last ramp => ?_) _ _
    rintro ⟨head, first, due⟩
    exact unfinished midpoint a now last ramp ⟨head, Schedule.mem_of_first? first, due⟩
  have revised : ((g.dropTo time).follow leg).replan = (g.dropTo time).planNext := by
    rw [replan_of_ahead (g := (g.dropTo time).follow leg) ahead]
    unfold planNext
    rw [planned]
    rfl
  show { ((g.dropTo time).follow leg).replan with
    slope := ((g.dropTo time).follow leg).replan.rate } = _
  rw [revised]

/-- Generators that differ in a schedule and the leg planned for it match once they are ready to
advance, if the same setpoints are left and all of them lie ahead. -/
theorem start_matches {s t : Schedule α} {time : α} (sorted : s.Sorted)
    (same : (t.dropBefore time).setpoints = (s.dropBefore time).setpoints)
    (ahead : ∀ q ∈ (s.dropBefore time).setpoints, time < q.time)
    (unfinished : g.mode = .midpoint → ∀ a : Approach α, a.now = time → a.last = time →
      a.rampTime = g.rampTime → (∃ q ∈ (s.dropBefore time).setpoints, a.due = q.time) →
      a.Unfinished)
    (leg leg' : Leg α) :
    Matches (((g.withSchedule s).follow leg).start time)
      (((g.withSchedule t).follow leg').start time) := by
  have times : ∀ q ∈ (s.dropBefore time).setpoints, isNaN q.time = false :=
    fun q hq => (Ordered.defined_of_lt (ahead q hq)).2
  have ready : Matches ((g.withSchedule s).dropTo time) ((g.withSchedule t).dropTo time) :=
    ⟨Schedule.tidy_of_sorted sorted.dropBefore times, _, same, rfl⟩
  rw [start_ahead (g := g.withSchedule s) ahead unfinished,
    start_ahead (g := g.withSchedule t) (same ▸ ahead) (same ▸ unfinished)]
  exact ready.planNext.change (fun k => { k with slope := k.rate }) (fun _ _ => rfl) rfl

/-- A blank generator queues targets that lie ahead in order; those not older than the start are
left when it is made ready. -/
theorem Blank.addAll (blank : g.Blank) (targets : List (Target α))
    (ahead : ∀ t ∈ targets, 0 < t.time) (sorted : targets.Pairwise fun t u => t.time ≤ u.time)
    (start : α) :
    ∃ queue leg, g.addAll (targets.map (·.time)) (targets.map (·.power)) =
        (g.withSchedule queue).follow leg ∧ queue.Sorted ∧
      (queue.dropBefore start).setpoints =
        (targets.filter fun t => !decide (t.time < start)).map (·.setpoint) := by
  have queued := addAll_ahead (g := g) targets
  rw [blank.empty, blank.now, List.nil_append] at queued
  obtain ⟨queue, leg, added, setpoints⟩ := queued
    (fun q hq => by
      obtain ⟨t, ht, rfl⟩ := List.mem_map.mp hq
      exact ahead t ht)
    (List.pairwise_map.mpr sorted)
  have order : queue.Sorted := by
    unfold Schedule.Sorted
    rw [setpoints]
    exact List.pairwise_map.mpr sorted
  refine ⟨queue, leg, added, order, ?_⟩
  rw [order.setpoints_dropBefore_eq, setpoints, List.filter_map]
  rfl

/-- A blank generator is made ready alike with all targets and with those not older than the
start. -/
theorem Blank.ready_matches (blank : g.Blank) {targets : List (Target α)} {start : α}
    (ahead : ∀ t ∈ targets, 0 < t.time) (sorted : targets.Pairwise fun t u => t.time ≤ u.time)
    (apart : ∀ t ∈ targets, t.time < start ∨ start < t.time)
    (unfinished : g.mode = .midpoint → ∀ a : Approach α, a.now = start → a.last = start →
      a.rampTime = g.rampTime → (∃ t ∈ targets, start < t.time ∧ a.due = t.time) → a.Unfinished)
    (dispatcher : Option Nat) :
    let kept := targets.filter fun t => !decide (t.time < start)
    Matches
      (Generator.start { g.addAll (targets.map (·.time)) (targets.map (·.power)) with dispatcher }
        start)
      (Generator.start { g.addAll (kept.map (·.time)) (kept.map (·.power)) with dispatcher }
        start) := by
  intro kept
  obtain ⟨queue, leg, added, order, left⟩ := blank.addAll targets ahead sorted start
  obtain ⟨queue', leg', added', -, left'⟩ := blank.addAll kept
    (fun t ht => ahead t (List.mem_of_mem_filter ht)) (sorted.sublist List.filter_sublist) start
  have same : (queue'.dropBefore start).setpoints = (queue.dropBefore start).setpoints := by
    rw [left', left, List.filter_filter]
    simp only [Bool.and_self]
  have later : ∀ q ∈ (queue.dropBefore start).setpoints,
      ∃ t ∈ targets, start < t.time ∧ q.time = t.time := by
    intro q hq
    rw [left] at hq
    obtain ⟨t, ht, rfl⟩ := List.mem_map.mp hq
    obtain ⟨mem, kept⟩ := List.mem_filter.mp ht
    have notStale : ¬ t.time < start := by simpa using kept
    exact ⟨t, mem, (apart t mem).resolve_left notStale, rfl⟩
  rw [added, added']
  refine start_matches (g := { g with dispatcher }) order same (fun q hq => ?_)
    (fun midpoint a now last ramp => ?_) leg leg'
  · obtain ⟨t, -, ahead, time⟩ := later q hq
    exact time ▸ ahead
  · rintro ⟨q, hq, due⟩
    obtain ⟨t, mem, ahead, time⟩ := later q hq
    exact unfinished midpoint a now last ramp ⟨t, mem, ahead, due.trans time⟩

end Generator

/-- Units whose generators match once they are ready are ready alike. -/
theorem RegulatedUnit.startWith_matches {α : Type} [Quantity α] (u : RegulatedUnit α)
    {g h : Generator α} {time : α} (ready : (g.start time).Matches (h.start time)) (level : α) :
    Matches (startWith { u with generator := g } time level)
      (startWith { u with generator := h } time level) :=
  ⟨_, ready.change (fun k => { k with output := k.base + u.holdRegulation level })
    (fun _ _ => rfl) rfl, rfl⟩

/-- Their simulations record the same rows. -/
theorem Simulation.ofUnit_rows {σ α : Type} [Quantity α] [Signed α] [CommandSource σ α]
    (number : Nat) (u : RegulatedUnit α) {g h : Generator α} (clock : Clock α) (source : Option σ)
    (calls : List (ReserveCall α)) (level : α)
    (ready : (Generator.start { g with dispatcher := some dispatcherNumber } clock.start).Matches
      (Generator.start { h with dispatcher := some dispatcherNumber } clock.start)) :
    (ofUnit number { u with generator := h } clock source calls level).run.1 =
      (ofUnit number { u with generator := g } clock source calls level).run.1 := by
  have alike : Matches (ofUnit number { u with generator := g } clock source calls level)
      (ofUnit number { u with generator := h } clock source calls level) :=
    ⟨u.startWith_matches ready level, rfl, rfl, rfl⟩
  exact alike.rows rfl

/-! ## Scenarios -/

namespace Scenario

variable {σ α : Type} [Quantity α]

/-- The scenario without the targets that are strictly older than its start. -/
def withoutStale (s : Scenario α) : Scenario α :=
  { s with targets := s.targets.filter fun t => !decide (t.time < s.timing.start) }

/-- The unit at the start, on its way to a target. -/
def approach (s : Scenario α) (t : Target α) : Approach α where
  now := s.timing.start
  last := s.timing.start
  due := t.time
  delta := t.power - s.unit.initialOutput
  rate := 0
  limitUp := s.unit.rampUp
  limitDown := s.unit.rampDown
  rampTime := s.unit.rampTime

/-- Nothing of a target that is older than the start is left by then: it lies ahead of a clock that
stands at zero, no target is due at the very start, and a midpoint ramp to one that is due later has
something left of its window. -/
structure Forgets (s : Scenario α) (t : Target α) : Prop where
  ahead : 0 < t.time
  apart : ∀ u ∈ s.targets, u.time < s.timing.start ∨ s.timing.start < u.time
  unfinished : s.rampMode? = .ok .midpoint →
    ∀ u ∈ s.targets, s.timing.start < u.time → (s.approach u).Unfinished

/-- In exact arithmetic it is enough that a stale target lies ahead of zero and that no target is
due at the start. -/
theorem forgets_exact {K : Type} [Field K] [LinearOrder K] [IsStrictOrderedRing K]
    {s : Scenario (Exact K)} (finite : ∀ v ∈ s.values, isFinite v = true) (valid : s.faults = [])
    {t : Target (Exact K)} (ahead : 0 < t.time)
    (apart : ∀ u ∈ s.targets, u.time < s.timing.start ∨ s.timing.start < u.time) : s.Forgets t := by
  refine ⟨ahead, apart, fun _ u hu later => ?_⟩
  obtain ⟨start, begins⟩ := isFinite_iff.mp (finite s.timing.start (by simp [values]))
  obtain ⟨output, initial⟩ := isFinite_iff.mp (finite s.unit.initialOutput (by simp [values]))
  obtain ⟨m, rampTime⟩ := isFinite_iff.mp (finite s.unit.rampTime (by simp [values]))
  obtain ⟨d, time⟩ := isFinite_iff.mp (target_isFinite finite hu).1
  obtain ⟨w, power⟩ := isFinite_iff.mp (target_isFinite finite hu).2
  obtain ⟨-, -, least, -⟩ := plans_of_valid valid
  rw [begins, time, fin_lt] at later
  rw [rampTime, zero_eq, fin_lt, not_lt] at least
  have between : s.approach u =
      .between start start d (w - output) 0 s.unit.rampUp s.unit.rampDown (fin m) := by
    unfold approach Approach.between
    rw [begins, time, power, initial, rampTime, fin_sub, zero_eq]
  rw [between]
  exact Approach.unfinished_between later least

variable [Signed α]

/-- Where the targets older than the start leave no trace, a scenario without faults has the rows it
has without them, whatever commands the unit is given. -/
theorem stale_targets_leave_no_trace [CommandSource σ α] {s : Scenario α} (valid : s.faults = [])
    (forgets : ∀ t ∈ s.targets, t.time < s.timing.start → s.Forgets t) (source : σ) :
    ∃ sim sim', s.simulation source = .ok sim ∧ s.withoutStale.simulation source = .ok sim' ∧
      sim'.run.1 = sim.run.1 := by
  obtain ⟨mode, known⟩ := rampMode?_of_faults_eq_nil valid
  have known' : s.withoutStale.rampMode? = .ok mode := known
  refine ⟨_, _, simulation_eq known source, simulation_eq known' source, ?_⟩
  by_cases stale : ∃ t ∈ s.targets, t.time < s.timing.start
  · obtain ⟨t, mem, early⟩ := stale
    have forgot := forgets t mem early
    have positive : ∀ u ∈ s.targets, 0 < u.time := by
      intro u hu
      rcases forgot.apart u hu with stale | later
      · exact (forgets u hu stale).ahead
      · have started : 0 < s.timing.start :=
          Ordered.lt_of_lt_of_le forgot.ahead (Ordered.le_of_lt early)
        exact Ordered.lt_of_lt_of_le started (Ordered.le_of_lt later)
    obtain ⟨blank, ofMode, rampTime⟩ := equipped_idle s.unit s.regulation mode
    have ready := blank.ready_matches positive (targets_sorted valid) forgot.apart
      (fun midpoint a now last ramp => by
        rintro ⟨u, hu, ahead, due⟩
        exact (forgot.unfinished (by rw [known, ← ofMode.symm.trans midpoint]) u hu ahead).congr
          now last due (ramp.trans rampTime)) (some Simulation.dispatcherNumber)
    have given := regulatedUnit_eq s mode
    have given' := regulatedUnit_eq s.withoutStale mode
    rw [given, given']
    dsimp only [withoutStale]
    generalize equipped s.unit s.regulation mode = u at ready ⊢
    exact Simulation.ofUnit_rows unitNumber u
      { start := s.timing.start, step := s.timing.step, total := s.timing.steps } _ _ _ ready
  · have same : s.withoutStale = s := by
      have kept : s.targets.filter (fun t => !decide (t.time < s.timing.start)) = s.targets := by
        refine List.filter_eq_self.mpr fun t ht => ?_
        simpa using fun early => stale ⟨t, ht, early⟩
      unfold withoutStale
      rw [kept]
    rw [same]

/-- In doubles, midpoint ramps: the stale target had the unit ramp down before the start, and the
command in force changes with every step. -/
theorem stale_targets_leave_no_trace_midpoint :
    let s : Scenario Float :=
      { timing := { (Timing.standard : Timing Float) with start := 600, steps := 30 }
        unit := { (UnitPlan.standard : UnitPlan Float) with mode := "midpoint", rampTime := 300 }
        regulation := { (RegulationPlan.standard : RegulationPlan Float) with
          enabled := true, upFraction := 0.1, downFraction := 0.05 }
        targets := [⟨300, 20⟩, ⟨599.9, 30⟩, ⟨1200, 80.5⟩, ⟨1800, 40⟩]
        reserveCalls := [] }
    let source : Recording Float := ⟨[0.5, -0.25, 1]⟩
    s.withoutStale.targets.length = 2 ∧ ∃ sim sim', s.simulation source = .ok sim ∧
      s.withoutStale.simulation source = .ok sim' ∧ sim'.run.1 = sim.run.1 := by
  intro s source
  have ahead : ∀ t ∈ s.targets, 0 < t.time := by decide +kernel
  have apart : ∀ u ∈ s.targets, u.time < s.timing.start ∨ s.timing.start < u.time := by
    decide +kernel
  have unfinished : ∀ u ∈ s.targets, s.timing.start < u.time → (s.approach u).Unfinished := by
    decide +kernel
  exact ⟨by decide +kernel, stale_targets_leave_no_trace (by decide +kernel)
    (fun t ht _ => ⟨ahead t ht, apart, fun _ => unfinished⟩) source⟩

/-- A target from before the clock of the unit is finished all the same: its ramp goes on after the
start. So does, at the rate of a stale one, the ramp to a target that is due at the start. -/
theorem stale_target_ramps :
    let s : Scenario (Exact ℚ) :=
      { timing := { (Timing.standard : Timing (Exact ℚ)) with steps := 2 }
        unit := .standard
        regulation := .standard
        targets := [⟨-10, 100⟩]
        reserveCalls := [] }
    let late : Scenario (Exact ℚ) :=
      { s with
        timing := { (Timing.standard : Timing (Exact ℚ)) with start := 900, steps := 2 }
        targets := [⟨600, 51⟩, ⟨900, 80⟩] }
    let committed (s : Scenario (Exact ℚ)) : Option (List (Exact ℚ)) :=
      (s.simulation (⟨[]⟩ : Recording (Exact ℚ))).toOption.map fun sim =>
        sim.run.1.map (·.committed)
    s.faults = [] ∧ committed s = some [53, 56] ∧ committed s.withoutStale = some [50, 50] ∧
      late.faults = [] ∧ committed late = some [fin (501 / 10), fin (251 / 5)] ∧
      committed late.withoutStale = some [52, 54] := by
  decide +kernel

end Scenario

end UnitDispatch
