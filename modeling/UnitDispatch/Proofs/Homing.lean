import UnitDispatch.Proofs.SimulatedCourse

/-! # Ramps lead to the setpoint ahead

A leg that is planned within limits that are not negative does not pass the setpoint it is planned
for (`Generator.ShortOf`), so the rate leads there for as long as the leg lasts. That setpoint is
the first on the schedule, or one of the generator's own that is due together with the first:
`Scenario.never_ramps_away`. Both conditions are needed: see `Scenario.ramps_away`.
-/

namespace UnitDispatch

open Quantity Exact

namespace Generator

/-! ## Which way a rate leads -/

section

variable {α : Type} [Quantity α]

/-- The rate in progress leads toward what a setpoint asks for, if it leads anywhere. -/
def LeadsTo (g : Generator α) (p : Setpoint α) : Prop :=
  0 ≤ g.rate * (g.holdTarget p.power - g.committed)

instance (g : Generator α) (p : Setpoint α) : Decidable (g.LeadsTo p) :=
  inferInstanceAs (Decidable (0 ≤ g.rate * (g.holdTarget p.power - g.committed)))

/-- Something holds of the first setpoint, or of one of the generator's own that is due with it. -/
def AtHead (g : Generator α) (P : Setpoint α → Prop) : Prop :=
  ∀ head, g.schedule.first? = some head →
    P head ∨ ∃ q ∈ g.schedule.setpoints, q.carried = true ∧ q.time = head.time ∧ P q

omit [Quantity α] in
theorem AtHead.imp {g h : Generator α} {P Q : Setpoint α → Prop} (holds : g.AtHead P)
    (schedule : h.schedule = g.schedule) (imp : ∀ p, P p → Q p) : h.AtHead Q := by
  intro head first
  rw [schedule] at first ⊢
  rcases holds head first with own | ⟨q, mem, carried, time, other⟩
  · exact .inl (imp head own)
  · exact .inr ⟨q, mem, carried, time, imp q other⟩

end

variable {K : Type} [Field K] [LinearOrder K] {g : Generator (Exact K)} {n l c ρ : K}
  {p : Setpoint (Exact K)}

/-- The leg in progress does not pass what a setpoint asks for. -/
def ShortOf (g : Generator (Exact K)) (p : Setpoint (Exact K)) : Prop :=
  ∃ n c ρ r w, g.now = fin n ∧ g.committed = fin c ∧ g.rate = fin ρ ∧ g.review = fin r ∧
    g.holdTarget p.power = fin w ∧ ρ * (r - n) ∈ Set.uIcc 0 (w - c)

variable [IsStrictOrderedRing K]

theorem ShortOf.leadsTo (short : g.ShortOf p) (ahead : g.now < g.review) : g.LeadsTo p := by
  obtain ⟨n, c, ρ, r, w, now, committed, rate, review, held, part⟩ := short
  rw [now, review, fin_lt, ← sub_pos] at ahead
  unfold LeadsTo
  rw [held, committed, rate, fin_sub, fin_mul, zero_eq, fin_le]
  rcases Set.mem_uIcc.mp part with ⟨low, high⟩ | ⟨low, high⟩
  · exact mul_nonneg (nonneg_of_mul_nonneg_left low ahead) (low.trans high)
  · exact mul_nonneg_of_nonpos_of_nonpos (nonpos_of_mul_nonpos_left high ahead) (low.trans high)

theorem ShortOf.moveTo (short : g.ShortOf p) (now : g.now = fin n) {s : K} (ahead : n < s)
    (early : fin s ≤ g.review) (before : g.now < g.review) : (g.moveTo (fin s)).ShortOf p := by
  obtain ⟨n', c, ρ, r, w, now', committed, rate, review, held, part⟩ := short
  obtain rfl : n' = n := fin.inj (now'.symm.trans now)
  rw [review, fin_le] at early
  rw [now, review, fin_lt] at before
  obtain ⟨clock, power, same⟩ := moveTo_of_le now committed rate ahead.le
  exact ⟨s, _, ρ, r, w, clock, power, same, (moveTo_review g _).trans review,
    ((moveTo_sameSettings g _).holdTarget _).trans held, short_rest before early part⟩

/-! ## Plans -/

theorem Orderly.planNext_atHead (orderly : g.Orderly n l c ρ) (workable : g.Workable)
    (ahead : ∀ p ∈ g.schedule.setpoints, g.now < p.time) :
    g.planNext.AtHead g.planNext.ShortOf := by
  intro head first
  obtain ⟨d, w, time, held, later⟩ :=
    orderly.regular.head workable.proper orderly.stands ahead first
  obtain ⟨v, r, leg, kept, -⟩ :=
    nextLeg_kept workable.toLimitsNonneg orderly first time held later
  exact .inl ⟨n, c, v, r, w, orderly.stands.now, orderly.stands.committed, congrArg Leg.rate leg,
    congrArg Leg.review leg, held, kept.short⟩

omit [IsStrictOrderedRing K] in
/-- A setpoint of the generator's own is queued no later than the first one, but behind it if both
are due together. -/
theorem Orderly.carry_atHead (orderly : g.Orderly n l c ρ) {w v : K}
    (held : g.holdTarget (fin w) = fin w) (lead : 0 < v * (w - c))
    (free : g.schedule.precedes (fin (n + (w - c) / v)) = false) :
    let h := g.carry (fin w) ⟨fin v, fin (n + (w - c) / v)⟩
    h.AtHead h.ShortOf := by
  intro h head first
  let f := n + (w - c) / v
  let own : Setpoint (Exact K) := ⟨fin f, fin w, true⟩
  have first : (g.schedule.insert own).first? = some head := first
  have mem : own ∈ (g.schedule.insert own).setpoints := Schedule.mem_insert.mpr (.inl rfl)
  have numbers : ∀ p ∈ (g.schedule.insert own).setpoints, isFinite p.time = true := by
    intro p hp
    rcases Schedule.mem_insert.mp hp with rfl | old
    · exact isFinite_fin f
    · exact orderly.times p old
  have sorted : (g.schedule.insert own).Sorted :=
    orderly.sorted.insert orderly.times (isFinite_fin f)
  have listed := Schedule.mem_of_first? first
  obtain ⟨d, time⟩ := isFinite_iff.mp (numbers head listed)
  have together : d = f := by
    refine le_antisymm ?_ ?_ <;> rw [← fin_le, ← time]
    · exact sorted.first?_le first (numbers head listed) mem
    · rcases Schedule.mem_insert.mp listed with rfl | old
      · exact fin_le.mpr le_rfl
      · exact le_of_not_precedes orderly.sorted orderly.times free head old
  refine .inr ⟨own, mem, rfl, ?_, n, c, v, f, w, orderly.stands.now, orderly.stands.committed, rfl,
    rfl, held, ?_⟩
  · rw [time, together]
  · rw [add_sub_cancel_left, mul_div_cancel₀ _ (left_ne_zero_of_mul lead.ne')]
    exact Set.right_mem_uIcc

theorem Orderly.replan_atHead (orderly : g.Orderly n l c ρ) (workable : g.Workable) :
    g.replan.AtHead g.replan.ShortOf := by
  have revises := replan_revises orderly.regular workable.proper orderly.stands
  have later := orderly.regular.takeDue_ahead
  obtain ⟨l', taken⟩ := orderly.takeDue
  generalize g.replan = h at revises ⊢
  cases revises with
  | ahead ahead => exact orderly.planNext_atHead workable ahead
  | next => exact taken.planNext_atHead workable.takeDue later
  | carry due held lead rate free => exact taken.carry_atHead (holdTarget_fin held) lead free
  | jump => exact (taken.jump _).planNext_atHead (workable.takeDue.jump _) later

theorem atHead_lasting : Lasting fun g : Generator (Exact K) => g.AtHead g.ShortOf where
  call _ holds := holds
  withOutput _ _ holds := holds
  move course holds ahead early := holds.imp (moveTo_schedule _ _) fun _ short =>
    short.moveTo course.stands.now ahead early course.now_lt_review
  replan ready workable _ := ready.toOrderly.replan_atHead workable

/-- Made ready to advance, a generator makes for what is ahead. -/
theorem OnCourse.start_atHead (course : g.OnCourse n l c ρ) (workable : g.Workable) (t : K) :
    (g.start (fin t)).AtHead (g.start (fin t)).ShortOf := by
  let h := { g with schedule := g.schedule.dropBefore (fin t), now := fin t, last := fin t }
  have orderly : h.Orderly t t c ρ := course.toOrderly.restart t
  have fit : h.Workable := workable.of_same ⟨rfl, rfl, rfl, rfl, rfl, rfl⟩ fun p hp =>
    workable.targets p (Schedule.mem_of_mem_dropBefore hp)
  exact orderly.replan_atHead fit

end Generator

namespace Scenario

variable {K : Type} [Field K] [LinearOrder K] [IsStrictOrderedRing K] {s : Scenario (Exact K)}

/-- In a scenario with finite numbers and no faults, with ramp limits that cover regulation and
reserve: whatever commands the unit is given, after every step its generator ramps toward the
setpoint ahead, or toward one of its own that is due together with it. -/
theorem never_ramps_away {σ : Type} [CommandSource σ (Exact K)]
    (finite : ∀ v ∈ s.values, isFinite v = true) (valid : s.faults = []) (ramps : s.RampsLeft)
    (source : σ) :
    ∃ sim, s.simulation source = .ok sim ∧ ∀ k ≤ s.timing.steps,
      let g := (sim.steps (sim.clock.remaining.take k)).2.unit.generator
      g.AtHead g.LeadsTo := by
  obtain ⟨start, step, begins, positive, after⟩ := after_of_valid finite valid
  obtain ⟨sim, built, -, steps⟩ :=
    simulation_steps Generator.atHead_lasting finite valid ramps begins positive after
      (fun mode _ => by
        obtain ⟨⟨n, l, c, ρ, course⟩, workable, -⟩ := supplied_going finite valid ramps mode
        rw [begins]
        exact course.start_atHead workable start) source
  refine ⟨sim, built, fun k hk => ?_⟩
  obtain ⟨-, there⟩ := steps k hk
  obtain ⟨l, c, ρ, course⟩ := there.unit.course
  exact there.unit.holds.imp rfl fun _ short => short.leadsTo course.now_lt_review

/-- The ramp to 80 is finished by a setpoint of the generator's own, due together with the target of
0 behind which it is queued. -/
theorem never_ramps_away_together :
    let s : Scenario (Exact ℚ) :=
      { timing := { (Timing.standard : Timing (Exact ℚ)) with steps := 3 }
        unit := { (UnitPlan.standard : UnitPlan (Exact ℚ)) with
          initialOutput := 0, rampUp := 1.02, rampDown := 1.01, reserveAvailable := 9 }
        regulation := { (RegulationPlan.standard : RegulationPlan (Exact ℚ)) with
          enabled := true, upFraction := 0.1, downFraction := 0.1, rating := 60 }
        targets := [⟨60, 80⟩, ⟨80, 0⟩, ⟨200, 20⟩]
        reserveCalls := [⟨100, 5, false⟩] }
    let source : Recording (Exact ℚ) := ⟨[0.5, -1, 1]⟩
    ∃ sim, s.simulation source = .ok sim ∧
      let generator k := (sim.steps (sim.clock.remaining.take k)).2.unit.generator
      (∀ k ≤ 3, (generator k).AtHead (generator k).LeadsTo) ∧
        (List.range 4).map (fun k => (generator k).rate) =
          [1, 1, fin (-1 / 2), fin (-1 / 2)] := by
  intro s source
  have rates : ((s.simulation source).toOption.map fun sim => (List.range 4).map fun k =>
      (sim.steps (sim.clock.remaining.take k)).2.unit.generator.rate) =
        some [1, 1, fin (-1 / 2), fin (-1 / 2)] := by decide +kernel
  obtain ⟨sim, built, toward⟩ := never_ramps_away (s := s) (by decide +kernel) (by decide +kernel)
    (by decide +kernel) source
  rw [built] at rates
  exact ⟨sim, built, toward, Option.some.inj rates⟩

/-- A reserve for which the upward ramp limit leaves no room turns the ramp around, and a ramp of
the generator's own goes on to the moment at which a target on the other side is due. -/
theorem ramps_away :
    let withheld : Scenario (Exact ℚ) :=
      { timing := { (Timing.standard : Timing (Exact ℚ)) with steps := 2 }
        unit := { (UnitPlan.standard : UnitPlan (Exact ℚ)) with
          initialOutput := 0, rampUp := 0.01, reserveAvailable := 50 }
        regulation := .standard
        targets := [⟨3600, 50⟩]
        reserveCalls := [] }
    let together : Scenario (Exact ℚ) :=
      { withheld with
        unit := { (UnitPlan.standard : UnitPlan (Exact ℚ)) with
          initialOutput := 0, rampUp := 1, rampDown := 1 }
        targets := [⟨60, 100⟩, ⟨100, 0⟩] }
    let heading (s : Scenario (Exact ℚ)) :=
      (s.simulation (⟨[]⟩ : Recording (Exact ℚ))).toOption.map fun sim =>
        let g := (sim.steps (sim.clock.remaining.take 1)).2.unit.generator
        (g.schedule.first?.map fun head => (head.power, decide (g.LeadsTo head)), g.rate,
          g.committed)
    withheld.faults = [] ∧ (∀ v ∈ withheld.values, isFinite v = true) ∧
      heading withheld = some (some (50, false), fin (-41 / 900), fin (-41 / 15)) ∧
      together.faults = [] ∧ (∀ v ∈ together.values, isFinite v = true) ∧ together.RampsLeft ∧
      heading together = some (some (0, false), 1, 60) := by
  decide +kernel

end Scenario

end UnitDispatch
