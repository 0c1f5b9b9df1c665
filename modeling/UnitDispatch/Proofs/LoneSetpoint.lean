import UnitDispatch.Proofs.RampLegs

/-! # Delivering a lone setpoint

A generator at rest that is given one setpoint rests on until an outset, moves at a steady rate
until the power is reached, be it after the setpoint is due, and then rests: `tracks_ramp` says that
its committed power is never further from the ramp of its mode than the tolerance. For each mode,
the leg that is planned when the setpoint is queued is the first one of that ramp.
-/

namespace UnitDispatch

open Quantity Exact

namespace Generator

variable {K : Type} [Field K] [LinearOrder K] [IsStrictOrderedRing K] {g : Generator (Exact K)}
  {d n l c ρ m : K}

/-! ## Setting out -/

/-- A pace toward a power that is missing, held within limits, leads there. -/
theorem limit_leads {up down : Exact K} {δ σ : K} (hu : 0 < up) (hd : 0 < down) (hδ : δ ≠ 0)
    (pos : 0 < σ) :
    ∃ v, limit (-down) up (fin (δ / σ)) = fin v ∧ -down ≤ fin v ∧ fin v ≤ up ∧ 0 < v * δ ∧
      v * σ ∈ Set.uIcc 0 δ := by
  obtain ⟨v, hv, low, high, part⟩ := limit_spec (le_of_lt hd) (le_of_lt hu) (δ / σ)
  have moves : v ≠ 0 := by
    rintro rfl
    rw [zero_eq] at hu hd
    rcases limit_eq_or (-down) up (fin (δ / σ)) with h | h | h <;> rw [hv] at h
    · exact div_ne_zero hδ pos.ne' (fin.inj h).symm
    · exact lt_irrefl _ (fin_lt.mp (h.symm ▸ hu))
    · cases down with
      | fin b => exact lt_irrefl _ ((fin.inj h).trans_lt (neg_lt_zero.mpr (fin_lt.mp hd)))
      | posInf | negInf | nan => cases h
  have asked : 0 < δ / σ * δ := by
    rw [div_mul_eq_mul_div]
    exact div_pos (mul_self_pos.mpr hδ) pos
  refine ⟨v, hv, low, high, ?_, mul_mem_uIcc_of_div part pos.ne'⟩
  have := div_pos_of_mem_uIcc part moves asked
  rw [← div_mul_cancel₀ δ moves, mul_comm (δ / v), ← mul_assoc]
  exact mul_pos (mul_self_pos.mpr moves) this

/-- What a mode has to work with: limits that let it move, and a power to deliver in time. -/
structure Assigned (g : Generator (Exact K)) (c d w n : K) : Prop where
  up : 0 < g.rampLimitUp
  down : 0 < g.envelope.rampDown
  rampTime : 0 < g.rampTime
  later : n < d
  held : g.holdTarget (fin w) = fin w
  apart : ¬ |w - c| < 1 / 10 ^ 4

omit [IsStrictOrderedRing K] in
/-- The ramp of a generator, in numbers. -/
theorem ramp_eq {w ω σ v : K} (now : g.now = fin n) (committed : g.committed = fin c)
    (wait : g.mode.wait g.rampTime (fin (d - n)) = fin ω) (pos : 0 < σ)
    (duration : g.mode.duration (fin (w - c)) (if 0 < w - c then g.rampLimitUp
      else g.envelope.rampDown) g.rampTime (fin (d - n)) = fin σ)
    (pace : limit (-g.envelope.rampDown) g.rampLimitUp (fin ((w - c) / σ)) = fin v) :
    g.ramp (fin d) (fin w) = Ramp.exact ⟨n + ω, c, w, v⟩ := by
  have bound : (if (0 : Exact K) < fin (w - c) then g.rampLimitUp else g.envelope.rampDown) =
      if 0 < w - c then g.rampLimitUp else g.envelope.rampDown := by
    rw [zero_eq]
    exact if_congr fin_lt rfl rfl
  unfold ramp
  dsimp only
  rw [now, committed, fin_sub, fin_sub, wait, bound, duration, fin_div _ pos.ne', pace, fin_add]
  rfl

/-- A mode that sets out at once. -/
theorem Assigned.tracks_at_once {w σ : K} (assigned : g.Assigned c d w n)
    (stance : g.Stance [setpointOf (d, w)] n l c ρ) (pos : 0 < σ) (le : n + σ ≤ d)
    (wait : g.mode.wait g.rampTime (fin (d - n)) = fin 0)
    (duration : g.mode.duration (fin (w - c)) (if 0 < w - c then g.rampLimitUp
      else g.envelope.rampDown) g.rampTime (fin (d - n)) = fin σ)
    (leg : g.mode.leg (.between n l d (w - c) ρ g.rampLimitUp g.envelope.rampDown g.rampTime) =
      ⟨limit (-g.envelope.rampDown) g.rampLimitUp (fin ((w - c) / σ)), fin (n + σ)⟩)
    (full : n + σ = d ∨ limit (-g.envelope.rampDown) g.rampLimitUp (fin ((w - c) / σ)) =
      fin ((w - c) / σ)) :
    ∃ r : Ramp K, g.ramp (fin d) (fin w) = r.exact ∧ g.planNext.Tracks r d n := by
  obtain ⟨v, pace, low, high, lead, short⟩ :=
    limit_leads assigned.up assigned.down (ne_zero_of_apart assigned.apart) pos
  have same := (follow_samePlant g g.nextLeg).sameSettings
  let r : Ramp K := ⟨n, c, w, v⟩
  have takes : g.Takes r := ⟨assigned.held, assigned.apart, lead, low, high⟩
  -- the leg ends when the setpoint is due or, at the pace asked for, when the goal is reached
  have arrival : min r.arrival d = n + σ := by
    rcases full with whole | full
    · have := takes.leads.le_arrival short
      rw [whole] at this ⊢
      exact min_eq_right this
    · obtain rfl : v = (w - c) / σ := fin.inj (pace.symm.trans full)
      have : r.arrival = n + σ := by
        show n + (w - c) / ((w - c) / σ) = n + σ
        rw [div_div_cancel₀ (ne_zero_of_apart assigned.apart)]
      rw [this, min_eq_left le]
  have ramp := ramp_eq stance.now stance.committed wait pos duration pace
  rw [add_zero] at ramp
  have heads : g.planNext.Heads [setpointOf (d, w)] (fin (min r.arrival d)) n l (r.along n) v := by
    rw [arrival, show r.along n = c from r.along_outset]
    refine stance.planNext ?_ (fin_lt.mpr (lt_add_of_pos_right n pos))
    rw [stance.nextLeg assigned.held, if_neg assigned.apart, leg, pace]
  exact ⟨r, ramp, takes.of_same same, 2, by decide, .ramping le_rfl heads⟩

/-- A mode that waits for its window. -/
theorem Assigned.tracks_windowed {w : K} (assigned : g.Assigned c d w n)
    (stance : g.Stance [setpointOf (d, w)] n n c ρ) (mode : g.mode = .midpoint)
    (rampTime : g.rampTime = fin m) (early : m < d - n) :
    ∃ r : Ramp K, g.ramp (fin d) (fin w) = r.exact ∧ g.planNext.Tracks r d n := by
  have pos : 0 < m := by simpa [rampTime] using assigned.rampTime
  obtain ⟨v, pace, low, high, lead, short⟩ :=
    limit_leads assigned.up assigned.down (ne_zero_of_apart assigned.apart) pos
  have same := (follow_samePlant g g.nextLeg).sameSettings
  let r : Ramp K := ⟨n + (d - n - m) / 2, c, w, v⟩
  have takes : g.Takes r := ⟨assigned.held, assigned.apart, lead, low, high⟩
  have wait : g.mode.wait g.rampTime (fin (d - n)) = fin ((d - n - m) / 2) := by
    rw [mode, rampTime]
    show (if (fin m : Exact K) ≤ fin (d - n) then _ else _) = _
    rw [if_pos (fin_le.mpr early.le), fin_sub, two_eq, fin_div _ two_ne_zero]
  have duration : g.mode.duration (fin (w - c)) (if 0 < w - c then g.rampLimitUp
      else g.envelope.rampDown) g.rampTime (fin (d - n)) = fin m := by
    rw [mode, rampTime]
    exact if_pos (fin_le.mpr early.le)
  have window : g.Windowed r n d m :=
    { mode, rampTime, positive := pos, opens := rfl, closes := by
        show n + (d - n - m) / 2 + m < d
        linarith
      pace, short := takes.leads.le_arrival short }
  have ahead : n < r.outset := by
    show n < n + (d - n - m) / 2
    linarith
  refine ⟨r, ramp_eq stance.now stance.committed wait pos duration pace, takes.of_same same, 4,
    le_rfl, .waiting (window.of_same same) (stance.planNext ?_ (fin_lt.mpr ahead))⟩
  rw [stance.nextLeg assigned.held, if_neg assigned.apart, mode, rampTime]
  show Approach.centred _ = _
  rw [Approach.centred_between, if_pos early.le]
  exact if_pos ahead

/-- With no time for a window, a centred ramp is a steady one. -/
theorem centred_of_short {up down rampTime : Exact K} {δ : K} (hnd : n < d)
    (pos : 0 < rampTime) (short : ¬ rampTime ≤ fin (d - n)) :
    (Approach.between n n d δ ρ up down rampTime).centred =
      (Approach.between n n d δ ρ up down rampTime).steady := by
  obtain ⟨m, -, rfl⟩ | rfl := eq_of_nonneg (le_of_lt pos)
  · have long : d - n < m := not_le.mp fun le => short (fin_le.mpr le)
    have late : n < Approach.opens n d m + m := by
      have : 0 < m := by simpa using pos
      show n < n + (d - n - m) / 2 + m
      linarith
    rw [Approach.centred_between, if_neg long.not_ge]
    exact if_neg late.not_ge
  · exact Approach.centred_between_posInf

/-- A window that takes all the time left is open. -/
theorem centred_of_whole {up down : Exact K} {δ : K} (hnd : n < d) :
    (Approach.between n n d δ ρ up down (fin (d - n))).centred =
      ⟨limit (-down) up (fin (δ / (d - n))), fin d⟩ := by
  have opens : Approach.opens n d (d - n) = n := by
    unfold Approach.opens
    rw [sub_self, zero_div, add_zero]
  rw [Approach.centred_between, opens, if_pos le_rfl, if_neg (lt_irrefl n), add_sub_cancel]
  exact if_pos hnd

/-- The centred mode sets out at once if there is no time for a window, or no more than that. -/
theorem Assigned.tracks_centred {w : K} (assigned : g.Assigned c d w n)
    (stance : g.Stance [setpointOf (d, w)] n n c ρ) (mode : g.mode = .midpoint) :
    ∃ r : Ramp K, g.ramp (fin d) (fin w) = r.exact ∧ g.planNext.Tracks r d n := by
  have left : 0 < d - n := sub_pos.mpr assigned.later
  have whole : n + (d - n) = d := add_sub_cancel n d
  by_cases fits : g.rampTime ≤ fin (d - n)
  · obtain ⟨m, -, rampTime⟩ | endless := eq_of_nonneg (le_of_lt assigned.rampTime)
    · rw [rampTime] at fits
      rcases (fin_le.mp fits).eq_or_lt with rfl | early
      · refine assigned.tracks_at_once stance left whole.le ?_ ?_ ?_ (.inl whole)
        · rw [mode, rampTime]
          show (if (fin (d - n) : Exact K) ≤ fin (d - n) then _ else _) = _
          rw [if_pos fits, fin_sub, sub_self, two_eq, fin_div _ two_ne_zero, zero_div]
        · rw [mode, rampTime]
          exact if_pos fits
        · rw [mode, rampTime, whole]
          exact centred_of_whole assigned.later
      · exact assigned.tracks_windowed stance mode rampTime early
    · exact (not_posInf_le_fin _ (endless ▸ fits)).elim
  · refine assigned.tracks_at_once stance left whole.le ?_ ?_ ?_ (.inl whole)
    · rw [mode, ← zero_eq]
      exact if_neg fits
    · rw [mode]
      exact if_neg fits
    · rw [mode, whole, ← Approach.steady_between assigned.later]
      exact centred_of_short assigned.later assigned.rampTime fits

/-- In the delayed mode, the time meant for a ramp is what the limits make of the ramp time. -/
theorem duration_delayed {up down rampTime : Exact K} {δ : K} (hu : 0 < up) (hd : 0 < down)
    (ht : 0 < rampTime) (hnd : n < d) (l ρ : K) :
    RampMode.delayed.duration (fin δ) (if 0 < δ then up else down) rampTime (fin (d - n)) =
      (Approach.between n l d δ ρ up down rampTime).stretch := by
  have bound : 0 < if 0 < δ then up else down := by
    split
    · exact hu
    · exact hd
  have left : (0 : Exact K) < fin (d - n) := by
    rw [zero_eq]
    exact fin_lt.mpr (sub_pos.mpr hnd)
  have pos := lesser_pos (greater_pos (fin |δ| / if 0 < δ then up else down) ht) left
  rw [Approach.stretch_between]
  dsimp only
  rw [if_pos bound, if_neg (not_le_of_lt pos)]
  rfl

/-- Whatever the mode, a generator given a lone setpoint tracks its ramp. -/
theorem Assigned.tracks {w : K} (assigned : g.Assigned c d w n)
    (stance : g.Stance [setpointOf (d, w)] n n c ρ) :
    ∃ r : Ramp K, g.ramp (fin d) (fin w) = r.exact ∧ g.planNext.Tracks r d n := by
  have left : 0 < d - n := sub_pos.mpr assigned.later
  have whole : n + (d - n) = d := add_sub_cancel n d
  have nonneg := le_of_lt assigned.up
  have nonneg' := le_of_lt assigned.down
  cases mode : g.mode with
  | midpoint => exact assigned.tracks_centred stance mode
  | delayed =>
    obtain ⟨σ, stretch, pos, le, within⟩ := Approach.stretch_spec (δ := w - c) n ρ
      (negInf_lt_of_nonneg nonneg) (negInf_lt_of_nonneg nonneg')
      (negInf_lt_of_nonneg (le_of_lt assigned.rampTime)) assigned.later
    refine assigned.tracks_at_once stance pos (le_sub_iff_add_le'.mp le) ?_ ?_ ?_ ?_
    · rw [mode, ← zero_eq]
      rfl
    · rw [mode, ← stretch]
      exact duration_delayed assigned.up assigned.down assigned.rampTime assigned.later n ρ
    · rw [mode]
      exact Approach.prompt_between pos stretch
    · rcases le.eq_or_lt with rfl | early
      · exact .inl whole
      · exact .inr (Approach.limit_eq_pace nonneg nonneg' pos (within early))
  | interpolated | justInTime | onTargetRamp =>
    refine assigned.tracks_at_once stance left whole.le ?_ ?_ ?_ (.inl whole)
    · rw [mode, ← zero_eq]
      rfl
    · rw [mode]
      rfl
    · rw [mode, whole]
      exact Approach.steady_between assigned.later

omit [IsStrictOrderedRing K] in
/-- A generator made ready with nothing on its schedule rests. -/
theorem start_of_empty (empty : g.schedule.setpoints = []) (committed : g.committed = fin c) :
    (g.start (fin n)).Heads [] posInf n n c 0 := by
  let h := { g with schedule := g.schedule.dropBefore (fin n), now := fin n, last := fin n }
  have none : h.schedule.setpoints = [] := by
    show (g.schedule.dropBefore (fin n)).setpoints = []
    rw [Schedule.setpoints_dropBefore, empty, List.drop_nil]
  have idle : h.nextLeg = ⟨fin 0, posInf⟩ := by
    rw [nextLeg_idle none, zero_eq]
    rfl
  have plan : h.replan = h.planNext := by
    refine replan_of_ahead ?_
    rw [none]
    exact nofun
  have start : g.start (fin n) = { h.planNext with slope := h.planNext.rate } := by
    rw [← plan]
    rfl
  rw [start]
  exact ⟨⟨⟨rfl, rfl, committed, congrArg Leg.rate idle⟩, none⟩, congrArg Leg.review idle,
    fin_lt_posInf n⟩

omit [IsStrictOrderedRing K] in
/-- The first setpoint for a generator at rest is planned for at once. -/
theorem Heads.add_eq (heads : g.Heads [] posInf n l c ρ) (later : n < d) (w : K) :
    let h := { g with schedule := g.schedule.insert (setpointOf (d, w)), review := fin d }
    g.add (fin d) (fin w) = h.planNext ∧ h.Stance [setpointOf (d, w)] n l c ρ := by
  intro h
  have queued : h.schedule.setpoints = [setpointOf (d, w)] := by
    show (g.schedule.insert _).setpoints = _
    rw [Schedule.setpoints_insert, heads.queued]
    simp
  have stance : h.Stance [setpointOf (d, w)] n l c ρ :=
    ⟨⟨heads.now, heads.last, heads.committed, heads.rate⟩, queued⟩
  refine ⟨?_, stance⟩
  rw [← stance.replan_of_ahead (by simpa [setpointOf] using later)]
  unfold Generator.add
  dsimp only
  rw [heads.review, if_pos (fin_lt_posInf d)]
  exact if_pos (by simp)

/-- A generator made ready with nothing on its schedule and then given a setpoint within its power
limits, less what it holds for the reserve, keeps its committed power within the tolerance of the
ramp of its mode, whatever times it is advanced to. The limits need not be finite. -/
theorem tracks_ramp {w : K} (empty : g.schedule.setpoints = []) (committed : g.committed = fin c)
    (up : 0 < g.rampLimitUp) (down : 0 < g.envelope.rampDown) (rampTime : 0 < g.rampTime)
    (later : n < d) (low : g.envelope.powerMin ≤ fin w)
    (high : fin w ≤ g.envelope.powerMax - g.reserve.available)
    (apart : tolerance ≤ magnitude (fin w - fin c : Exact K)) (times : List K) :
    let start := g.start (fin n)
    let h := times.foldl (fun g t => g.advance (fin t)) (start.add (fin d) (fin w))
    h.now = fin (times.foldl max n) ∧
      magnitude (h.committed - (start.ramp (fin d) (fin w)).power h.now) < tolerance := by
  intro start h
  have same : SameSettings g start := start_sameSettings g (fin n)
  have rests : start.Heads [] posInf n n c 0 := start_of_empty empty committed
  obtain ⟨add, stance⟩ := rests.add_eq later w
  have far : ¬ |w - c| < 1 / 10 ^ 4 := by
    rw [tolerance_eq, fin_sub, magnitude_fin, fin_le] at apart
    exact apart.not_gt
  have assigned : start.Assigned c d w n := by
    refine ⟨?_, ?_, ?_, later, ?_, far⟩
    · rwa [same.rampLimitUp]
    · rwa [same.envelope]
    · rwa [same.rampTime]
    · rw [same.holdTarget]
      exact limit_eq_self low high
  have assigned' : Assigned
      { start with schedule := start.schedule.insert (setpointOf (d, w)), review := fin d } c d w n :=
    ⟨assigned.up, assigned.down, assigned.rampTime, later, assigned.held, far⟩
  obtain ⟨r, ramp, tracks⟩ := assigned'.tracks stance
  rw [← add] at tracks
  obtain ⟨takes, k, -, phase⟩ := tracks.advances times
  obtain ⟨p, now, power, near⟩ := phase.committed takes.leads
  refine ⟨now, ?_⟩
  rw [show start.ramp (fin d) (fin w) = r.exact from ramp, now, power, takes.leads.power_exact,
    fin_sub, magnitude_fin, tolerance_eq]
  exact fin_lt.mpr near

/-- A centred ramp up that the limits make longer than its window, and that goes on after the
setpoint is due. -/
theorem tracks_ramp_overdue :
    let g := (idle (fin (10 : ℚ))).run [.setMode .midpoint, .set .rampTime 20,
      .setRampLimits 1 2, .setPowerLimits 0 100, .holdReserve 30]
    let h := [10, 30, 47, 46, 60].foldl (fun g t => g.advance (fin t))
      ((g.start (fin 5)).add (fin 45) (fin 60))
    h.now = fin 60 ∧ magnitude (h.committed - fin (107 / 2)) < tolerance := by
  intro g h
  have tracks := tracks_ramp (g := g) (n := 5) (c := 10) (d := 45) (w := 60) (by decide +kernel)
    (by decide +kernel) (by decide +kernel) (by decide +kernel) (by decide +kernel)
    (by decide +kernel) (by decide +kernel) (by decide +kernel) (by decide +kernel)
    [10, 30, 47, 46, 60]
  have time : [(10 : ℚ), 30, 47, 46, 60].foldl max 5 = 60 := by decide +kernel
  have power : ((g.start (fin 5)).ramp (fin 45) (fin 60)).power (fin 60) = fin (107 / 2) := by
    decide +kernel
  obtain ⟨now, near⟩ := tracks
  rw [time] at now
  refine ⟨now, ?_⟩
  rwa [now, power] at near

end Generator

end UnitDispatch
