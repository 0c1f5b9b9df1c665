import UnitDispatch.Proofs.Balance
import UnitDispatch.Proofs.History

/-! # Ramp limits

However many reviews an advance goes through, neither committed power nor output moves faster than
the ramp limits allow. Nothing but an advance moves them at all.
-/

namespace UnitDispatch

open Quantity Exact

namespace Generator

/-- From `g` to `h`, committed power and output have moved within the ramp limits of `g`. -/
structure WithinRamps {α : Type} [Quantity α] (g h : Generator α) : Prop where
  committed_low : -g.envelope.rampDown * (h.now - g.now) ≤ h.committed - g.committed
  committed_high : h.committed - g.committed ≤ g.envelope.rampUp * (h.now - g.now)
  output_low : -g.envelope.rampDown * (h.now - g.now) ≤ h.output - g.output
  output_high : h.output - g.output ≤ g.envelope.rampUp * (h.now - g.now)

variable {K : Type} [Field K] [LinearOrder K] [IsStrictOrderedRing K]
  {g g₀ h : Generator (Exact K)} {n l c ρ y u d x t : K}

/-! ## The balance on course -/

theorem balanced_keptByPlans : KeptByPlans g₀ (Balanced x) where
  stable := by
    intro g h same balanced
    exact balanced.of_same same
  replan := by
    intro h n l c ρ _ ready workable balanced
    exact balanced.replan ready.regular workable.proper

theorem balanced_keptByLegs (available : isFinite g₀.reserve.available = true) :
    KeptByLegs g₀ t (Balanced x) where
  move := by
    intro h n l c ρ s same course workable balanced _ _ _
    refine balanced.moveTo course.stands.now course.stands.rate workable.proper.rampUp
      workable.proper.rampDown (course.called.isFinite_requested ?_) s
    rw [same.available]
    exact available
  replan := by
    intro h n l c ρ _ ready workable _ balanced
    exact balanced.replan ready.regular workable.proper

/-- A generator with a history is on course and in balance. -/
theorem Reaches.balanced {o : K}
    (reaches : Reaches (fun g => g.Workable ∧ isFinite g.reserve.available = true) Suits
      (idle (fin o)) g) : (∃ n l c ρ, g.OnCourse n l c ρ) ∧ g.Balanced 0 := by
  induction reaches with
  | start => exact ⟨⟨0, 0, o, 0, idle_onCourse o⟩, o, 0, rfl, zero_eq, by simp [idle]⟩
  | @act g a reaches suits after ih =>
    obtain ⟨⟨n, l, c, ρ, course⟩, balanced⟩ := ih
    obtain ⟨workable, available⟩ := reaches.holds
    refine course.act workable suits after.1 balanced_keptByPlans balanced ?_
    intro t named
    subst named
    obtain ⟨t, rfl⟩ := isFinite_iff.mp (suits.times t List.mem_cons_self)
    obtain ⟨_, _, _, _, still⟩ :=
      course.advance workable (balanced_keptByLegs available) balanced
    exact still

/-! ## Finite limits -/

/-- The ramp limits are `u` and `d`. -/
structure Ramps (u d : K) (g : Generator (Exact K)) : Prop where
  up : g.envelope.rampUp = fin u
  down : g.envelope.rampDown = fin d

omit [Field K] [LinearOrder K] [IsStrictOrderedRing K] in
theorem Ramps.of_same (ramps : g.Ramps u d) (same : SameSettings g h) : h.Ramps u d :=
  ⟨by rw [same.envelope]; exact ramps.up, by rw [same.envelope]; exact ramps.down⟩

/-- What is left of a finite upward limit is finite, if it is not negative. -/
theorem Ramps.limitUp (ramps : g.Ramps u d) (limitUp : 0 ≤ g.rampLimitUp)
    (called : g.reserve.Called) : isFinite g.rampLimitUp = true := by
  have below := rampLimitUp_le called limitUp
  rw [ramps.up] at below
  obtain ⟨v, -, hv⟩ | hv := eq_of_nonneg limitUp
  · rw [hv]
    exact isFinite_fin v
  · rw [hv] at below
    exact (not_posInf_le_fin u below).elim

omit [IsStrictOrderedRing K] in
/-- Under finite limits a setpoint is caught up with by a ramp, if at all. -/
theorem Ramps.catchupRate (ramps : g.Ramps u d) (limitUp : isFinite g.rampLimitUp = true)
    (stands : g.At n l c ρ) (w : K) : isInfinite (g.catchupRate (fin w)) = false := by
  obtain ⟨v, hv⟩ := isFinite_iff.mp limitUp
  rw [catchupRate_eq stands, ramps.up, ramps.down, hv]
  split_ifs
  · exact isInfinite_fin ρ
  · exact isInfinite_fin v
  · exact isInfinite_fin u
  · exact isInfinite_fin (-d)

/-- Under finite limits a revision of the plan moves nothing. -/
theorem Ramps.replan_samePower (ramps : g.Ramps u d) (limitUp : isFinite g.rampLimitUp = true)
    (regular : g.Regular) (proper : g.Proper) : SamePower g g.replan := by
  obtain ⟨n, l, c, ρ, stands⟩ := regular.stands
  obtain ⟨l', taken, -⟩ := stands.takeDue regular.times
  have revises := replan_revises regular proper stands
  generalize g.replan = h at revises ⊢
  cases revises with
  | ahead => exact ⟨rfl, rfl, rfl⟩
  | next => exact ⟨rfl, rfl, rfl⟩
  | carry => exact ⟨rfl, rfl, rfl⟩
  | @jump p w due held rate =>
    have ramps' : g.takeDue.Ramps u d := ⟨ramps.up, ramps.down⟩
    rw [ramps'.catchupRate limitUp taken] at rate
    cases rate

/-- A generator that keeps to finite limits is not moved by a revision of its plan. -/
theorem Ramps.replan (ramps : g.Ramps u d) (ready : g.Ready n l c ρ) (workable : g.Workable) :
    SamePower g g.replan :=
  ramps.replan_samePower (ramps.limitUp workable.limitUp ready.called) ready.regular
    workable.proper

/-! ## Advances -/

/-- Since `n`, committed power has moved from `c` and the output from `o` within the limits `u` and
`d`. -/
def Ramped (u d n c o : K) (g : Generator (Exact K)) : Prop :=
  ∃ n' c' y, g.now = fin n' ∧ g.Carries c' y 0 ∧
    c' - c ∈ Set.Icc (-d * (n' - n)) (u * (n' - n)) ∧
    c' + y - o ∈ Set.Icc (-d * (n' - n)) (u * (n' - n))

/-- Each leg adds to the time that has gone by and, within the limits, to the power. -/
theorem ramped_keptByLegs (ramps : g₀.Ramps u d) (available : isFinite g₀.reserve.available = true)
    (o : K) : KeptByLegs g₀ t (Ramped u d n c o) where
  replan := by
    rintro h n₁ l c₁ ρ same ready workable - ⟨n', c', y, now, carries, committed, output⟩
    have power := (ramps.of_same same).replan ready workable
    exact ⟨n', c', y, (replan_samePlant h).now.trans now, ⟨power.committed.trans carries.committed,
      power.realized.trans carries.realized, power.output.trans carries.output⟩, committed, output⟩
  move := by
    rintro h n₁ l c₁ ρ s same course workable ⟨n', c', y, now, carries, committed, output⟩ ahead - -
    obtain rfl : n' = n₁ := by simpa using now.symm.trans course.stands.now
    have ramps := ramps.of_same same
    have gone : 0 < s - n' := sub_pos.mpr ahead
    obtain ⟨q, requested⟩ := isFinite_iff.mp
      (course.called.isFinite_requested (by rw [same.available]; exact available))
    obtain ⟨z, hz, -, low, high⟩ := reserveAfter_rated workable.proper course.rated
      course.stands.rate carries.realized requested gone
    -- committed power moves by the leg alone, the output by the leg and the reserve together
    have up := fin_le_mul (course.stands.rate ▸ course.rated.up) gone
    have down := mul_le_fin (course.stands.rate ▸ course.rated.down) gone
    rw [ramps.up, fin_mul, fin_le] at high up
    rw [ramps.down, neg_fin, fin_mul, fin_le] at low down
    obtain ⟨least, most⟩ := committed
    obtain ⟨least', most'⟩ := output
    refine ⟨s, c' + ρ * (s - n'), z, (course.stands.moveTo ahead.le).now,
      carries.moveTo now course.stands.rate ahead hz, ⟨?_, ?_⟩, ?_, ?_⟩ <;> linarith

omit [IsStrictOrderedRing K] in
theorem Ramped.withinRamps (ramped : h.Ramped u d n c (c + y)) (ramps : g.Ramps u d)
    (now : g.now = fin n) (carries : g.Carries c y 0) : WithinRamps g h := by
  obtain ⟨n', c', y', now', carries', committed, output⟩ := ramped
  have out : c' + y' + 0 - (c + y + 0) = c' + y' - (c + y) := by ring
  refine ⟨?_, ?_, ?_, ?_⟩
  · rw [ramps.down, now, now', carries.committed, carries'.committed, fin_sub, fin_sub]
    exact fin_le.mpr committed.1
  · rw [ramps.up, now, now', carries.committed, carries'.committed, fin_sub, fin_sub]
    exact fin_le.mpr committed.2
  · rw [ramps.down, now, now', carries.output, carries'.output, fin_sub, fin_sub, out]
    exact fin_le.mpr output.1
  · rw [ramps.up, now, now', carries.output, carries'.output, fin_sub, fin_sub, out]
    exact fin_le.mpr output.2

/-- Committed power and output never outrun the ramp limits in force during an advance, and only
advances move them. Only limits may be unbounded: the powers asked for, once held, and what is
available of the reserve are numbers. -/
theorem withinRamps_of_reaches {o : K} {a : Action (Exact K)}
    (reaches : Reaches (fun g => g.Workable ∧ isFinite g.reserve.available = true) Suits
      (idle (fin o)) g)
    (up : isFinite g.envelope.rampUp = true) (down : isFinite g.envelope.rampDown = true)
    (suits : g.Suits a) (after : (g.act a).Workable) :
    (∀ t, a = .advance t → WithinRamps g (g.act a) ∧ (g.now < t → (g.act a).now = t)) ∧
      ((∀ t, a ≠ .advance t) →
        (g.act a).committed = g.committed ∧ (g.act a).output = g.output) := by
  obtain ⟨⟨n, l, c, ρ, course⟩, c', y, carries⟩ := reaches.balanced
  obtain ⟨workable, available⟩ := reaches.holds
  obtain ⟨u, up⟩ := isFinite_iff.mp up
  obtain ⟨d, down⟩ := isFinite_iff.mp down
  have ramps : g.Ramps u d := ⟨up, down⟩
  refine ⟨?_, ?_⟩
  · intro t advance
    subst advance
    obtain ⟨t, rfl⟩ := isFinite_iff.mp (suits.times t List.mem_cons_self)
    show WithinRamps g (g.advance (fin t)) ∧ (g.now < fin t → (g.advance (fin t)).now = fin t)
    have here : Ramped u d n c' (c' + y) g :=
      ⟨n, c', y, course.stands.now, carries, by simp, by simp⟩
    obtain ⟨_, _, _, course', ramped⟩ :=
      course.advance workable (ramped_keptByLegs ramps available (c' + y)) here
    refine ⟨ramped.withinRamps ramps course.stands.now carries, ?_⟩
    intro ahead
    rw [course.stands.now, fin_lt] at ahead
    rw [course'.stands.now, max_eq_right ahead.le]
  · intro still
    -- under finite limits no revision delivers anything at once
    have kept : KeptByPlans g (SamePower g) := by
      refine ⟨?_, ?_⟩
      · intro h k same power
        exact power.trans same
      · intro h n l c ρ same ready workable power
        exact power.trans ((ramps.of_same same).replan ready workable)
    obtain ⟨-, power⟩ := course.act workable suits after kept ⟨rfl, rfl, rfl⟩
      fun {t} advance => (still t advance).elim
    exact ⟨power.committed, power.output⟩

/-- A power called for while it is out of reach, with the reserve called on beside it. -/
theorem withinRamps_out_of_reach :
    let g := (idle (fin (10 : ℚ))).run [.setRampLimits (fin 2) (fin 1), .holdReserve (fin 20),
      .add (fin 30) (fin 200), .callReserve (fin 15)]
    WithinRamps g (g.act (.advance (fin 100))) := by
  intro g
  have start : Reaches (fun g => g.Workable ∧ isFinite g.reserve.available = true) Suits
      (idle (fin (10 : ℚ))) (idle (fin 10)) := .start (by decide +kernel)
  have reaches : Reaches (fun g => g.Workable ∧ isFinite g.reserve.available = true) Suits
      (idle (fin (10 : ℚ))) g := start.run (by decide +kernel)
  have within := withinRamps_of_reaches (a := .advance (fin 100)) reaches (by decide +kernel)
    (by decide +kernel) (by decide +kernel) (by decide +kernel)
  exact (within.1 (fin 100) rfl).1

end Generator

end UnitDispatch
