import UnitDispatch.Proofs.LookAhead
import UnitDispatch.Proofs.Recovery

/-! # Advances make progress

An advance goes through reviews until the next one lies beyond its time. `Drains` counts them: each
moves the clock on and leaves a plan that looks further ahead, so that the way out for a plan that
does not is never taken, and there are at most six for each setpoint and six more
(`drains_of_reached`). Fuel for that many is as good as any amount.
-/

namespace UnitDispatch

open Quantity Exact

namespace Generator

/-- Goes through `k` reviews up to `t` and has none left then. Each of them moves the clock on, and
the plan revised there has its review ahead. -/
def Drains {α : Type} [Quantity α] (t : α) : Nat → Generator α → Prop
  | 0, g => t < g.review
  | k + 1, g => g.review ≤ t ∧ g.now < g.leg.now ∧ g.leg.now < g.leg.review ∧ Drains t k g.leg

variable {K : Type} [Field K] [LinearOrder K] {g : Generator (Exact K)} {n l c ρ t : K} {k m : Nat}

/-- No more fuel is used than there are reviews, and the last plan is not given up. -/
theorem Drains.legsTo_eq (drains : g.Drains (fin t) k) {fuel : Nat} (enough : k ≤ fuel) :
    Generator.legsTo (fin t) fuel g = Generator.leg^[k] g := by
  induction k generalizing g fuel with
  | zero => exact legsTo_of_not_due (not_le_of_lt drains) fuel
  | succ k ih =>
    obtain ⟨due, -, ahead, rest⟩ := drains
    obtain ⟨fuel, rfl⟩ := Nat.exists_eq_succ_of_ne_zero (Nat.ne_of_gt (Nat.zero_lt_of_lt enough))
    unfold Generator.legsTo
    rw [if_pos due]
    dsimp only
    rw [if_neg (not_le_of_lt ahead)]
    exact ih rest (Nat.le_of_succ_le_succ enough)

/-- After the last review the next one lies beyond the time. -/
theorem Drains.lt_review (drains : g.Drains (fin t) k) : fin t < (Generator.leg^[k] g).review := by
  induction k generalizing g with
  | zero => exact drains
  | succ k ih => exact ih drains.2.2.2

theorem Drains.passes (drains : g.Drains (fin t) k) : Passes (fin t) g (Generator.leg^[k] g) := by
  induction k generalizing g with
  | zero => exact .arrived (not_le_of_lt drains)
  | succ k ih => exact .leg drains.1 (ih drains.2.2.2)

section

variable [IsStrictOrderedRing K]

/-- A review lies ahead of the clock, and the one after it further ahead. -/
theorem Plotted.leg_ahead (plotted : g.Plotted n l c ρ) (workable : g.Workable)
    (due : g.review ≤ fin t) : g.now < g.leg.now ∧ g.leg.now < g.leg.review := by
  obtain ⟨r', _, _, _, next, -, -⟩ := plotted.leg workable due
  refine ⟨?_, next.now_lt_review⟩
  cases plotted.heading with
  | rest _ _ review =>
    rw [review, unbounded_eq] at due
    exact (not_posInf_le_fin t due).elim
  | @leg r w underway =>
    have moved := plotted.toOrderly.moveTo underway.before.le
    have arrived : g.leg.now = fin r := by
      unfold Generator.leg
      rw [underway.review]
      exact (replan_samePlant _).now.trans moved.stands.now
    rw [arrived, plotted.stands.now]
    exact fin_lt.mpr underway.before

/-- Reviews that come to an end are gone through one after another. -/
theorem Plotted.drains (plotted : g.Plotted n l c ρ) (workable : g.Workable)
    (settles : g.SettlesIn m) (t : K) : ∃ k ≤ m, g.Drains (fin t) k := by
  -- by the number of reviews left before the generator rests
  induction m generalizing g n l c ρ with
  | zero =>
    refine ⟨0, le_rfl, ?_⟩
    show fin t < g.review
    rw [settles, unbounded_eq]
    exact fin_lt_posInf t
  | succ m ih =>
    by_cases due : g.review ≤ fin t
    · have moving : g.review ≠ unbounded := by
        intro rest
        rw [rest] at due
        exact not_posInf_le_fin t due
      obtain ⟨_, _, _, _, next, able, -⟩ := plotted.leg workable due
      obtain ⟨k, few, drains⟩ := ih next able (settles.resolve_left moving)
      obtain ⟨onward, ahead⟩ := plotted.leg_ahead workable due
      exact ⟨k + 1, Nat.succ_le_succ few, due, onward, ahead, drains⟩
    · exact ⟨0, Nat.zero_le _, plotted.lt_review_of_not_le due⟩

/-- Having gone through the reviews on the way, an advance moves on along the last leg and arrives
ahead of the next review. -/
theorem Drains.advance_eq (drains : g.Drains (fin t) k) (plotted : g.Plotted n l c ρ)
    (workable : g.Workable) (few : k ≤ g.legBound) (later : g.now < fin t) :
    g.advance (fin t) = (Generator.leg^[k] g).moveTo (fin t) ∧ (g.advance (fin t)).now = fin t ∧
      fin t < (g.advance (fin t)).review := by
  rw [plotted.stands.now, fin_lt] at later
  have arrives : g.advance (fin t) = (Generator.leg^[k] g).moveTo (fin t) := by
    unfold Generator.advance
    rw [if_neg (by simpa [plotted.stands.now] using later), drains.legsTo_eq few]
  obtain ⟨n', _, _, _, still, reached, -⟩ := drains.passes.plotted plotted workable later.le
  refine ⟨arrives, ?_, ?_⟩
  · rw [arrives]
    exact (still.moveTo reached drains.lt_review).stands.now
  · rw [arrives, moveTo_review]
    exact drains.lt_review

/-- Whatever has been done to a generator under limits that were never negative, or with any limits
that are not negative now: an advance to any time goes through at most six reviews for each setpoint
and six more, each later than the one before, never meets a plan that does not look ahead, and
arrives at its time ahead of the next review. -/
theorem drains_of_reached {o : K}
    (reached : Reaches Workable Suits (idle (fin o)) g ∨
      ∃ as : List (Action (Exact K)),
        (∀ a ∈ as, a.Numeric) ∧ g = (idle (fin o)).run as ∧ g.LimitsNonneg)
    (t : K) :
    ∃ k ≤ 6 * (g.schedule.size + 1), g.Drains (fin t) k ∧
      (∀ fuel ≥ k, Generator.legsTo (fin t) fuel g = Generator.leg^[k] g) ∧
      (g.now < fin t → g.advance (fin t) = (Generator.leg^[k] g).moveTo (fin t) ∧
        (g.advance (fin t)).now = fin t ∧ fin t < (g.advance (fin t)).review) := by
  have plotted : g.Workable ∧ ∃ n l c ρ, g.Plotted n l c ρ := by
    rcases reached with reaches | ⟨as, given, rfl, limits⟩
    · obtain ⟨n, l, c, ρ, course⟩ := reaches.onCourse
      exact ⟨reaches.holds, n, l, c, ρ, course.plotted⟩
    · have historic := (idle_historic o).run given
      exact ⟨historic.sound.workable limits, historic.plotted limits⟩
  obtain ⟨workable, n, l, c, ρ, plotted⟩ := plotted
  obtain ⟨k, few, drains⟩ := plotted.drains workable (plotted.settlesIn workable) t
  exact ⟨k, few, drains, fun _ enough => drains.legsTo_eq enough,
    drains.advance_eq plotted workable (few.trans (Nat.le_add_left _ _))⟩

/-- A midpoint ramp that is too steep for its limit, with its own setpoint to finish it, and a ramp
down after it. -/
theorem drains_midpoint :
    let g := (idle (fin (0 : ℚ))).run [.setRampLimits (fin 2) (fin 1), .set .rampTime (fin 10),
      .setMode .midpoint, .addAll [fin 40, fin 200] [fin 60, fin 30]]
    g.schedule.size = 2 ∧ ∃ k ≤ 18, g.Drains (fin 300) k ∧
      g.advance (fin 300) = (Generator.leg^[k] g).moveTo (fin 300) := by
  intro g
  have start : Reaches Workable Suits (idle (fin (0 : ℚ))) (idle (fin 0)) :=
    .start (by decide +kernel)
  have reaches : Reaches Workable Suits (idle (fin 0)) g := start.run (by decide +kernel)
  obtain ⟨k, few, drains, -, arrives⟩ := drains_of_reached (.inl reaches) 300
  have size : g.schedule.size = 2 := by decide +kernel
  rw [size] at few
  exact ⟨size, k, few, drains, (arrives (by decide +kernel)).1⟩

end

end Generator

end UnitDispatch
