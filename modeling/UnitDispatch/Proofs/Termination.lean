import UnitDispatch.Proofs.Effect
import UnitDispatch.Proofs.Separation

/-! # Advances come to an end

An advance in doubles goes through no more reviews than there are doubles, whatever has been done to
the generator and however far the advance is to go. `Ends` is the loop over the reviews without its
fuel. A plan that the loop goes on with has its review ahead of the clock, the clock is moved on to
it (`leg_now_of_ahead`), and there are only so many doubles (`ends_of_ahead`).

An undefined clock is never ahead of anything and never moved on. The only generator that is caught
in the loop is `Stalled`: its clock was started at an undefined time, it has nothing left to do, and
it is asked to advance without bound. `run_ends_or_stalled` says so of every history.
-/

namespace UnitDispatch

open Quantity

namespace Generator

variable {α : Type} [Quantity α] {g h : Generator α} {t : α} {k : ℕ}

/-- The loop over the reviews up to `t` is over after `k` of them and leaves the generator as the
last one. -/
inductive Ends (t : α) : ℕ → Generator α → Generator α → Prop
  | arrived {g : Generator α} (later : ¬ g.review ≤ t) : Ends t 0 g g
  /-- The plan has no review ahead and is given up. -/
  | stuck {g : Generator α} (due : g.review ≤ t) (behind : g.leg.review ≤ g.leg.now) :
    Ends t 1 g g.leg
  | leg {g h : Generator α} {k : ℕ} (due : g.review ≤ t) (ahead : ¬ g.leg.review ≤ g.leg.now)
    (rest : Ends t k g.leg h) : Ends t (k + 1) g h

/-- Fuel for that many reviews is as good as any amount. -/
theorem Ends.legsTo_eq (ends : Ends t k g h) {fuel : ℕ} (enough : k ≤ fuel) :
    legsTo t fuel g = h := by
  induction ends generalizing fuel with
  | arrived later =>
    cases fuel with
    | zero => rfl
    | succ fuel => simp [legsTo, later]
  | stuck due behind =>
    obtain ⟨fuel, rfl⟩ := Nat.exists_eq_add_of_le' enough
    simp [legsTo, due, behind]
  | leg due ahead rest ih =>
    obtain ⟨fuel, rfl⟩ := Nat.exists_eq_add_of_le' ((Nat.le_add_left 1 _).trans enough)
    simp [legsTo, due, ahead, ih (Nat.le_of_succ_le_succ enough)]

/-- The loop is over after the reviews that are left of it, and the one just gone through. -/
theorem ends_of_leg {n : ℕ} (due : g.review ≤ t) (positive : 1 ≤ n)
    (rest : ¬ g.leg.review ≤ g.leg.now → ∃ k ≤ n - 1, ∃ h, Ends t k g.leg h) :
    ∃ k ≤ n, ∃ h, Ends t k g h := by
  by_cases behind : g.leg.review ≤ g.leg.now
  · exact ⟨1, positive, g.leg, .stuck due behind⟩
  · obtain ⟨k, few, h, ends⟩ := rest behind
    exact ⟨k + 1, by omega, h, .leg due behind ends⟩

/-! ## A clock that is defined -/

theorem leg_now (g : Generator α) :
    g.leg.now = if 0 < g.review - g.now then g.review else g.now := by
  unfold leg
  rw [(replan_samePlant _).now, moveTo]
  dsimp only
  split <;> rfl

section

variable [Separated α]

/-- A review ahead of the clock is reached. -/
theorem leg_now_of_ahead (ahead : g.now < g.review) : g.leg.now = g.review := by
  rw [leg_now, if_pos (Separated.sub_pos ahead)]

/-- The clock stays defined. -/
theorem leg_now_defined (defined : isNaN g.now = false) (due : g.review ≤ t) :
    isNaN g.leg.now = false := by
  rw [leg_now]
  split
  · exact (Signed.defined_of_le due).1
  · exact defined

/-- A plan that the loop goes on with has its review ahead, if that is due. -/
theorem ahead_of_not_behind (defined : isNaN g.now = false) (behind : ¬ g.review ≤ g.now)
    (due : g.review ≤ t) : g.now < g.review := by
  by_contra not
  exact behind (Ordered.le_of_not_lt defined (Signed.defined_of_le due).1 not)

end

/-- Reviews ahead of the clock are gone through in turn: each takes one more double out of those
between the clock and the time. -/
theorem ends_of_ahead {g : Generator Float} {t : Float} (defined : isNaN g.now = false)
    (ahead : g.review ≤ t → g.now < g.review) :
    ∃ k ≤ {x : Float | g.now < x ∧ x ≤ t}.ncard, ∃ h, Ends t k g h := by
  -- by the doubles that are left for the clock
  induction left : {x : Float | g.now < x ∧ x ≤ t}.ncard using Nat.strong_induction_on
    generalizing g with
  | _ n ih =>
    by_cases due : g.review ≤ t
    · have next := leg_now_of_ahead (ahead due)
      have fewer : {x : Float | g.leg.now < x ∧ x ≤ t} ⊂ {x : Float | g.now < x ∧ x ≤ t} := by
        refine Set.ssubset_iff_exists.mpr ⟨?_, g.review, ⟨ahead due, due⟩, ?_⟩
        · rintro x ⟨above, below⟩
          rw [next] at above
          exact ⟨Ordered.lt_of_lt_of_le (ahead due) (Ordered.le_of_lt above), below⟩
        · rintro ⟨above, -⟩
          rw [next] at above
          exact Rounded.not_lt_of_le (Ordered.le_of_lt above) above
      have less := Set.ncard_lt_ncard fewer
      rw [left] at less
      refine ends_of_leg due (by omega) ?_
      intro behind
      have still := leg_now_defined defined due
      obtain ⟨k, few, ends⟩ := ih _ less still (ahead_of_not_behind still behind) rfl
      exact ⟨k, by omega, ends⟩
    · exact ⟨0, Nat.zero_le _, g, .arrived due⟩

/-- A clock that is defined is moved on until the time is reached. -/
theorem ends_of_defined {g : Generator Float} (defined : isNaN g.now = false) (t : Float) :
    ∃ k ≤ UInt64.size + 1, ∃ h, Ends t k g h := by
  by_cases due : g.review ≤ t
  · refine ends_of_leg due (Nat.le_add_left 1 _) ?_
    intro behind
    have still := leg_now_defined defined due
    obtain ⟨k, few, ends⟩ := ends_of_ahead still (ahead_of_not_behind still behind)
    exact ⟨k, few.trans (Doubles.ncard_le _), ends⟩
  · exact ⟨0, Nat.zero_le _, g, .arrived due⟩

/-! ## A clock that is not -/

/-- The clock is undefined, a review is due and so is the one after it. -/
def Stalled (t : α) (g : Generator α) : Prop :=
  isNaN g.now = true ∧ g.review ≤ t ∧ g.leg.review ≤ t

instance (t : α) (g : Generator α) : Decidable (g.Stalled t) :=
  inferInstanceAs (Decidable (isNaN g.now = true ∧ g.review ≤ t ∧ g.leg.review ≤ t))

/-- With nothing left to do the next review never comes. -/
theorem planNext_of_isEmpty (empty : g.schedule.setpoints = []) :
    g.planNext = { g with rate := 0, review := unbounded } := by
  simp [planNext, nextLeg, Schedule.first?, empty, follow]

/-- Nothing is left to do, and no review is to come. -/
structure AtRest (g : Generator α) : Prop where
  review : g.review = unbounded
  empty : g.schedule.setpoints = []

theorem planNext_atRest (empty : g.schedule.setpoints = []) : g.planNext.AtRest := by
  rw [planNext_of_isEmpty empty]
  exact ⟨rfl, empty⟩

theorem AtRest.replan (rest : g.AtRest) : g.replan.AtRest := by
  unfold Generator.replan
  rw [Schedule.due, rest.empty]
  exact planNext_atRest rest.empty

/-- With an undefined clock the loop is over at once, after one review, or never. -/
theorem ends_of_isNaN (undefined : isNaN g.now = true) (free : ¬ g.Stalled t) :
    ∃ k ≤ 1, ∃ h, Ends t k g h := by
  by_cases due : g.review ≤ t
  · refine ends_of_leg due le_rfl ?_
    intro _
    exact ⟨0, le_rfl, g.leg, .arrived fun next => free ⟨undefined, due, next⟩⟩
  · exact ⟨0, Nat.zero_le _, g, .arrived due⟩

variable [Separated α]

theorem not_lt_of_isNaN {a b : α} (undefined : isNaN a = true) : ¬ a < b := by
  intro lt
  rw [(Ordered.defined_of_lt lt).1] at undefined
  cases undefined

theorem not_le_of_isNaN {a b : α} (undefined : isNaN a = true) : ¬ a ≤ b ∧ ¬ b ≤ a := by
  constructor <;> intro le
  · rw [(Signed.defined_of_le le).1] at undefined
    cases undefined
  · rw [(Signed.defined_of_le le).2] at undefined
    cases undefined

/-- An undefined clock is not moved. -/
theorem moveTo_of_isNaN (undefined : isNaN g.now = true) (time : α) : g.moveTo time = g := by
  refine if_neg ?_
  intro positive
  rw [Rounded.defined_of_sub_right (Ordered.defined_of_lt positive).2] at undefined
  cases undefined

theorem leg_of_isNaN (undefined : isNaN g.now = true) : g.leg = g.replan :=
  congrArg replan (moveTo_of_isNaN undefined g.review)

/-- What is carried on from an undefined time is finished at an undefined time. -/
theorem settle_of_isNaN (undefined : isNaN g.now = true) (empty : g.schedule.setpoints = [])
    (wanted : α) : isNaN (g.settle wanted).review = true ∨ (g.settle wanted).AtRest := by
  unfold settle
  dsimp only
  split
  · exact .inr (planNext_atRest empty)
  · split
    next rate _ =>
      split
      · exact .inr (planNext_atRest empty)
      · left
        show isNaN (g.now + g.lack (g.holdTarget wanted) / rate) = true
        by_contra defined
        rw [Separated.defined_of_add_left (Bool.eq_false_iff.mpr defined)] at undefined
        cases undefined
    · exact .inr (planNext_atRest empty)
    · exact .inr (planNext_atRest empty)

/-- At an undefined time every setpoint is taken for due. -/
theorem replan_of_isNaN (undefined : isNaN g.now = true) :
    isNaN g.replan.review = true ∨ g.replan.AtRest := by
  have every (p : Setpoint α) : (!decide (g.now < p.time)) = true := by
    simp [not_lt_of_isNaN undefined]
  have all : g.schedule.due g.now = g.schedule.setpoints :=
    List.takeWhile_eq_self_iff.mpr fun p _ => every p
  have none : (g.schedule.afterDue g.now).setpoints = [] :=
    List.dropWhile_eq_nil_iff.mpr fun p _ => every p
  unfold replan
  rw [all]
  split
  next empty => exact .inr (planNext_atRest (List.getLast?_eq_none_iff.mp empty))
  next p _ => exact settle_of_isNaN (g := g.takeDue) undefined none p.power

/-- What is due after a revision at an undefined time never comes. -/
theorem Stalled.atRest (stalled : g.Stalled t) : g.leg.AtRest := by
  obtain ⟨undefined, -, next⟩ := stalled
  rw [leg_of_isNaN undefined] at next ⊢
  exact (replan_of_isNaN undefined).resolve_left fun lost => (not_le_of_isNaN lost).1 next

/-- A review leaves a stalled generator as stalled as it was. -/
theorem Stalled.leg (stalled : g.Stalled t) : g.leg.Stalled t := by
  have rest := stalled.atRest
  obtain ⟨undefined, -, next⟩ := stalled
  have still : isNaN g.leg.now = true := by
    rw [leg_of_isNaN undefined, (replan_samePlant g).now]
    exact undefined
  refine ⟨still, next, ?_⟩
  rw [leg_of_isNaN still, rest.replan.review, ← rest.review]
  exact next

/-- So it goes through reviews without end. -/
theorem Stalled.not_ends (stalled : g.Stalled t) : ¬ Ends t k g h := by
  intro ends
  induction ends with
  | arrived later => exact later stalled.2.1
  | stuck due behind => exact (not_le_of_isNaN stalled.leg.1).2 behind
  | leg due ahead rest ih => exact ih stalled.leg

/-! ## Histories -/

/-- The time an action makes ready from. -/
def Action.startTime? : Action α → Option α
  | .start time => some time
  | _ => none

theorem moveTo_now_isNaN (g : Generator α) (time : α) :
    isNaN (g.moveTo time).now = isNaN g.now := by
  unfold moveTo
  dsimp only
  split
  next ahead =>
    have ahead := Separated.sub_pos_iff.mp ahead
    rw [(Ordered.defined_of_lt ahead).1, (Ordered.defined_of_lt ahead).2]
  · rfl

/-- An advance leaves a clock undefined if it was, and defined if it was. -/
theorem advance_now_isNaN (g : Generator α) (time : α) :
    isNaN (g.advance time).now = isNaN g.now := by
  unfold advance
  split
  · rfl
  · rw [moveTo_now_isNaN]
    refine legsTo_induction (P := fun h => isNaN h.now = isNaN g.now) ?_ g.legBound rfl
    intro h _ same
    rw [leg, (replan_samePlant _).now, moveTo_now_isNaN]
    exact same

/-- Only a start decides whether the clock is defined. -/
theorem act_now_isNaN (g : Generator α) (a : Action α) :
    isNaN (g.act a).now = isNaN (a.startTime?.getD g.now) := by
  cases a with
  | start time => exact congrArg isNaN (start_now g time)
  | advance time => exact advance_now_isNaN g time
  | add time power => exact congrArg isNaN (add_now g time power)
  | addAll times powers => exact congrArg isNaN (addAll_now g times powers)
  | receive message =>
    cases message with
    | addTargets times powers => exact congrArg isNaN (addAll_now g times powers)
    | updateTargets times powers => exact congrArg isNaN (addAll_now g.clear times powers)
    | _ => exact congrArg isNaN (act_now_of_timeless rfl)
  | _ => exact congrArg isNaN (act_now_of_timeless rfl)

/-- The clock is undefined if the last start was at an undefined time. -/
theorem run_now_isNaN (g : Generator α) (as : List (Action α)) :
    isNaN (g.run as).now = isNaN ((as.filterMap Action.startTime?).getLast?.getD g.now) := by
  induction as generalizing g with
  | nil => rfl
  | cons a as ih =>
    have first := act_now_isNaN g a
    rw [run_cons, ih]
    cases starts : a.startTime? with
    | none =>
      rw [starts] at first
      rw [List.filterMap_cons_none starts]
      cases (as.filterMap Action.startTime?).getLast? with
      | none => exact first
      | some time => rfl
    | some time =>
      rw [starts] at first
      rw [List.filterMap_cons_some starts, List.getLast?_cons]
      cases (as.filterMap Action.startTime?).getLast? with
      | none => exact first
      | some time => rfl

/-- Whatever has been done to a generator, an advance to any time goes through no more reviews than
there are doubles and one more, so that its fuel does for it; but if the generator was last started
at an undefined time, has nothing left to do and is to advance without bound, it goes through
reviews without end. -/
theorem run_ends_or_stalled (o : Float) (as : List (Action Float)) (t : Float) :
    let g := (idle o).run as
    (¬ g.Stalled t → ∃ k ≤ UInt64.size + 1, ∃ h, Ends t k g h ∧
      (∀ fuel ≥ k, legsTo t fuel g = h) ∧
      (isNaN t = false → ¬ t ≤ g.now → g.advance t = h.moveTo t)) ∧
    (g.Stalled t → (∀ k h, ¬ Ends t k g h) ∧ unbounded ≤ t ∧
      ∃ time, (as.filterMap Action.startTime?).getLast? = some time ∧ isNaN time = true) := by
  intro g
  constructor
  · intro free
    have ends : ∃ k ≤ UInt64.size + 1, ∃ h, Ends t k g h := by
      cases undefined : isNaN g.now with
      | false => exact ends_of_defined undefined t
      | true =>
        obtain ⟨k, few, ends⟩ := ends_of_isNaN undefined free
        exact ⟨k, few.trans (Nat.le_add_left 1 _), ends⟩
    obtain ⟨k, few, h, ends⟩ := ends
    refine ⟨k, few, h, ends, fun _ enough => ends.legsTo_eq enough, ?_⟩
    intro defined later
    have enough : k ≤ g.legBound := by
      unfold legBound
      omega
    unfold advance
    rw [if_neg (by simp [defined, later]), ends.legsTo_eq enough]
  · intro stalled
    refine ⟨fun _ _ => stalled.not_ends, ?_, ?_⟩
    · rw [← stalled.atRest.review]
      exact stalled.2.2
    · have undefined := (run_now_isNaN (idle o) as).symm.trans stalled.1
      cases last : (as.filterMap Action.startTime?).getLast? with
      | none =>
        rw [last] at undefined
        cases Ordered.defined_zero.symm.trans undefined
      | some time =>
        rw [last] at undefined
        exact ⟨time, rfl, undefined⟩

/-- A ramp that an advance without bound goes through, and a jump at an undefined time, after which
it goes on forever. -/
theorem run_ends_or_stalled_unbounded :
    let g := (idle (0 : Float)).run [.start 0, .setRampLimits 2 1, .add 40 60]
    let h := (idle (0 : Float)).run [.start 0, .start (0 / 0), .add 40 60]
    (¬ g.Stalled unbounded ∧ ∃ k ≤ UInt64.size + 1, ∃ e, Ends unbounded k g e ∧
      g.advance unbounded = e.moveTo unbounded) ∧
    h.Stalled unbounded ∧ ∀ k e, ¬ Ends unbounded k h e := by
  intro g h
  have free : ¬ g.Stalled unbounded := by decide +kernel
  have caught : h.Stalled unbounded := by decide +kernel
  obtain ⟨k, few, e, ends, -, arrives⟩ := (run_ends_or_stalled 0 _ unbounded).1 free
  refine ⟨⟨free, k, few, e, ends, arrives (by decide +kernel) (by decide +kernel)⟩, caught, ?_⟩
  exact ((run_ends_or_stalled 0 _ unbounded).2 caught).1

/-- Started at an undefined time, an advance without bound is not ignored and never over. -/
theorem run_never_ends :
    let g := (idle (0 : Float)).run [.start (0 / 0)]
    isNaN (unbounded : Float) = false ∧ ¬ unbounded ≤ g.now ∧ ¬ ∃ k h, Ends unbounded k g h := by
  intro g
  have stalled : g.Stalled unbounded := by decide +kernel
  exact ⟨Rounded.unbounded_defined, by decide +kernel, fun ⟨_, _, ends⟩ => stalled.not_ends ends⟩

end Generator

end UnitDispatch
