import UnitDispatch.Proofs.Chained
import UnitDispatch.Proofs.Following
import UnitDispatch.Proofs.Journal

/-! # When a steady generator looks at its plan again

A generator that ramps steadily and has nothing due looks at its plan again when the first setpoint
falls due, whatever was asked of it before: `run_attentive`. A revision makes it so, a move and a
setpoint that does not revise the plan leave it so, and a ramp of the generator's own is no
exception, since the setpoint that finishes it is queued with it.
-/

namespace UnitDispatch

open Quantity

/-! ## The time of the first setpoint -/

namespace Schedule

variable {α : Type} [Quantity α] {s : Schedule α} {p : Setpoint α}

/-- When the first setpoint falls due, beyond all times without one. -/
def opening (s : Schedule α) : α := (s.first?.map (·.time)).getD unbounded

theorem opening_of_first? {q : Setpoint α} (first : s.first? = some q) : s.opening = q.time := by
  unfold opening
  rw [first]
  rfl

/-- A setpoint is the first unless one that stands first is due no later. -/
theorem Sorted.opening_insert [Ordered α] (sorted : s.Sorted) (p : Setpoint α) :
    (s.insert p).opening =
      if s.first?.any (fun q => decide (q.time ≤ p.time)) then s.opening else p.time := by
  cases first : s.first? with
  | none =>
    refine opening_of_first? ?_
    unfold first?
    rw [sorted.setpoints_insert_eq, first?_eq_none_iff.mp first]
    rfl
  | some q =>
    rw [Option.any_some]
    split
    next le =>
      rw [opening_of_first? first]
      exact opening_of_first? (sorted.first?_insert first (of_decide_eq_true le))
    next later =>
      obtain ⟨rest, hs⟩ := List.head?_eq_some_iff.mp first
      refine opening_of_first? ?_
      unfold first?
      rw [sorted.setpoints_insert_eq, hs,
        List.takeWhile_cons_of_neg (p := fun q : Setpoint α => decide (q.time ≤ p.time)) later]
      rfl

variable [Rounded α]

theorem opening_defined (times : ∀ q ∈ s.setpoints, isNaN q.time = false) :
    isNaN s.opening = false := by
  cases first : s.first? with
  | none =>
    unfold opening
    rw [first]
    exact Rounded.unbounded_defined
  | some q =>
    rw [opening_of_first? first]
    exact times q (mem_of_first? first)

end Schedule

namespace Generator

variable {α : Type} [Quantity α] {g : Generator α} {p : Setpoint α} {power time : α} {leg : Leg α}

/-- Everything on the schedule lies ahead. -/
def Ahead (g : Generator α) : Prop := ∀ p ∈ g.schedule.setpoints, g.now < p.time

/-- What is on the schedule is in order as far as it has times, and while the generator ramps
steadily and nothing is due, it looks at its plan again when the first setpoint falls due. -/
structure Attentive (g : Generator α) : Prop where
  chained : g.schedule.Chained
  level : g.mode.effective = .interpolated → g.Ahead → (g.review == g.schedule.opening) = true

theorem ahead_enqueue : (g.enqueue p).Ahead ↔ g.now < p.time ∧ g.Ahead := by
  constructor
  · intro ahead
    exact ⟨ahead p (Schedule.mem_insert.mpr (.inl rfl)),
      fun q hq => ahead q (Schedule.mem_insert.mpr (.inr hq))⟩
  · rintro ⟨later, ahead⟩ q hq
    rcases Schedule.mem_insert.mp hq with rfl | hq
    · exact later
    · exact ahead q hq

section Ordered

variable [Ordered α]

theorem Ahead.defined (ahead : g.Ahead) : ∀ p ∈ g.schedule.setpoints, isNaN p.time = false := by
  intro p hp
  exact (Ordered.defined_of_lt (ahead p hp)).2

/-- What lies ahead is in order. -/
theorem Attentive.sorted (attentive : g.Attentive) (ahead : g.Ahead) : g.schedule.Sorted :=
  attentive.chained.sorted ahead.defined

end Ordered

variable [Rounded α]

/-! ## Revisions -/

theorem planNext_attentive (chained : g.schedule.Chained) : g.planNext.Attentive := by
  refine ⟨chained, ?_⟩
  intro steady ahead
  show (g.nextLeg.review == g.schedule.opening) = true
  rw [nextLeg_review (g := g) steady]
  exact beq_self_of_defined (Schedule.opening_defined ahead.defined)

/-- A ramp of the generator's own ends before anything else falls due, or just then. -/
theorem carry_attentive (chained : g.schedule.Chained)
    (free : g.schedule.precedes leg.review = false) : (g.carry power leg).Attentive := by
  refine ⟨chained.insert _, ?_⟩
  intro _ ahead
  obtain ⟨later, rest⟩ := ahead_enqueue.mp ahead
  have defined := (Ordered.defined_of_lt later).2
  have sorted := chained.sorted (Ahead.defined rest)
  show (leg.review == (g.schedule.insert ⟨leg.review, power, true⟩).opening) = true
  rw [sorted.opening_insert]
  split
  next le =>
    obtain ⟨q, first, le⟩ := Option.any_eq_true _ _ |>.mp le
    have free : ¬ q.time < leg.review := by
      unfold Schedule.precedes at free
      rw [first] at free
      exact of_decide_eq_false free
    rw [Schedule.opening_of_first? first, Rounded.beq_iff]
    exact ⟨Ordered.le_of_not_lt (Ahead.defined rest q (Schedule.mem_of_first? first)) defined free,
      of_decide_eq_true le⟩
  next => exact beq_self_of_defined defined

theorem settle_attentive (chained : g.schedule.Chained) (wanted : α) :
    (g.settle wanted).Attentive := by
  have settles := g.settle_settles wanted
  generalize g.settle wanted = h at settles
  cases settles with
  | delivered | overtaken | stuck => exact planNext_attentive chained
  | carry _ _ free => exact carry_attentive chained free
  | jump => exact planNext_attentive (g := g.jump _) chained

theorem replan_attentive (chained : g.schedule.Chained) : g.replan.Attentive := by
  unfold replan
  split
  · exact planNext_attentive chained
  · exact settle_attentive chained.afterDue _

namespace Attentive

/-! ## What a run is made of -/

theorem moveTo (attentive : g.Attentive) (time : α) : (g.moveTo time).Attentive := by
  unfold Generator.moveTo
  dsimp only
  split
  next later =>
    refine ⟨attentive.chained, ?_⟩
    intro steady ahead
    refine attentive.level steady ?_
    intro p hp
    exact Ordered.lt_of_le_of_lt (Rounded.le_of_sub_pos later) (ahead p hp)
  next => exact attentive

/-- A setpoint that does not call for a revision is due later than the review. -/
theorem review_lt (attentive : g.Attentive) (steady : g.mode.effective = .interpolated)
    (ahead : (g.enqueue p).Ahead) (undue : (p.time == (g.enqueue p).review) = false) :
    g.review ≤ p.time ∧ ¬ p.time ≤ g.review := by
  obtain ⟨later, rest⟩ := ahead_enqueue.mp ahead
  have defined := (Ordered.defined_of_lt later).2
  obtain ⟨le, -⟩ := Rounded.beq_iff.mp (attentive.level steady rest)
  have reviewed := (Signed.defined_of_le le).1
  have late : ¬ p.time < g.review := by
    intro early
    rw [show (g.enqueue p).review = p.time from if_pos early, beq_self_of_defined defined] at undue
    cases undue
  have le := Ordered.le_of_not_lt defined reviewed late
  refine ⟨le, fun ge => ?_⟩
  rw [show (g.enqueue p).review = g.review from if_neg late, Rounded.beq_iff.mpr ⟨ge, le⟩] at undue
  cases undue

/-- Then the first setpoint stays the first. -/
theorem first?_insert (attentive : g.Attentive) (steady : g.mode.effective = .interpolated)
    (ahead : g.Ahead) (later : g.review ≤ p.time ∧ ¬ p.time ≤ g.review) :
    (g.schedule.insert p).first? = g.schedule.first? := by
  obtain ⟨upTo, downTo⟩ := Rounded.beq_iff.mp (attentive.level steady ahead)
  cases first : g.schedule.first? with
  | none =>
    -- nothing is due later than without a setpoint
    have all : g.schedule.opening = unbounded := by
      unfold Schedule.opening
      rw [first]
      rfl
    have bounded := Rounded.le_unbounded (Signed.defined_of_le later.1).2
    exact (later.2 (Ordered.le_trans bounded (all ▸ downTo))).elim
  | some q =>
    rw [Schedule.opening_of_first? first] at downTo
    exact (attentive.sorted ahead).first?_insert first (Ordered.le_trans downTo later.1)

theorem enqueue (attentive : g.Attentive) (undue : (p.time == (g.enqueue p).review) = false) :
    (g.enqueue p).Attentive := by
  refine ⟨attentive.chained.insert p, ?_⟩
  intro steady ahead
  have rest := (ahead_enqueue.mp ahead).2
  have later := attentive.review_lt steady ahead undue
  have review : (g.enqueue p).review = g.review := by
    refine if_neg fun early => later.2 (Ordered.le_of_lt early)
  have opening : (g.schedule.insert p).opening = g.schedule.opening := by
    unfold Schedule.opening
    rw [attentive.first?_insert steady rest later]
  show ((g.enqueue p).review == (g.schedule.insert p).opening) = true
  rw [review, opening]
  exact attentive.level steady rest

theorem add (attentive : g.Attentive) (time power : α) : (g.add time power).Attentive := by
  rw [add_eq]
  split
  · exact replan_attentive (attentive.chained.insert _)
  next undue => exact attentive.enqueue (Bool.eq_false_iff.mpr undue)

theorem addAll (attentive : g.Attentive) (times powers : List α) :
    (g.addAll times powers).Attentive :=
  addAll_induction (fun _ p _ still => still.add p.1 p.2) attentive

theorem legsTo (attentive : g.Attentive) (time : α) (fuel : Nat) :
    (g.legsTo time fuel).Attentive :=
  legsTo_induction (fun _ _ still => replan_attentive (still.moveTo _).chained) fuel attentive

theorem advance (attentive : g.Attentive) (time : α) : (g.advance time).Attentive := by
  unfold Generator.advance
  split
  · exact attentive
  · exact (attentive.legsTo time _).moveTo time

theorem start (attentive : g.Attentive) (time : α) : (g.start time).Attentive := by
  have planned : (g.dropTo time).replan.Attentive := replan_attentive attentive.chained.dropBefore
  exact ⟨planned.chained, planned.level⟩

theorem clear (g : Generator α) : g.clear.Attentive :=
  ⟨Schedule.chained_of_empty rfl, fun _ _ => beq_self_of_defined Rounded.unbounded_defined⟩

theorem act (attentive : g.Attentive) (a : Action α) : (g.act a).Attentive := by
  have effect := act_effect g a
  generalize g.act a = h at effect
  cases effect with
  | start => exact attentive.start _
  | advance => exact attentive.advance _
  | add => exact attentive.addAll _ _
  | replace => exact (clear g).addAll _ _
  | configure change =>
    refine replan_attentive ?_
    rw [(configure_sameState change).schedule]
    exact attentive.chained
  | register => exact ⟨attentive.chained, attentive.level⟩

end Attentive

/-- Every run leaves a generator attentive, with whatever numbers it was fed. -/
theorem run_attentive (output : α) (as : List (Action α)) : ((idle output).run as).Attentive := by
  refine run_induction (fun _ a attentive => attentive.act a) ?_ as
  exact ⟨Schedule.chained_of_empty rfl,
    fun _ _ => beq_self_of_defined Rounded.unbounded_defined⟩

end Generator

end UnitDispatch
