import Mathlib.Data.List.Sort
import UnitDispatch.Proofs.Attention
import UnitDispatch.Proofs.Layout
import UnitDispatch.Proofs.Monotone

/-! # The order of queueing

While a generator ramps steadily and has nothing due, it does not matter in which order setpoints
ahead of it are queued: `run_addAll_perm`. Some orders revise the plan often and others once, but
what they come to can be said without going through them (`addAll_eq`): all are on the schedule, and
the plan is the one made from it, if one of them fell due by the review.
-/

namespace UnitDispatch

open Quantity

/-- What a target, a time and a power, is queued as. -/
def Setpoint.ofTarget {α : Type} (target : α × α) : Setpoint α := ⟨target.1, target.2, false⟩

/-! ## Schedules -/

namespace Schedule

variable {α : Type} [Quantity α] {s : Schedule α} {p q : Setpoint α}
  {targets targets' : List (α × α)}

/-- Puts a setpoint in front of the first that is due later. -/
def place (l : List (Setpoint α)) (p : Setpoint α) : List (Setpoint α) :=
  l.orderedInsert (fun p q => ¬ q.time ≤ p.time) p

/-- Queues targets one after another. -/
def insertAll (s : Schedule α) (targets : List (α × α)) : Schedule α :=
  targets.foldl (fun s target => s.insert (.ofTarget target)) s

theorem insertAll_cons (s : Schedule α) (target : α × α) (targets : List (α × α)) :
    s.insertAll (target :: targets) = (s.insert (.ofTarget target)).insertAll targets := rfl

section Ordered

variable [Ordered α]

theorem Sorted.setpoints_insert_eq_place (sorted : s.Sorted) (p : Setpoint α) :
    (s.insert p).setpoints = place s.setpoints p := by
  unfold place
  rw [sorted.setpoints_insert_eq, List.orderedInsert_eq_take_drop]
  simp only [not_not]

/-- Two setpoints that fall due at different times take their places in either order. -/
theorem place_comm (le : p.time ≤ q.time) (lt : ¬ q.time ≤ p.time) (l : List (Setpoint α)) :
    place (place l p) q = place (place l q) p := by
  induction l with
  | nil => simp [place, le, lt]
  | cons x rest ih =>
    by_cases early : x.time ≤ p.time
    · have between := Ordered.le_trans early le
      unfold place at ih ⊢
      simp [early, between, ih]
    · by_cases between : x.time ≤ q.time
      · simp [place, early, between, le]
      · simp [place, early, between, le, lt]

/-- A schedule in order stays so, and each target takes its place. -/
theorem Sorted.insertAll (sorted : s.Sorted) (times : ∀ q ∈ s.setpoints, isNaN q.time = false)
    (defined : ∀ p ∈ targets, isNaN p.1 = false) :
    (s.insertAll targets).Sorted ∧
      (∀ q ∈ (s.insertAll targets).setpoints, isNaN q.time = false) ∧
      (s.insertAll targets).setpoints =
        targets.foldl (fun l target => place l (.ofTarget target)) s.setpoints := by
  induction targets generalizing s with
  | nil => exact ⟨sorted, times, rfl⟩
  | cons target rest ih =>
    obtain ⟨time, defined⟩ := List.forall_mem_cons.mp defined
    rw [insertAll_cons, List.foldl_cons, ← sorted.setpoints_insert_eq_place]
    refine ih (sorted.insert_defined times time) ?_ defined
    intro q hq
    rcases mem_insert.mp hq with rfl | hq
    · exact time
    · exact times q hq

end Ordered

section Rounded

variable [Rounded α]

theorem place_comm_of_ne (hp : isNaN p.time = false) (hq : isNaN q.time = false)
    (apart : (p.time == q.time) = false) (l : List (Setpoint α)) :
    place (place l p) q = place (place l q) p := by
  have strict : p.time ≤ q.time → ¬ q.time ≤ p.time := by
    intro le ge
    rw [Rounded.beq_iff.mpr ⟨le, ge⟩] at apart
    cases apart
  by_cases le : p.time ≤ q.time
  · exact place_comm le (strict le) l
  · exact (place_comm (Ordered.le_of_not_le hp hq le) le l).symm

/-- Targets that fall due at different times can be queued in any order. -/
theorem Sorted.setpoints_insertAll_perm (sorted : s.Sorted)
    (times : ∀ q ∈ s.setpoints, isNaN q.time = false)
    (defined : ∀ p ∈ targets, isNaN p.1 = false)
    (distinct : targets.Pairwise fun p q => (p.1 == q.1) = false) (same : targets'.Perm targets) :
    (s.insertAll targets').setpoints = (s.insertAll targets).setpoints := by
  let Swap (p q : α × α) : Prop := ∀ l : List (Setpoint α),
    place (place l (.ofTarget p)) (.ofTarget q) = place (place l (.ofTarget q)) (.ofTarget p)
  have : Std.Symm Swap := ⟨fun p q swap l => (swap l).symm⟩
  have apart : targets.Pairwise Swap := by
    refine distinct.imp_of_mem ?_
    intro p q hp hq apart
    exact place_comm_of_ne (p := .ofTarget p) (q := .ofTarget q) (defined p hp) (defined q hq) apart
  have swaps {p q : α × α} (hp : p ∈ targets) (hq : q ∈ targets) : Swap p q :=
    apart.forall_of_forall (fun _ _ _ => rfl) hp hq
  rw [(sorted.insertAll times defined).2.2,
    (sorted.insertAll times fun p hp => defined p (same.mem_iff.mp hp)).2.2]
  exact (same.symm.foldl_eq' (fun p hp q hq l => swaps hp hq l) s.setpoints).symm

end Rounded

end Schedule

namespace Generator

variable {α : Type} [Quantity α] {g : Generator α} {s t : Schedule α}

/-! ## Plans of a steady generator -/

/-- A plan that leads steadily is made from the schedule, not from the plan before. -/
theorem planNext_of_steady (steady : g.mode.effective = .interpolated) (rate review : α) :
    planNext { g with rate, review } = g.planNext := by
  have leg : nextLeg { g with rate, review } = g.nextLeg := by
    rw [nextLeg_steady (g := { g with rate, review }) steady, nextLeg_steady steady]
    rfl
  unfold planNext
  rw [leg]
  rfl

/-- Of the schedule, it is the first setpoint that counts. -/
theorem planNext_withSchedule (steady : g.mode.effective = .interpolated)
    (first : t.first? = s.first?) :
    (g.withSchedule s).planNext.withSchedule t = (g.withSchedule t).planNext := by
  have leg : (g.withSchedule s).nextLeg = (g.withSchedule t).nextLeg := by
    have same : (g.withSchedule s).schedule.first? = (g.withSchedule t).schedule.first? :=
      first.symm
    rw [nextLeg_steady (g := g.withSchedule s) steady,
      nextLeg_steady (g := g.withSchedule t) steady, same]
    rfl
  unfold planNext
  rw [leg]
  rfl

variable [Rounded α] {target : α × α} {times powers times' powers' : List α}

/-! ## Queueing ahead -/

/-- A target due by the review revises the plan. -/
theorem add_of_early (steady : g.mode.effective = .interpolated) (ahead : g.Ahead)
    (later : g.now < target.1) (early : target.1 ≤ g.review) :
    g.add target.1 target.2 = (g.withSchedule (g.schedule.insert (.ofTarget target))).planNext := by
  have due : (target.1 == (g.enqueue (.ofTarget target)).review) = true := by
    show (target.1 == if target.1 < g.review then target.1 else g.review) = true
    obtain ⟨defined, reviewed⟩ := Signed.defined_of_le early
    split
    · exact beq_self_of_defined defined
    next late => exact Rounded.beq_iff.mpr ⟨early, Ordered.le_of_not_lt defined reviewed late⟩
  rw [add_eq]
  refine (if_pos due).trans ?_
  rw [replan_of_ahead (ahead_enqueue.mpr ⟨later, ahead⟩)]
  exact planNext_of_steady (g := g.withSchedule (g.schedule.insert (.ofTarget target))) steady
    g.rate _

/-- A target due later leaves it. -/
theorem add_of_late (late : ¬ target.1 ≤ g.review) :
    g.add target.1 target.2 = g.withSchedule (g.schedule.insert (.ofTarget target)) := by
  have review : (g.enqueue (.ofTarget target)).review = g.review :=
    if_neg fun early => late (Ordered.le_of_lt early)
  have same : g.enqueue (.ofTarget target) =
      g.withSchedule (g.schedule.insert (.ofTarget target)) :=
    congrArg (fun review => { g with schedule := g.schedule.insert (.ofTarget target), review })
      review
  have undue : ¬ (target.1 == (g.enqueue (.ofTarget target)).review) = true := by
    rw [review]
    exact fun level => late (Rounded.beq_iff.mp level).1
  rw [add_eq]
  exact (if_neg undue).trans same

/-- Targets due after the review do not change what is first. -/
theorem Attentive.first?_insertAll {targets : List (α × α)} (attentive : g.Attentive)
    (steady : g.mode.effective = .interpolated) (ahead : g.Ahead)
    (later : ∀ p ∈ targets, g.now < p.1) (late : ∀ p ∈ targets, ¬ p.1 ≤ g.review) :
    (g.schedule.insertAll targets).first? = g.schedule.first? := by
  induction targets generalizing g with
  | nil => rfl
  | cons target rest ih =>
    obtain ⟨soon, later⟩ := List.forall_mem_cons.mp later
    obtain ⟨after, late⟩ := List.forall_mem_cons.mp late
    have next := attentive.add target.1 target.2
    rw [add_of_late after] at next
    have reviewed := (Signed.defined_of_le
      (Rounded.beq_iff.mp (attentive.level steady ahead)).1).1
    have le := Ordered.le_of_not_le (Ordered.defined_of_lt soon).2 reviewed after
    exact (ih next steady (ahead_enqueue.mpr ⟨soon, ahead⟩) later late).trans
      (attentive.first?_insert steady ahead ⟨le, after⟩)

/-- What queueing targets ahead comes to. -/
theorem addAll_eq (attentive : g.Attentive) (steady : g.mode.effective = .interpolated)
    (ahead : g.Ahead) (later : ∀ p ∈ times.zip powers, g.now < p.1) :
    g.addAll times powers =
      if (times.zip powers).any fun p => decide (p.1 ≤ g.review) then
        (g.withSchedule (g.schedule.insertAll (times.zip powers))).planNext
      else g.withSchedule (g.schedule.insertAll (times.zip powers)) := by
  unfold addAll
  generalize times.zip powers = targets at later ⊢
  induction targets generalizing g with
  | nil => rfl
  | cons target rest ih =>
    obtain ⟨soon, later⟩ := List.forall_mem_cons.mp later
    have next := attentive.add target.1 target.2
    have aheadNext : (g.enqueue (.ofTarget target)).Ahead := ahead_enqueue.mpr ⟨soon, ahead⟩
    rw [List.foldl_cons, List.any_cons, Schedule.insertAll_cons]
    by_cases early : target.1 ≤ g.review
    · rw [add_of_early steady ahead soon early] at next ⊢
      rw [ih next steady aheadNext later, decide_eq_true early, Bool.true_or, if_pos rfl]
      split
      next =>
        exact planNext_of_steady (g := g.withSchedule ((g.schedule.insert _).insertAll rest))
          steady _ _
      next none =>
        refine planNext_withSchedule steady (next.first?_insertAll steady aheadNext later ?_)
        intro p hp le
        exact none (List.any_eq_true.mpr ⟨p, hp, decide_eq_true le⟩)
    · rw [add_of_late early] at next ⊢
      rw [ih next steady aheadNext later, decide_eq_false early, Bool.false_or]
      rfl

/-- A steady generator with nothing due does not mind the order in which targets ahead of it are
queued. -/
theorem Attentive.addAll_perm (attentive : g.Attentive)
    (steady : g.mode.effective = .interpolated) (ahead : g.Ahead)
    (later : ∀ p ∈ times.zip powers, g.now < p.1)
    (distinct : (times.zip powers).Pairwise fun p q => (p.1 == q.1) = false)
    (same : (times'.zip powers').Perm (times.zip powers)) :
    (g.addAll times powers).Matches (g.addAll times' powers') := by
  have defined : ∀ p ∈ times.zip powers, isNaN p.1 = false :=
    fun p hp => (Ordered.defined_of_lt (later p hp)).2
  have sorted := attentive.sorted ahead
  obtain ⟨sorted', defined', -⟩ := sorted.insertAll ahead.defined defined
  have queued : (g.withSchedule (g.schedule.insertAll (times.zip powers))).Matches
      (g.withSchedule (g.schedule.insertAll (times'.zip powers'))) :=
    ⟨Schedule.tidy_of_sorted sorted' defined', _,
      sorted.setpoints_insertAll_perm ahead.defined defined distinct same, rfl⟩
  have any : ((times'.zip powers').any fun p => decide (p.1 ≤ g.review)) =
      (times.zip powers).any fun p => decide (p.1 ≤ g.review) := same.any_eq
  rw [addAll_eq attentive steady ahead later,
    addAll_eq attentive steady ahead fun p hp => later p (same.mem_iff.mp hp), any]
  split
  · exact queued.planNext
  · exact queued

/-- The order in which targets ahead are queued leaves no trace, whatever befell the generator
before, as long as they fall due at different times. -/
theorem run_addAll_perm (output : α) (as : List (Action α)) :
    let g := (idle output).run as
    g.mode.effective = .interpolated → (∀ p ∈ g.schedule.setpoints, g.now < p.time) →
    (∀ p ∈ times.zip powers, g.now < p.1) →
    ((times.zip powers).Pairwise fun p q => (p.1 == q.1) = false) →
    (times'.zip powers').Perm (times.zip powers) →
    (g.addAll times powers).Matches (g.addAll times' powers') :=
  fun steady ahead later distinct same =>
    (run_attentive output as).addAll_perm steady ahead later distinct same

/-- In a reserved mode, with a ramp of the generator's own to finish first: the second target comes
before its end. -/
theorem run_addAll_perm_carried :
    let g := (idle (40 : Float)).run [.setMode .justInTime, .setRampLimits 2 1,
      .start 1700000000, .addNow 60, .advance 1700000003]
    g.schedule.setpoints.any (·.carried) = true ∧
      (g.addAll [1700000100, 1700000008, 1700000060] [120, 50, 90]).Matches
        (g.addAll [1700000008, 1700000060, 1700000100] [50, 90, 120]) :=
  ⟨by decide +kernel, run_addAll_perm 40 _ (by decide +kernel) (by decide +kernel)
    (by decide +kernel) (by decide +kernel) (@List.perm_append_comm _ [_, _] [_])⟩

end Generator

end UnitDispatch
