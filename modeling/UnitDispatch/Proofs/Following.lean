import Mathlib.Data.List.Nodup
import UnitDispatch.Proofs.UnitEffect

/-! # Following a schedule

A generator that ramps steadily follows a schedule that asks for nothing out of its reach exactly:
its committed power is on the polyline through the targets, whatever order they were queued in and
however the time was passed. `Poised` is what queueing keeps, `Follows` what a move and a revision
keep.
-/

namespace UnitDispatch

open Quantity Exact

/-! ## Polylines -/

section Polyline

variable {K : Type} [Field K] [LinearOrder K]

/-- The gradient from the power `p` at `a` toward the first of some targets, each of them a time and
a power. -/
def gradient (a p : K) : List (K × K) → K
  | [] => 0
  | (d, w) :: _ => (w - p) / (d - a)

/-- The line from the power `p` at `a` through targets in order, level after the last. -/
def polyline (a p : K) : List (K × K) → K → K
  | [], _ => p
  | (d, w) :: rest, t => if t < d then p + (w - p) / (d - a) * (t - a) else polyline d w rest t

/-- Ahead of the first target. -/
theorem polyline_of_lt {a p t : K} {targets : List (K × K)} (ahead : ∀ q ∈ targets, t < q.1) :
    polyline a p targets t = p + gradient a p targets * (t - a) := by
  cases targets with
  | nil => simp [polyline, gradient]
  | cons q rest => exact if_pos (ahead q List.mem_cons_self)

/-- From the first target on. -/
theorem polyline_of_le {a p d w t : K} {rest : List (K × K)} (past : d ≤ t) :
    polyline a p ((d, w) :: rest) t = polyline d w rest t :=
  if_neg past.not_gt

end Polyline

namespace Generator

/-! ## Steady legs -/

section Steady

variable {α : Type} [Quantity α] {g : Generator α}

/-- In a mode that ramps steadily, the leg depends on nothing in the plan. -/
theorem nextLeg_steady (steady : g.mode.effective = .interpolated) :
    g.nextLeg = match g.schedule.first? with
      | none => ⟨0, unbounded⟩
      | some head =>
        if magnitude (g.holdTarget head.power - g.committed) < tolerance then ⟨0, head.time⟩
        else ⟨limit (-g.envelope.rampDown) g.rampLimitUp
          ((g.holdTarget head.power - g.committed) / (head.time - g.now)), head.time⟩ := by
  unfold nextLeg
  cases g.schedule.first? with
  | none => rfl
  | some head =>
    dsimp only
    rw [← RampMode.leg_effective, steady]
    rfl

theorem nextLeg_review (steady : g.mode.effective = .interpolated) :
    g.nextLeg.review = (g.schedule.first?.map (·.time)).getD unbounded := by
  rw [nextLeg_steady steady]
  cases g.schedule.first? with
  | none => rfl
  | some head =>
    dsimp only
    split <;> rfl

/-- A plan that is the one to be made stays as it is. -/
theorem planNext_eq_self (rate : g.nextLeg.rate = g.rate) (review : g.nextLeg.review = g.review) :
    g.planNext = g := by
  unfold planNext follow
  rw [rate, review]

theorem planNext_planNext (steady : g.mode.effective = .interpolated) :
    g.planNext.planNext = g.planNext := by
  have same : g.planNext.nextLeg = g.nextLeg := by
    rw [nextLeg_steady steady, nextLeg_steady (g := g.planNext) steady]
    rfl
  exact planNext_eq_self (congrArg Leg.rate same) (congrArg Leg.review same)

end Steady

variable {K : Type} [Field K] [LinearOrder K] {g h : Generator (Exact K)} {a p d w n t : K}
  {targets rest : List (K × K)}

/-- A plan that leaves the schedule empty rests. -/
theorem rests_of_replan_empty (empty : g.replan.schedule.setpoints = []) :
    g.replan.rate = 0 ∧ g.replan.review = unbounded := by
  have rests (h : Generator (Exact K)) (empty : h.schedule.setpoints = []) :
      h.planNext.rate = 0 ∧ h.planNext.review = unbounded :=
    ⟨congrArg Leg.rate (nextLeg_idle empty), congrArg Leg.review (nextLeg_idle empty)⟩
  unfold Generator.replan at empty ⊢
  split at empty
  · exact rests g empty
  next p last =>
    have settles := g.takeDue.settle_settles p.power
    generalize g.takeDue.settle p.power = h at settles empty ⊢
    cases settles with
    | delivered | overtaken | stuck => exact rests _ empty
    | carry => exact (Schedule.insert_nonempty _ _ empty).elim
    | jump => exact rests _ empty

/-! ## Queueing -/

/-- The setpoint that a target is queued as. -/
def setpointOf (target : K × K) : Setpoint (Exact K) := ⟨fin target.1, fin target.2, false⟩

/-- A generator that ramps steadily stands at the power `p` with targets ahead, and heads for the
first. -/
structure Poised (g : Generator (Exact K)) (n p : K) (targets : List (K × K)) : Prop where
  steady : g.mode.effective = .interpolated
  now : g.now = fin n
  committed : g.committed = fin p
  sorted : g.schedule.Sorted
  queued : g.schedule.setpoints.Perm (targets.map setpointOf)
  ahead : ∀ q ∈ targets, n < q.1
  planned : g.planNext = g

theorem Poised.times (poised : g.Poised n p targets) {q : Setpoint (Exact K)}
    (hq : q ∈ g.schedule.setpoints) : ∃ t, q.time = fin t ∧ n < t := by
  obtain ⟨r, hr, rfl⟩ := List.mem_map.mp (poised.queued.mem_iff.mp hq)
  exact ⟨r.1, rfl, poised.ahead r hr⟩

theorem Poised.review (poised : g.Poised n p targets) :
    g.review = (g.schedule.first?.map (·.time)).getD unbounded := by
  rw [← nextLeg_review poised.steady]
  exact congrArg Generator.review poised.planned.symm

/-- A target that is not due before the review is not the first. -/
theorem Poised.first?_insert (poised : g.Poised n p targets) (late : ¬ fin t < g.review) :
    (g.schedule.insert (setpointOf (t, w))).first? = g.schedule.first? := by
  rw [poised.review] at late
  cases head : g.schedule.first? with
  | none =>
    rw [head] at late
    exact (late (fin_lt_posInf t)).elim
  | some q =>
    obtain ⟨s, time, -⟩ := poised.times (Schedule.mem_of_first? head)
    rw [head, Option.map_some, Option.getD_some, time, fin_lt, not_lt] at late
    exact poised.sorted.first?_insert head (time ▸ fin_le.mpr late)

/-- A plan made steadily stays what it is as long as the first setpoint does. -/
theorem planNext_of_first? (steady : g.mode.effective = .interpolated)
    (planned : g.planNext = g) {queue : Schedule (Exact K)}
    (first : queue.first? = g.schedule.first?) :
    Generator.planNext { g with schedule := queue } = { g with schedule := queue } := by
  have leg : Generator.nextLeg { g with schedule := queue } = g.nextLeg := by
    rw [nextLeg_steady steady, nextLeg_steady (g := { g with schedule := queue }) steady]
    dsimp only
    rw [first]
    rfl
  refine planNext_eq_self ?_ ?_
  · rw [leg]
    exact congrArg Generator.rate planned
  · rw [leg]
    exact congrArg Generator.review planned

/-- Queueing a target ahead revises the plan if the target is the first, and need not otherwise. -/
theorem Poised.add (poised : g.Poised n p targets) (ahead : n < t) (w : K) :
    (g.add (fin t) (fin w)).Poised n p ((t, w) :: targets) := by
  let queue := g.schedule.insert (setpointOf (t, w))
  have finite : ∀ q ∈ g.schedule.setpoints, isFinite q.time = true := by
    intro q hq
    obtain ⟨s, time, -⟩ := poised.times hq
    rw [time]
    exact isFinite_fin s
  have sorted : queue.Sorted := poised.sorted.insert finite (isFinite_fin t)
  have queued : queue.setpoints.Perm (((t, w) :: targets).map setpointOf) :=
    (Schedule.insert_perm _ _).trans (poised.queued.cons _)
  have ahead : ∀ q ∈ (t, w) :: targets, n < q.1 := by
    rw [List.forall_mem_cons]
    exact ⟨ahead, poised.ahead⟩
  -- whatever the review was before, the plan made from the new schedule is planned
  have revised (review : Exact K) :
      Poised { g with schedule := queue, review }.replan n p ((t, w) :: targets) := by
    have undue : ∀ q ∈ queue.setpoints, g.now < q.time := by
      intro q hq
      obtain ⟨r, hr, rfl⟩ := List.mem_map.mp (queued.mem_iff.mp hq)
      rw [poised.now]
      exact fin_lt.mpr (ahead r hr)
    rw [replan_of_ahead (g := { g with schedule := queue, review }) undue]
    exact ⟨poised.steady, poised.now, poised.committed, sorted, queued, ahead,
      planNext_planNext (g := { g with schedule := queue, review }) poised.steady⟩
  unfold Generator.add
  dsimp only
  split
  · split
    · exact revised (fin t)
    next other => exact (other (by simp)).elim
  next late =>
    split
    · exact revised g.review
    next =>
      exact ⟨poised.steady, poised.now, poised.committed, sorted, queued, ahead,
        planNext_of_first? poised.steady poised.planned (poised.first?_insert late)⟩

theorem Poised.perm {other : List (K × K)} (poised : g.Poised n p targets)
    (same : targets.Perm other) : g.Poised n p other :=
  ⟨poised.steady, poised.now, poised.committed, poised.sorted,
    poised.queued.trans (same.map setpointOf), fun q hq => poised.ahead q (same.mem_iff.mpr hq),
    poised.planned⟩

/-- Queues targets one after another. -/
def queue (g : Generator (Exact K)) (order : List (K × K)) : Generator (Exact K) :=
  order.foldl (fun g q => g.add (fin q.1) (fin q.2)) g

theorem Poised.queue {order : List (K × K)} (poised : g.Poised n p targets)
    (ahead : ∀ q ∈ order, n < q.1) : (g.queue order).Poised n p (order ++ targets) := by
  induction order generalizing g targets with
  | nil => exact poised
  | cons q order ih =>
    rw [List.forall_mem_cons] at ahead
    exact (ih (poised.add ahead.1 q.2) ahead.2).perm List.perm_middle

/-- Queueing them all at once comes to the same. -/
theorem addAll_eq_queue (g : Generator (Exact K)) (order : List (K × K)) :
    g.addAll (order.map (fin ·.1)) (order.map (fin ·.2)) = g.queue order := by
  unfold addAll queue
  rw [List.zip_map', List.foldl_map]

theorem queue_sameSettings (g : Generator (Exact K)) (order : List (K × K)) :
    SameSettings g (g.queue order) := by
  induction order generalizing g with
  | nil => exact .refl g
  | cons q order ih => exact (add_sameSettings g _ _).trans (ih _)

/-- Targets of different times are queued in the order of these, whatever order they came in. -/
theorem Poised.setpoints_eq (poised : g.Poised n p targets)
    (ordered : targets.Pairwise fun q r => q.1 < r.1) :
    g.schedule.setpoints = targets.map setpointOf := by
  have sorted : (targets.map setpointOf).Pairwise fun q r => q.time ≤ r.time := by
    rw [List.pairwise_map]
    exact ordered.imp fun lt => fin_le.mpr lt.le
  have distinct : (targets.map Prod.fst).Nodup := List.pairwise_map.mpr (ordered.imp ne_of_lt)
  refine poised.queued.eq_of_pairwise ?_ poised.sorted sorted
  intro q r hq hr le ge
  obtain ⟨a, ha, rfl⟩ := List.mem_map.mp (poised.queued.mem_iff.mp hq)
  obtain ⟨b, hb, rfl⟩ := List.mem_map.mp hr
  have same : a.1 = b.1 := le_antisymm (fin_le.mp le) (fin_le.mp ge)
  rw [List.inj_on_of_nodup_map distinct ha hb same]

/-! ## Feasible schedules -/

/-- A power `w` at `d` that the generator can keep, and reach steadily from the power `p` at `a`. -/
@[mk_iff] structure InReach (g : Generator (Exact K)) (a p d w : K) : Prop where
  later : a < d
  low : g.envelope.powerMin ≤ fin w
  high : fin w ≤ g.envelope.powerMax - g.reserve.available
  apart : w = p ∨ tolerance ≤ magnitude (fin (w - p) : Exact K)
  down : -g.envelope.rampDown * fin (d - a) ≤ fin (w - p)
  up : fin (w - p) ≤ g.rampLimitUp * fin (d - a)

instance (g : Generator (Exact K)) (a p d w : K) : Decidable (g.InReach a p d w) :=
  decidable_of_iff' _ (inReach_iff g a p d w)

/-- Targets each of which is in reach of the one before, the first of the power `p` at `a`. -/
def Feasible (g : Generator (Exact K)) (a p : K) : List (K × K) → Prop
  | [] => True
  | (d, w) :: rest => g.InReach a p d w ∧ g.Feasible d w rest

instance decidableFeasible (g : Generator (Exact K)) :
    (a p : K) → (targets : List (K × K)) → Decidable (g.Feasible a p targets)
  | _, _, [] => inferInstanceAs (Decidable True)
  | a, p, (d, w) :: rest =>
    have := decidableFeasible g d w rest
    inferInstanceAs (Decidable (g.InReach a p d w ∧ g.Feasible d w rest))

theorem InReach.of_same (reach : g.InReach a p d w) (same : SameSettings g h) :
    h.InReach a p d w := by
  obtain ⟨later, low, high, apart, down, up⟩ := reach
  refine ⟨later, ?_, ?_, apart, ?_, ?_⟩
  · rwa [same.envelope]
  · rwa [same.envelope, same.available]
  · rwa [same.envelope]
  · rwa [same.rampLimitUp]

theorem Feasible.of_same (feasible : g.Feasible a p targets) (same : SameSettings g h) :
    h.Feasible a p targets := by
  induction targets generalizing a p with
  | nil => trivial
  | cons q rest ih => exact ⟨feasible.1.of_same same, ih feasible.2⟩

theorem Feasible.ahead (feasible : g.Feasible a p targets) : ∀ q ∈ targets, a < q.1 := by
  induction targets generalizing a p with
  | nil => nofun
  | cons q rest ih =>
    rw [List.forall_mem_cons]
    exact ⟨feasible.1.later, fun r hr => feasible.1.later.trans (ih feasible.2 r hr)⟩

theorem Feasible.ordered (feasible : g.Feasible a p targets) :
    targets.Pairwise fun q r => q.1 < r.1 := by
  induction targets generalizing a p with
  | nil => exact .nil
  | cons q rest ih => exact .cons feasible.2.ahead (ih feasible.2)

/-- A power in reach is held as it is. -/
theorem InReach.holdTarget (reach : g.InReach a p d w) : g.holdTarget (fin w) = fin w :=
  limit_eq_self reach.low reach.high

section Following

variable [IsStrictOrderedRing K]

/-- The steady rate toward a power in reach is within the limits. -/
theorem InReach.limit_eq (reach : g.InReach a p d w) :
    limit (-g.envelope.rampDown) g.rampLimitUp (fin ((w - p) / (d - a))) =
      fin ((w - p) / (d - a)) :=
  have span : 0 < d - a := sub_pos.mpr reach.later
  limit_eq_self (le_fin_div_of_mul_le reach.down span) (fin_div_le_of_le_mul reach.up span)

theorem InReach.nextLeg (reach : g.InReach a p d w) (steady : g.mode.effective = .interpolated)
    (now : g.now = fin a) (committed : g.committed = fin p)
    (first : g.schedule.first? = some (setpointOf (d, w))) :
    g.nextLeg = ⟨fin ((w - p) / (d - a)), fin d⟩ := by
  have time : (setpointOf (d, w)).time = fin d := rfl
  have held : g.holdTarget (setpointOf (d, w)).power = fin w := reach.holdTarget
  rw [nextLeg_steady steady, first]
  dsimp only
  rw [held, committed, now, time, fin_sub, fin_sub, fin_div _ (sub_pos.mpr reach.later).ne',
    reach.limit_eq]
  split
  next near =>
    rcases reach.apart with rfl | far
    · rw [sub_self, zero_div, zero_eq]
    · exact (not_le_of_lt near far).elim
  next => rfl

/-- The leg toward targets in reach is the line to the first of them. -/
theorem Feasible.nextLeg (feasible : g.Feasible a p targets)
    (steady : g.mode.effective = .interpolated) (now : g.now = fin a)
    (committed : g.committed = fin p)
    (queued : g.schedule.setpoints = targets.map setpointOf) :
    g.nextLeg = ⟨fin (gradient a p targets), (targets.head?.map (fin ·.1)).getD unbounded⟩ := by
  cases targets with
  | nil =>
    rw [nextLeg_idle queued, zero_eq]
    rfl
  | cons q rest =>
    refine feasible.1.nextLeg steady now committed ?_
    unfold Schedule.first?
    rw [queued]
    rfl

/-- A generator that ramps steadily is on the line from the power `p` at `a` toward the first of
some targets, all in reach, and has come as far as `n`. -/
structure Follows (g : Generator (Exact K)) (a p n : K) (targets : List (K × K)) : Prop where
  steady : g.mode.effective = .interpolated
  feasible : g.Feasible a p targets
  queued : g.schedule.setpoints = targets.map setpointOf
  now : g.now = fin n
  committed : g.committed = fin (p + gradient a p targets * (n - a))
  rate : g.rate = fin (gradient a p targets)
  review : g.review = (targets.head?.map (fin ·.1)).getD unbounded

/-- A move along the line. -/
theorem Follows.moveTo (follows : g.Follows a p n targets) (later : n ≤ t) :
    (g.moveTo (fin t)).Follows a p t targets := by
  obtain ⟨now, committed, rate⟩ :=
    moveTo_of_le follows.now follows.committed follows.rate later
  have same := moveTo_sameSettings g (fin t)
  refine ⟨?_, follows.feasible.of_same same, ?_, now, ?_, rate, ?_⟩
  · rw [same.mode]
    exact follows.steady
  · rw [moveTo_schedule]
    exact follows.queued
  · rw [committed]
    exact congrArg fin (by ring)
  · rw [moveTo_review]
    exact follows.review

/-- At a target, the line toward the next one begins. -/
theorem Follows.replan (follows : g.Follows a p d ((d, w) :: rest)) :
    g.replan.Follows d w d rest := by
  obtain ⟨reach, feasible⟩ := follows.feasible
  have now := follows.now
  have committed : g.committed = fin w := by
    rw [follows.committed]
    show fin (p + (w - p) / (d - a) * (d - a)) = fin w
    rw [div_mul_cancel₀ _ (sub_pos.mpr reach.later).ne', add_sub_cancel]
  have isDue : ¬ g.now < (setpointOf (d, w)).time := by
    rw [now]
    exact fun lt => lt_irrefl d (fin_lt.mp lt)
  have ahead : ∀ q ∈ rest.map setpointOf, g.now < q.time := by
    rw [List.forall_mem_map, now]
    exact fun q hq => fin_lt.mpr (feasible.ahead q hq)
  obtain ⟨due, left⟩ := Schedule.due_of_cons follows.queued isDue ahead
  have taken : g.takeDue.At d d w (gradient a p ((d, w) :: rest)) := by
    refine ⟨now, ?_, committed, follows.rate⟩
    unfold Generator.takeDue
    rw [due]
    rfl
  have same : SameSettings g g.takeDue := ⟨rfl, rfl, rfl, rfl, rfl, rfl⟩
  have planned : g.replan = g.takeDue.planNext := by
    unfold Generator.replan
    rw [due]
    exact settle_of_delivered taken (reach.of_same same).holdTarget
  have leg := (feasible.of_same same).nextLeg follows.steady now committed left
  have same' := same.trans (follow_samePlant g.takeDue g.takeDue.nextLeg).sameSettings
  rw [planned]
  refine ⟨follows.steady, feasible.of_same same', left, now, ?_, ?_, ?_⟩
  · rw [sub_self, mul_zero, add_zero]
    exact committed
  · exact congrArg Leg.rate leg
  · exact congrArg Leg.review leg

/-- Going through every target up to `t`. -/
theorem Follows.legsTo {fuel : Nat} (follows : g.Follows a p n targets) (before : n ≤ t)
    (ahead : ∀ q ∈ targets, n < q.1) (enough : targets.length ≤ fuel) :
    ∃ a' p' n' rest, (legsTo (fin t) fuel g).Follows a' p' n' rest ∧ n' ≤ t ∧
      (∀ q ∈ rest, t < q.1) ∧ ∀ s, t ≤ s → polyline a p targets s = polyline a' p' rest s := by
  induction fuel generalizing g a p n targets with
  | zero =>
    obtain rfl := List.length_eq_zero_iff.mp (Nat.le_zero.mp enough)
    exact ⟨a, p, n, [], follows, before, nofun, fun _ _ => rfl⟩
  | succ fuel ih =>
    unfold Generator.legsTo
    cases targets with
    | nil =>
      have far : ¬ g.review ≤ fin t := by
        rw [follows.review]
        exact not_posInf_le_fin t
      rw [if_neg far]
      exact ⟨a, p, n, [], follows, before, nofun, fun _ _ => rfl⟩
    | cons q rest =>
      obtain ⟨d, w⟩ := q
      have review : g.review = fin d := follows.review
      have later : n < d := ahead (d, w) List.mem_cons_self
      rcases le_or_gt d t with due | far
      · have next : g.leg.Follows d w d rest := by
          unfold Generator.leg
          rw [review]
          exact (follows.moveTo later.le).replan
        have after := follows.feasible.2.ahead
        have goes : ¬ g.leg.review ≤ g.leg.now := by
          rw [next.review, next.now]
          cases rest with
          | nil => exact not_posInf_le_fin d
          | cons r rest => exact fun le => ((after r List.mem_cons_self).not_ge (fin_le.mp le))
        rw [review, if_pos (fin_le.mpr due)]
        dsimp only
        rw [if_neg goes]
        obtain ⟨a', p', n', rest', follows', before', ahead', same⟩ :=
          ih next due after (Nat.le_of_succ_le_succ enough)
        refine ⟨a', p', n', rest', follows', before', ahead', ?_⟩
        intro s hs
        rw [polyline_of_le (due.trans hs), same s hs]
      · rw [review, if_neg (fun le => far.not_ge (fin_le.mp le))]
        refine ⟨a, p, n, (d, w) :: rest, follows, before, ?_, fun _ _ => rfl⟩
        rw [List.forall_mem_cons]
        exact ⟨far, fun r hr => far.trans (follows.feasible.2.ahead r hr)⟩

/-- The generator is on the line `f` at `n`, and heads along it. -/
def Traces (f : K → K) (n : K) (g : Generator (Exact K)) : Prop :=
  ∃ a p targets, g.Follows a p n targets ∧ (∀ q ∈ targets, n < q.1) ∧
    ∀ s, n ≤ s → f s = polyline a p targets s

omit [IsStrictOrderedRing K] in
theorem Traces.now {f : K → K} (traces : g.Traces f n) : g.now = fin n := by
  obtain ⟨a, p, targets, follows, -⟩ := traces
  exact follows.now

omit [IsStrictOrderedRing K] in
theorem Traces.committed {f : K → K} (traces : g.Traces f n) : g.committed = fin (f n) := by
  obtain ⟨a, p, targets, follows, ahead, line⟩ := traces
  rw [line n le_rfl, polyline_of_lt ahead]
  exact follows.committed

/-- An advance goes on along the line; a time that is past is ignored. -/
theorem Traces.advance {f : K → K} (traces : g.Traces f n) (t : K) :
    (g.advance (fin t)).Traces f (max n t) := by
  obtain ⟨a, p, targets, follows, ahead, line⟩ := traces
  unfold Generator.advance
  rw [follows.now]
  rcases le_or_gt t n with past | later
  · rw [if_pos (.inr (fin_le.mpr past)), max_eq_left past]
    exact ⟨a, p, targets, follows, ahead, line⟩
  · have enough : targets.length ≤ g.legBound := by
      have size : g.schedule.size = targets.length := by
        unfold Schedule.size
        rw [follows.queued, List.length_map]
      unfold legBound
      rw [size]
      omega
    obtain ⟨a', p', n', rest, follows', before, ahead', same⟩ :=
      follows.legsTo later.le ahead enough
    rw [if_neg (by simpa using later), max_eq_right later.le]
    refine ⟨a', p', rest, follows'.moveTo before, ahead', ?_⟩
    intro s hs
    rw [line s (later.le.trans hs), same s hs]

theorem Traces.advances {f : K → K} (traces : g.Traces f n) (times : List K) :
    (times.foldl (fun g t => g.advance (fin t)) g).Traces f (times.foldl max n) := by
  induction times generalizing g n with
  | nil => exact traces
  | cons t times ih => exact ih (traces.advance t)

end Following

/-! ## Schedules in reach -/

/-- A generator made ready with nothing to do is poised. -/
theorem poised_start (steady : g.mode.effective = .interpolated)
    (empty : (g.start (fin n)).schedule.setpoints = [])
    (committed : (g.start (fin n)).committed = fin p) : (g.start (fin n)).Poised n p [] := by
  let h := { g with schedule := g.schedule.dropBefore (fin n), now := fin n, last := fin n }
  obtain ⟨rate, review⟩ := rests_of_replan_empty (g := h) empty
  have plant := replan_samePlant h
  have idle := nextLeg_idle empty
  refine ⟨?_, plant.now, committed, ?_, by rw [empty]; rfl, nofun, planNext_eq_self ?_ ?_⟩
  · show h.replan.mode.effective = .interpolated
    rw [plant.mode]
    exact steady
  · unfold Schedule.Sorted
    rw [empty]
    exact .nil
  · rw [idle]
    exact rate.symm
  · rw [idle]
    exact review.symm

variable [IsStrictOrderedRing K]

theorem Poised.traces (poised : g.Poised n p targets) (feasible : g.Feasible n p targets) :
    g.Traces (polyline n p targets) n := by
  have queued := poised.setpoints_eq feasible.ordered
  have leg := feasible.nextLeg poised.steady poised.now poised.committed queued
  refine ⟨n, p, targets, ⟨poised.steady, feasible, queued, poised.now, ?_, ?_, ?_⟩,
    poised.ahead, fun _ _ => rfl⟩
  · rw [sub_self, mul_zero, add_zero]
    exact poised.committed
  · rw [← poised.planned]
    exact congrArg Leg.rate leg
  · rw [← poised.planned]
    exact congrArg Leg.review leg

/-- A generator that ramps steadily, made ready with nothing to do, follows a schedule in reach
exactly, whatever order its targets are queued in and whatever times it is advanced to. -/
theorem follows_polyline (steady : g.mode.effective = .interpolated)
    (empty : (g.start (fin n)).schedule.setpoints = [])
    (committed : (g.start (fin n)).committed = fin p) (feasible : g.Feasible n p targets)
    {order : List (K × K)} (same : order.Perm targets) (times : List K) :
    let h := times.foldl (fun g t => g.advance (fin t)) ((g.start (fin n)).queue order)
    h.now = fin (times.foldl max n) ∧
      h.committed = fin (polyline n p targets (times.foldl max n)) := by
  have ahead : ∀ q ∈ order, n < q.1 := fun q hq => feasible.ahead q (same.mem_iff.mp hq)
  have poised := (poised_start steady empty committed).queue ahead
  rw [List.append_nil] at poised
  have settings := (start_sameSettings g (fin n)).trans (queue_sameSettings _ order)
  have traces := ((poised.perm same).traces (feasible.of_same settings)).advances times
  exact ⟨traces.now, traces.committed⟩

/-- In a reserved mode, with a reserve held and in use: three targets queued out of order, one of
which only asks to stay, and a stop halfway down to the last. -/
theorem follows_polyline_reserved :
    let g := (idle (fin (20 : ℚ))).run [.setMode .onTargetRamp, .setRampLimits 2 1,
      .setPowerLimits 0 100, .holdReserve 30, .callReserve 12, .addNow 20, .advance 3]
    let h := [20, 45, 30, 70].foldl (fun g t => g.advance (fin t))
      ((g.start (fin 10)).queue [(90, 30), (40, 70), (50, 70)])
    h.now = fin 70 ∧ h.committed = fin 50 := by
  intro g h
  have feasible : g.Feasible 10 20 [(40, 70), (50, 70), (90, 30)] := by decide +kernel
  have same : [((90 : ℚ), (30 : ℚ)), (40, 70), (50, 70)].Perm [(40, 70), (50, 70), (90, 30)] := by
    decide +kernel
  have follows := follows_polyline (by decide +kernel) (by decide +kernel) (by decide +kernel)
    feasible same [20, 45, 30, 70]
  have time : [(20 : ℚ), 45, 30, 70].foldl max 10 = 70 := by decide +kernel
  have power : polyline (10 : ℚ) 20 [(40, 70), (50, 70), (90, 30)] 70 = 50 := by decide +kernel
  rw [time, power] at follows
  exact follows

end Generator

end UnitDispatch
