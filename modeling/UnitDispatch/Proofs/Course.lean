import UnitDispatch.Proofs.Restraint

/-! # Keeping on course

`OnCourse` is what holds of a generator between two actions: nothing on its schedule is due, and
the leg in progress ends ahead of the clock, no later than the first setpoint, and does not pass
the power it makes for. `Plotted` is the same without a word about the rate, which limits that were
negative once may have left behind. `Ready` is what a revision of the plan needs to put a generator
on course, and `OnCourse.moveTo_ready` says that a generator moved along its leg is ready again.
-/

namespace UnitDispatch

open Quantity Exact

namespace Generator

variable {K : Type} [Field K] [LinearOrder K] {g h : Generator (Exact K)} {n l c ρ : K}

/-! ## The leg in progress -/

/-- The rate is within the ramp limits. -/
structure Rated (g : Generator (Exact K)) : Prop where
  down : -g.envelope.rampDown ≤ g.rate
  up : g.rate ≤ g.envelope.rampUp

/-- A leg in progress up to `r`, which makes for the power `w`. -/
structure Underway (g : Generator (Exact K)) (n c ρ r w : K) : Prop where
  review : g.review = fin r
  before : n < r
  nonempty : g.schedule.setpoints ≠ []
  first : ∀ p ∈ g.schedule.setpoints, fin r ≤ p.time
  held : g.holdTarget (fin w) = fin w
  /-- It does not pass that power. -/
  short : ρ * (r - n) ∈ Set.uIcc 0 (w - c)

/-- The leg in progress, or rest when the schedule is empty. -/
inductive Heading (g : Generator (Exact K)) (n c ρ : K) : Prop
  | rest (empty : g.schedule.setpoints = []) (rate : ρ = 0) (review : g.review = unbounded)
  | leg {r w : K} (underway : g.Underway n c ρ r w)

/-- Schedule and clock are in order, and so is what is called of the reserve. -/
structure Orderly (g : Generator (Exact K)) (n l c ρ : K) : Prop where
  sorted : g.schedule.Sorted
  times : ∀ p ∈ g.schedule.setpoints, isFinite p.time = true
  stands : g.At n l c ρ
  last : l ≤ n
  called : g.reserve.Called

/-- Nothing is due, and the leg in progress suits the schedule, whatever its rate. -/
structure Plotted (g : Generator (Exact K)) (n l c ρ : K) : Prop extends Orderly g n l c ρ where
  ahead : ∀ p ∈ g.schedule.setpoints, g.now < p.time
  heading : g.Heading n c ρ

/-- Fit to have its plan revised: a rate that may be kept is within the limits. -/
structure Ready (g : Generator (Exact K)) (n l c ρ : K) : Prop extends Orderly g n l c ρ where
  rated : (∀ p ∈ g.schedule.setpoints, g.now < p.time) ∨ g.Rated

/-- Nothing is due, and the leg in progress suits the schedule. -/
structure OnCourse (g : Generator (Exact K)) (n l c ρ : K) : Prop extends Orderly g n l c ρ where
  ahead : ∀ p ∈ g.schedule.setpoints, g.now < p.time
  rated : g.Rated
  heading : g.Heading n c ρ

theorem Orderly.regular (orderly : g.Orderly n l c ρ) : g.Regular :=
  ⟨orderly.sorted, orderly.times, n, l, c, ρ, orderly.stands⟩

theorem OnCourse.plotted (course : g.OnCourse n l c ρ) : g.Plotted n l c ρ :=
  ⟨course.toOrderly, course.ahead, course.heading⟩

theorem Plotted.onCourse (plotted : g.Plotted n l c ρ) (rated : g.Rated) : g.OnCourse n l c ρ :=
  ⟨plotted.toOrderly, plotted.ahead, rated, plotted.heading⟩

theorem Plotted.now_lt_review (plotted : g.Plotted n l c ρ) : g.now < g.review := by
  rw [plotted.stands.now]
  cases plotted.heading with
  | rest _ _ review => exact review ▸ fin_lt_posInf n
  | leg underway => exact underway.review ▸ fin_lt.mpr underway.before

theorem OnCourse.now_lt_review (course : g.OnCourse n l c ρ) : g.now < g.review :=
  course.plotted.now_lt_review

theorem Plotted.lt_review_of_not_le (plotted : g.Plotted n l c ρ) {t : K}
    (later : ¬ g.review ≤ fin t) : fin t < g.review :=
  fin_lt_of_not_le (plotted.stands.now ▸ plotted.now_lt_review) later

theorem Rated.of_same (rated : g.Rated) (same : SameSettings g h) (rate : h.rate = g.rate) :
    h.Rated := by
  refine ⟨?_, ?_⟩ <;> rw [same.envelope, rate]
  · exact rated.down
  · exact rated.up

/-! ## Planning toward the setpoint ahead -/

/-- How many reviews can still come before the setpoint ahead is due. -/
def stage {α : Type} [Quantity α] (g : Generator α) : Nat :=
  match g.schedule.first? with
  | none => 0
  | some head =>
    let delta := g.holdTarget head.power - g.committed
    if magnitude delta < tolerance then 0
    else Approach.turns
      { now := g.now, last := g.last, due := head.time, delta, rate := g.rate,
        limitUp := g.rampLimitUp, limitDown := g.envelope.rampDown, rampTime := g.rampTime }
      g.mode + 1

theorem stage_eq {head : Setpoint (Exact K)} {d w : K} (stands : g.At n l c ρ)
    (first : g.schedule.first? = some head) (time : head.time = fin d)
    (held : g.holdTarget head.power = fin w) :
    g.stage = if |w - c| < 1 / 10 ^ 4 then 0
      else Approach.turns
        (.between n l d (w - c) ρ g.rampLimitUp g.envelope.rampDown g.rampTime) g.mode + 1 := by
  unfold stage
  rw [first]
  dsimp only
  rw [held, time, stands.now, stands.last, stands.committed, stands.rate, fin_sub, magnitude_fin,
    tolerance_eq]
  simp only [fin_lt]
  rfl

theorem stage_le (g : Generator (Exact K)) : g.stage ≤ 4 := by
  unfold stage
  dsimp only
  split
  · exact Nat.zero_le 4
  · split
    · exact Nat.zero_le 4
    · exact Nat.succ_le_succ (g.mode.turns_le _)

/-! ## Parts of a revision -/

/-- A setpoint of the generator's own is on time when nothing on the schedule precedes it. -/
theorem le_of_not_precedes (sorted : g.schedule.Sorted)
    (times : ∀ p ∈ g.schedule.setpoints, isFinite p.time = true) {f : K}
    (free : g.schedule.precedes (fin f) = false) :
    ∀ p ∈ g.schedule.setpoints, fin f ≤ p.time := by
  intro p hp
  cases first : g.schedule.first? with
  | none =>
    rw [Schedule.first?_eq_none_iff.mp first] at hp
    exact (List.not_mem_nil hp).elim
  | some head =>
    unfold Schedule.precedes at free
    rw [first] at free
    have finite := times head (Schedule.mem_of_first? first)
    have le : fin f ≤ head.time := le_of_not_lt finite (isFinite_fin f) (by simpa using free)
    exact le_trans le (sorted.first?_le first finite hp)

theorem Orderly.takeDue (orderly : g.Orderly n l c ρ) : ∃ l', g.takeDue.Orderly n l' c ρ := by
  obtain ⟨l', stands, last⟩ := orderly.stands.takeDue orderly.times
  exact ⟨l', orderly.regular.takeDue.sorted, orderly.regular.takeDue.times, stands,
    last orderly.last, orderly.called⟩

theorem Workable.takeDue (workable : g.Workable) : g.takeDue.Workable := by
  refine workable.of_same ⟨rfl, rfl, rfl, rfl, rfl, rfl⟩ ?_
  intro p hp
  exact workable.targets p (Schedule.mem_of_mem_afterDue hp)

theorem Workable.planNext (workable : g.Workable) : g.planNext.Workable :=
  workable.of_same (follow_samePlant g g.nextLeg).sameSettings workable.targets

theorem Orderly.jump (orderly : g.Orderly n l c ρ) (x : K) :
    (g.jump (fin x)).Orderly n l (c + x) ρ := by
  refine ⟨orderly.sorted, orderly.times, ⟨orderly.stands.now, orderly.stands.last, ?_,
    orderly.stands.rate⟩, orderly.last, orderly.called⟩
  rw [← fin_add, ← orderly.stands.committed]
  rfl

theorem Workable.jump (workable : g.Workable) (lack : Exact K) : (g.jump lack).Workable :=
  workable.of_same (jump_samePlant g lack).sameSettings workable.targets

section Plan

variable [IsStrictOrderedRing K]

/-- The leg toward the setpoint ahead keeps within the limits and does not pass the setpoint. When
it ends early, fewer reviews are left before the setpoint is due. -/
theorem nextLeg_kept {head : Setpoint (Exact K)} {d w : K} (limits : g.LimitsNonneg)
    (orderly : g.Orderly n l c ρ) (first : g.schedule.first? = some head) (time : head.time = fin d)
    (held : g.holdTarget head.power = fin w) (later : n < d) :
    ∃ v r, g.nextLeg = ⟨fin v, fin r⟩ ∧
      Approach.Kept g.rampLimitUp g.envelope.rampDown n d (w - c) v r ∧
      (r = d ∨ ∀ h σ, At h r l (c + v * (r - n)) σ → h.schedule = g.schedule →
        SameSettings g h → h.stage < g.stage) := by
  rw [nextLeg_eq orderly.stands first time held, stage_eq orderly.stands first time held]
  by_cases near : |w - c| < 1 / 10 ^ 4
  · rw [if_pos near, zero_eq]
    exact ⟨0, d, rfl, Approach.rest_kept limits.limitUp limits.rampDown later le_rfl, .inl rfl⟩
  · obtain ⟨v, r, leg, kept, early⟩ := g.mode.leg_kept ρ limits.limitUp limits.rampDown
      limits.rampTime orderly.last later (ne_zero_of_apart near)
    rw [if_neg near, if_neg near]
    refine ⟨v, r, leg, kept, early.imp_right ?_⟩
    intro early h σ stands schedule same
    rw [stage_eq stands (schedule ▸ first) time ((same.holdTarget _).trans held)]
    -- a delivered leg leaves a gap within the tolerance, and a gap like that is rested on
    rcases early with delivered | fewer
    · rw [delivered, add_sub_cancel, sub_self, abs_zero, if_pos (by positivity)]
      exact Nat.succ_pos _
    · split
      · exact Nat.succ_pos _
      · rw [same.rampLimitUp, same.envelope, same.rampTime, same.mode]
        exact Nat.succ_lt_succ (fewer _ _)

/-- Planning toward the setpoint ahead puts a generator on course. -/
theorem Orderly.planNext (orderly : g.Orderly n l c ρ) (workable : g.Workable)
    (ahead : ∀ p ∈ g.schedule.setpoints, g.now < p.time) : ∃ v, g.planNext.OnCourse n l c v := by
  cases first : g.schedule.first? with
  | none =>
    have empty := Schedule.first?_eq_none_iff.mp first
    have idle : g.nextLeg = ⟨fin 0, unbounded⟩ := by rw [nextLeg_idle empty, zero_eq]
    have rate : g.planNext.rate = fin 0 := congrArg Leg.rate idle
    refine ⟨0, ⟨orderly.sorted, orderly.times, ?_, orderly.last, orderly.called⟩, ahead, ?_,
      .rest empty rfl (congrArg Leg.review idle)⟩
    · exact ⟨orderly.stands.now, orderly.stands.last, orderly.stands.committed, rate⟩
    · refine ⟨?_, ?_⟩ <;> rw [rate]
      · exact neg_le_of_nonneg workable.rampDown le_rfl
      · rw [← zero_eq]
        exact workable.rampUp
  | some head =>
    have mem := Schedule.mem_of_first? first
    obtain ⟨d, w, time, held, later⟩ :=
      orderly.regular.head workable.proper orderly.stands ahead first
    obtain ⟨v, r, leg, kept, -⟩ :=
      nextLeg_kept workable.toLimitsNonneg orderly first time held later
    have rate : g.planNext.rate = fin v := congrArg Leg.rate leg
    refine ⟨v, ⟨orderly.sorted, orderly.times, ?_, orderly.last, orderly.called⟩, ahead, ?_,
      .leg (r := r) (w := w) ⟨congrArg Leg.review leg, kept.ahead, List.ne_nil_of_mem mem, ?_,
        holdTarget_fin held, kept.short⟩⟩
    · exact ⟨orderly.stands.now, orderly.stands.last, orderly.stands.committed, rate⟩
    · refine ⟨?_, ?_⟩ <;> rw [rate]
      · exact kept.down
      · exact le_trans kept.up (rampLimitUp_le orderly.called workable.limitUp)
    · intro p hp
      have := orderly.sorted.first?_le first (orderly.times head mem) hp
      rw [time] at this
      exact le_trans (fin_le.mpr kept.inTime) this

/-! ## Catching up -/

/-- A rate that leads toward a power takes time to get there. -/
theorem div_pos_of_lead {v x : K} (lead : 0 < v * x) : 0 < x / v := by
  have nonzero : v ≠ 0 := left_ne_zero_of_mul lead.ne'
  rw [← mul_div_mul_left x v nonzero]
  exact div_pos lead (mul_self_pos.mpr nonzero)

/-- A ramp toward a setpoint of the generator's own suits the schedule. -/
theorem Orderly.carry (orderly : g.Orderly n l c ρ)
    (ahead : ∀ p ∈ g.schedule.setpoints, g.now < p.time) {w v : K}
    (held : g.holdTarget (fin w) = fin w) (lead : 0 < v * (w - c))
    (free : g.schedule.precedes (fin (n + (w - c) / v)) = false) :
    (g.carry (fin w) ⟨fin v, fin (n + (w - c) / v)⟩).Plotted n l c v := by
  have nonzero : v ≠ 0 := left_ne_zero_of_mul lead.ne'
  have before : n < n + (w - c) / v := lt_add_of_pos_right n (div_pos_of_lead lead)
  refine ⟨⟨orderly.sorted.insert orderly.times (isFinite_fin _), ?_, ?_, orderly.last,
    orderly.called⟩, ?_, .leg (r := n + (w - c) / v) (w := w) ⟨rfl, before, ?_, ?_, held, ?_⟩⟩
  · intro p hp
    rcases Schedule.mem_insert.mp hp with rfl | hp
    · exact isFinite_fin _
    · exact orderly.times p hp
  · exact ⟨orderly.stands.now, orderly.stands.last, orderly.stands.committed, rfl⟩
  · intro p hp
    rcases Schedule.mem_insert.mp hp with rfl | hp
    · show g.now < _
      rw [orderly.stands.now]
      exact fin_lt.mpr before
    · exact ahead p hp
  · exact Schedule.insert_nonempty _ _
  · intro p hp
    rcases Schedule.mem_insert.mp hp with rfl | hp
    · exact fin_le.mpr le_rfl
    · exact le_of_not_precedes orderly.sorted orderly.times free p hp
  · rw [add_sub_cancel_left, mul_div_cancel₀ _ nonzero]
    exact Set.right_mem_uIcc

/-! ## Revising the plan -/

/-- A revision leaves a plan that suits the schedule, and a rate within the limits unless it keeps one
that was not. -/
theorem Orderly.replan (orderly : g.Orderly n l c ρ) (workable : g.Workable) :
    ∃ l' c' v, g.replan.Plotted n l' c' v ∧
      ((∀ p ∈ g.schedule.setpoints, g.now < p.time) ∨ g.Rated → g.replan.Rated) := by
  have revises := replan_revises orderly.regular workable.proper orderly.stands
  have later := orderly.regular.takeDue_ahead
  obtain ⟨l', taken⟩ := orderly.takeDue
  generalize g.replan = h at revises ⊢
  cases revises with
  | ahead ahead =>
    obtain ⟨v, course⟩ := orderly.planNext workable ahead
    exact ⟨l, c, v, course.plotted, fun _ => course.rated⟩
  | next =>
    obtain ⟨v, course⟩ := taken.planNext workable.takeDue later
    exact ⟨l', c, v, course.plotted, fun _ => course.rated⟩
  | @carry p w v due held lead rate free =>
    refine ⟨l', c, v, taken.carry later (holdTarget_fin held) lead free, ?_⟩
    -- with a setpoint due, it is the rate in progress that is known to be within the limits
    rintro (ahead | rated)
    · exact (List.ne_nil_of_mem due (Schedule.due_eq_nil ahead)).elim
    · have leeway := workable.takeDue.toLimitsNonneg.leeway taken.called
      have within := leeway.catchupRate ⟨rated.down, rated.up⟩ (fin (w - c))
      rw [rate] at within
      exact ⟨within.down, within.up⟩
  | @jump p w =>
    obtain ⟨v, course⟩ := (taken.jump (w - c)).planNext (workable.takeDue.jump _) later
    exact ⟨l', _, v, course.plotted, fun _ => course.rated⟩

/-- A revision of the plan puts a generator on course. -/
theorem Ready.replan (ready : g.Ready n l c ρ) (workable : g.Workable) :
    ∃ l' c' v, g.replan.OnCourse n l' c' v := by
  obtain ⟨l', c', v, plotted, rated⟩ := ready.toOrderly.replan workable
  exact ⟨l', c', v, plotted.onCourse (rated ready.rated)⟩

/-! ## Moving along the leg -/

/-- What is left of a leg that does not pass a power does not pass it either. -/
theorem short_rest {r t w : K} (before : n < r) (htr : t ≤ r)
    (short : ρ * (r - n) ∈ Set.uIcc 0 (w - c)) :
    ρ * (r - t) ∈ Set.uIcc 0 (w - (c + ρ * (t - n))) := by
  have length : 0 < r - n := sub_pos.mpr before
  have parts : ρ * (r - n) = ρ * (t - n) + ρ * (r - t) := by ring
  rcases Set.mem_uIcc.mp short with ⟨low, high⟩ | ⟨low, high⟩
  · have up : 0 ≤ ρ := nonneg_of_mul_nonneg_left low length
    have := mul_nonneg up (sub_nonneg.mpr htr)
    exact Set.mem_uIcc_of_le this (by linarith)
  · have down : ρ ≤ 0 := nonpos_of_mul_nonpos_left high length
    have := mul_nonpos_of_nonpos_of_nonneg down (sub_nonneg.mpr htr)
    exact Set.mem_uIcc_of_ge (by linarith) this

/-- Part of a leg that does not pass a power leads toward it. -/
theorem short_part {r s w : K} (before : n < r) (hs : n ≤ s) (hsr : s ≤ r)
    (short : ρ * (r - n) ∈ Set.uIcc 0 (w - c)) : c + ρ * (s - n) ∈ Set.uIcc c w := by
  have length : 0 < r - n := sub_pos.mpr before
  have parts : ρ * (r - n) = ρ * (s - n) + ρ * (r - s) := by ring
  rcases Set.mem_uIcc.mp short with ⟨low, high⟩ | ⟨low, high⟩
  · have up : 0 ≤ ρ := nonneg_of_mul_nonneg_left low length
    have gone := mul_nonneg up (sub_nonneg.mpr hs)
    have left := mul_nonneg up (sub_nonneg.mpr hsr)
    exact Set.mem_uIcc_of_le (by linarith) (by linarith)
  · have down : ρ ≤ 0 := nonpos_of_mul_nonpos_left high length
    have gone := mul_nonpos_of_nonpos_of_nonneg down (sub_nonneg.mpr hs)
    have left := mul_nonpos_of_nonpos_of_nonneg down (sub_nonneg.mpr hsr)
    exact Set.mem_uIcc_of_ge (by linarith) (by linarith)

/-- Up to the review, committed power lies between where it is and a power that is held as it is. -/
theorem OnCourse.toward (course : g.OnCourse n l c ρ) {s : K} (hs : n ≤ s)
    (short : fin s ≤ g.review) :
    ρ = 0 ∨ ∃ w, g.holdTarget (fin w) = fin w ∧ c + ρ * (s - n) ∈ Set.uIcc c w := by
  cases course.heading with
  | rest _ rate => exact .inl rate
  | @leg r w underway =>
    rw [underway.review, fin_le] at short
    exact .inr ⟨w, underway.held, short_part underway.before hs short underway.short⟩

/-- A time that does not lie ahead is ignored. -/
theorem moveTo_of_past (now : g.now = fin n) {t : K} (past : t ≤ n) : g.moveTo (fin t) = g := by
  unfold Generator.moveTo
  dsimp only
  rw [now, fin_sub, if_neg (by simpa using past)]

/-- Clock, power and rate after a move along the leg. -/
theorem moveTo_of_le (now : g.now = fin n) (committed : g.committed = fin c)
    (rate : g.rate = fin ρ) {t : K} (ht : n ≤ t) : (g.moveTo (fin t)).now = fin t ∧
      (g.moveTo (fin t)).committed = fin (c + ρ * (t - n)) ∧ (g.moveTo (fin t)).rate = fin ρ := by
  rcases ht.lt_or_eq with ahead | rfl
  · unfold Generator.moveTo
    dsimp only
    rw [now, fin_sub, if_pos (by simpa using ahead)]
    refine ⟨rfl, ?_, rate⟩
    show g.committed + g.rate * fin (t - n) = _
    rw [committed, rate]
    rfl
  · rw [moveTo_of_past now le_rfl, sub_self, mul_zero, add_zero]
    exact ⟨now, committed, rate⟩

theorem At.moveTo (stands : g.At n l c ρ) {t : K} (ht : n ≤ t) :
    (g.moveTo (fin t)).At t l (c + ρ * (t - n)) ρ := by
  obtain ⟨now, committed, rate⟩ := moveTo_of_le stands.now stands.committed stands.rate ht
  exact ⟨now, (moveTo_last g _).trans stands.last, committed, rate⟩

theorem Orderly.moveTo (orderly : g.Orderly n l c ρ) {t : K} (ht : n ≤ t) :
    (g.moveTo (fin t)).Orderly t l (c + ρ * (t - n)) ρ where
  sorted := by rw [moveTo_schedule]; exact orderly.sorted
  times := by rw [moveTo_schedule]; exact orderly.times
  stands := orderly.stands.moveTo ht
  last := orderly.last.trans ht
  called := (moveTo_sameSettings g _).called orderly.called

theorem OnCourse.rated_moveTo (course : g.OnCourse n l c ρ) {t : K} (ht : n ≤ t) :
    (g.moveTo (fin t)).Rated :=
  course.rated.of_same (moveTo_sameSettings g _)
    ((course.stands.moveTo ht).rate.trans course.stands.rate.symm)

/-- A generator moved along its leg up to the review is fit to have its plan revised. -/
theorem OnCourse.moveTo_ready (course : g.OnCourse n l c ρ) {t : K} (ht : n ≤ t) :
    (g.moveTo (fin t)).Ready t l (c + ρ * (t - n)) ρ :=
  ⟨course.toOrderly.moveTo ht, .inr (course.rated_moveTo ht)⟩

/-- Moved along its leg, a generator keeps a plan that suits the schedule short of the review. -/
theorem Plotted.moveTo (plotted : g.Plotted n l c ρ) {t : K} (ht : n ≤ t)
    (short : fin t < g.review) : (g.moveTo (fin t)).Plotted t l (c + ρ * (t - n)) ρ := by
  have moved := plotted.toOrderly.moveTo ht
  refine ⟨moved, ?_, ?_⟩
  · rw [moveTo_schedule, moved.stands.now]
    intro p hp
    cases plotted.heading with
    | rest empty => simp [empty] at hp
    | leg underway => exact lt_of_lt_of_le (underway.review ▸ short) (underway.first p hp)
  · cases plotted.heading with
    | rest empty rate review =>
      exact .rest ((moveTo_schedule g _).symm ▸ empty) rate ((moveTo_review g _).trans review)
    | @leg r w underway =>
      have early : t < r := by
        rwa [underway.review, fin_lt] at short
      refine .leg (r := r) (w := w) ⟨(moveTo_review g _).trans underway.review, early, ?_, ?_, ?_,
        short_rest underway.before early.le underway.short⟩
      · rw [moveTo_schedule]
        exact underway.nonempty
      · rw [moveTo_schedule]
        exact underway.first
      · rw [(moveTo_sameSettings g _).holdTarget]
        exact underway.held

/-- A generator moved along its leg stays on course short of the review. -/
theorem OnCourse.moveTo (course : g.OnCourse n l c ρ) {t : K} (ht : n ≤ t)
    (short : fin t < g.review) : (g.moveTo (fin t)).OnCourse t l (c + ρ * (t - n)) ρ :=
  (course.plotted.moveTo ht short).onCourse (course.rated_moveTo ht)

end Plan

end Generator

end UnitDispatch
