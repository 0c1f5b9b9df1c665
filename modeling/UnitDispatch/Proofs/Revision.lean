import UnitDispatch.Proofs.Condition
import UnitDispatch.Proofs.Leg

/-! # What a revision does

`Revises` lists what a revision of the plan can make of a generator, with all that is known in each
case, and `replan_revises` says that there is nothing else. Whatever a revision keeps is proved by
going through the list. `Regular.replan` is the first use: numbers stay numbers.
-/

namespace UnitDispatch

open Quantity Exact

namespace Generator

/-! ## Seeing to what is due -/

section Settle

variable {α : Type} [Quantity α] {g : Generator α} {power lack rate : α}

/-- What seeing to `lack`, which is missing of `power`, can make of a generator. -/
inductive Settles (g : Generator α) (power lack : α) : Generator α → Prop
  | delivered (none : (lack == 0) = true) : Settles g power lack g.planNext
  /-- Something else falls due before it could be made up. -/
  | overtaken {rate : α} (some : (lack == 0) = false) (ramp : g.catchup lack = .ramp rate)
      (early : g.schedule.precedes (g.now + lack / rate) = true) : Settles g power lack g.planNext
  | carry {rate : α} (some : (lack == 0) = false) (ramp : g.catchup lack = .ramp rate)
      (free : g.schedule.precedes (g.now + lack / rate) = false) :
      Settles g power lack (g.carry power ⟨rate, g.now + lack / rate⟩)
  | jump (some : (lack == 0) = false) (atOnce : g.catchup lack = .atOnce) :
      Settles g power lack (g.jump lack).planNext
  | stuck (some : (lack == 0) = false) (never : g.catchup lack = .never) :
      Settles g power lack g.planNext

/-- The list is complete. -/
theorem settle_settles (g : Generator α) (wanted : α) :
    g.Settles (g.holdTarget wanted) (g.lack (g.holdTarget wanted)) (g.settle wanted) := by
  unfold settle
  dsimp only
  split
  next none => exact .delivered none
  next missing =>
    have some := Bool.eq_false_iff.mpr missing
    cases way : g.catchup (g.lack (g.holdTarget wanted)) with
    | ramp rate =>
      dsimp only
      split
      next early => exact .overtaken some way early
      next free => exact .carry some way (Bool.eq_false_iff.mpr free)
    | atOnce => exact .jump some way
    | never => exact .stuck some way

/-- A ramp leads toward what is missing. -/
theorem eq_of_catchup_ramp (ramp : g.catchup lack = .ramp rate) :
    rate = g.catchupRate lack ∧ isInfinite rate = false ∧ 0 < rate * lack := by
  unfold catchup at ramp
  dsimp only at ramp
  split at ramp
  · cases ramp
  next bounded =>
    split at ramp
    next lead =>
      cases ramp
      exact ⟨rfl, Bool.eq_false_iff.mpr bounded, lead⟩
    next => cases ramp

theorem isInfinite_of_catchup_atOnce (atOnce : g.catchup lack = .atOnce) :
    isInfinite (g.catchupRate lack) = true := by
  unfold catchup at atOnce
  dsimp only at atOnce
  split at atOnce
  next infinite => exact infinite
  next => split at atOnce <;> cases atOnce

/-- With nothing due, a revision only plans on. -/
theorem replan_of_ahead (ahead : ∀ p ∈ g.schedule.setpoints, g.now < p.time) :
    g.replan = g.planNext := by
  unfold replan
  rw [Schedule.due_eq_nil ahead]
  rfl

end Settle

variable {K : Type} [Field K] [LinearOrder K] {g : Generator (Exact K)} {n l c ρ : K}

theorem tolerance_eq : (tolerance : Exact K) = fin (1 / 10 ^ 4) := by
  unfold tolerance
  rw [ofScientific_fin, Nat.cast_one]

theorem ne_zero_of_apart [IsStrictOrderedRing K] {x : K} (apart : ¬ |x| < 1 / 10 ^ 4) : x ≠ 0 := by
  rintro rfl
  rw [abs_zero] at apart
  exact apart (by positivity)

/-- A power held once is held as it is. -/
theorem holdTarget_holdTarget (g : Generator (Exact K)) (power : Exact K) :
    g.holdTarget (g.holdTarget power) = g.holdTarget power :=
  limit_limit _ _ power

theorem holdTarget_fin {x : Exact K} {w : K} (h : g.holdTarget x = fin w) :
    g.holdTarget (fin w) = fin w := by
  rw [← h]
  exact holdTarget_holdTarget g x

/-! ## The leg toward the setpoint ahead -/

/-- The leg toward the setpoint ahead, in numbers. -/
theorem nextLeg_eq {head : Setpoint (Exact K)} {d w : K} (stands : g.At n l c ρ)
    (first : g.schedule.first? = some head) (time : head.time = fin d)
    (held : g.holdTarget head.power = fin w) :
    g.nextLeg = if |w - c| < 1 / 10 ^ 4 then ⟨0, fin d⟩
      else g.mode.leg
        (.between n l d (w - c) ρ g.rampLimitUp g.envelope.rampDown g.rampTime) := by
  unfold nextLeg
  rw [first]
  dsimp only
  rw [held, time, stands.now, stands.last, stands.committed, stands.rate, fin_sub, magnitude_fin,
    tolerance_eq]
  simp only [fin_lt]
  rfl

theorem nextLeg_idle (empty : g.schedule.setpoints = []) : g.nextLeg = ⟨0, unbounded⟩ := by
  unfold nextLeg
  rw [Schedule.first?_eq_none_iff.mpr empty]

/-! ## Catching up -/

theorem catchupRate_eq (stands : g.At n l c ρ) (x : K) :
    g.catchupRate (fin x) = if 0 < ρ * x then fin ρ
      else if 0 < x then if 0 < g.rampLimitUp then g.rampLimitUp else g.envelope.rampUp
      else -g.envelope.rampDown := by
  unfold catchupRate
  rw [stands.rate]
  simp only [fin_mul, zero_eq, fin_lt]

theorem catchupRate_eq_fin_or (proper : g.Proper) (stands : g.At n l c ρ) (x : K) :
    (∃ v, g.catchupRate (fin x) = fin v) ∨ isInfinite (g.catchupRate (fin x)) = true := by
  have inf : isInfinite (posInf : Exact K) = true := rfl
  have negInf : isInfinite (negInf : Exact K) = true := rfl
  rw [catchupRate_eq stands]
  split_ifs
  · exact .inl ⟨ρ, rfl⟩
  · obtain ⟨v, h⟩ | h := eq_of_negInf_lt proper.limitUp
    · exact .inl ⟨v, h⟩
    · exact .inr (h ▸ inf)
  · obtain ⟨v, h⟩ | h := eq_of_negInf_lt proper.rampUp
    · exact .inl ⟨v, h⟩
    · exact .inr (h ▸ inf)
  · obtain ⟨v, h⟩ | h := eq_of_negInf_lt proper.rampDown
    · exact .inl ⟨-v, by rw [h]; rfl⟩
    · exact .inr (by rw [h]; exact negInf)

theorem lack_eq (stands : g.At n l c ρ) (w : K) :
    g.lack (fin w) = if |w - c| < 1 / 10 ^ 4 then 0 else fin (w - c) := by
  unfold lack
  rw [stands.committed, fin_sub]
  dsimp only
  rw [magnitude_fin, tolerance_eq]
  simp only [fin_lt]

/-! ## The cases of a revision -/

/-- What a revision of the plan can make of a generator whose clock shows `n` and whose committed
power is `c`. -/
inductive Revises (g : Generator (Exact K)) (n c : K) : Generator (Exact K) → Prop
  /-- Nothing is due. -/
  | ahead (ahead : ∀ p ∈ g.schedule.setpoints, g.now < p.time) : Revises g n c g.planNext
  /-- What is due is delivered, overtaken or out of reach. -/
  | next (due : g.schedule.due g.now ≠ []) : Revises g n c g.takeDue.planNext
  /-- What is due takes a ramp of the generator's own. -/
  | carry {p : Setpoint (Exact K)} {w v : K} (due : p ∈ g.schedule.due g.now)
      (held : g.holdTarget p.power = fin w) (lead : 0 < v * (w - c))
      (rate : g.takeDue.catchupRate (fin (w - c)) = fin v)
      (free : g.takeDue.schedule.precedes (fin (n + (w - c) / v)) = false) :
      Revises g n c (g.takeDue.carry (fin w) ⟨fin v, fin (n + (w - c) / v)⟩)
  /-- What is due is delivered without a ramp. -/
  | jump {p : Setpoint (Exact K)} {w : K} (due : p ∈ g.schedule.due g.now)
      (held : g.holdTarget p.power = fin w)
      (rate : isInfinite (g.takeDue.catchupRate (fin (w - c))) = true) :
      Revises g n c (g.takeDue.jump (fin (w - c))).planNext

theorem settle_revises [IsStrictOrderedRing K] (proper : g.takeDue.Proper)
    {p : Setpoint (Exact K)} {w : K} (due : p ∈ g.schedule.due g.now)
    (stands : g.takeDue.At n l c ρ) (held : g.holdTarget p.power = fin w) :
    Revises g n c (g.takeDue.settle p.power) := by
  have nonempty : g.schedule.due g.now ≠ [] := List.ne_nil_of_mem due
  have settles := g.takeDue.settle_settles p.power
  rw [show g.takeDue.holdTarget p.power = fin w from held, lack_eq stands] at settles
  -- more is missing than the tolerance
  have apart {x : Exact K} (some : ((if |w - c| < 1 / 10 ^ 4 then 0 else x) == 0) = false) :
      ¬ |w - c| < 1 / 10 ^ 4 := by
    intro near
    rw [if_pos near] at some
    simp at some
  generalize g.takeDue.settle p.power = h at settles
  cases settles with
  | delivered | overtaken | stuck => exact .next nonempty
  | @carry rate some ramp free =>
    rw [if_neg (apart some)] at ramp free ⊢
    obtain ⟨same, bounded, lead⟩ := eq_of_catchup_ramp ramp
    rcases catchupRate_eq_fin_or proper stands (w - c) with ⟨v, hv⟩ | infinite
    · obtain rfl : rate = fin v := same.trans hv
      have lead : 0 < v * (w - c) := by simpa using lead
      rw [stands.now, fin_div _ (left_ne_zero_of_mul lead.ne'), fin_add] at free ⊢
      exact .carry due held lead hv free
    · rw [same, infinite] at bounded
      cases bounded
  | jump some atOnce =>
    rw [if_neg (apart some)] at atOnce ⊢
    exact .jump due held (isInfinite_of_catchup_atOnce atOnce)

theorem At.takeDue (stands : g.At n l c ρ)
    (times : ∀ p ∈ g.schedule.setpoints, isFinite p.time = true) :
    ∃ l', g.takeDue.At n l' c ρ ∧ (l ≤ n → l' ≤ n) := by
  cases h : (g.schedule.due g.now).getLast? with
  | none =>
    refine ⟨l, ⟨stands.now, ?_, stands.committed, stands.rate⟩, id⟩
    simp [Generator.takeDue, h, stands.last]
  | some p =>
    have due := List.mem_of_getLast? h
    obtain ⟨t, ht⟩ := isFinite_iff.mp (times p (Schedule.mem_of_mem_due due))
    refine ⟨t, ⟨stands.now, ?_, stands.committed, stands.rate⟩, fun _ => ?_⟩
    · simp [Generator.takeDue, h, ht]
    · have := Schedule.not_lt_of_mem_due due
      rw [stands.now, ht] at this
      simpa using this

theorem Regular.takeDue (regular : g.Regular) : g.takeDue.Regular where
  sorted := regular.sorted.afterDue
  times := by
    intro p hp
    exact regular.times p (Schedule.mem_of_mem_afterDue hp)
  stands := by
    obtain ⟨n, l, c, ρ, stands⟩ := regular.stands
    obtain ⟨l', stands', -⟩ := stands.takeDue regular.times
    exact ⟨n, l', c, ρ, stands'⟩

theorem Regular.takeDue_ahead (regular : g.Regular) :
    ∀ p ∈ g.takeDue.schedule.setpoints, g.now < p.time := by
  intro p hp
  exact regular.sorted.lt_of_mem_afterDue hp

theorem Proper.takeDue (proper : g.Proper) : g.takeDue.Proper := by
  refine proper.of_same ⟨rfl, rfl, rfl, rfl, rfl, rfl⟩ ?_
  intro p hp
  exact proper.targets p (Schedule.mem_of_mem_afterDue hp)

/-- What is due is all that does not lie ahead. -/
theorem Regular.ahead_of_due_eq_nil (regular : g.Regular) (undue : g.schedule.due g.now = []) :
    ∀ p ∈ g.schedule.setpoints, g.now < p.time := by
  intro p hp
  rw [← Schedule.due_append_afterDue g.schedule g.now, undue, List.nil_append] at hp
  exact regular.sorted.lt_of_mem_afterDue hp

/-- Every revision is on the list. -/
theorem replan_revises [IsStrictOrderedRing K] (regular : g.Regular) (proper : g.Proper)
    (stands : g.At n l c ρ) : Revises g n c g.replan := by
  unfold replan
  cases last : (g.schedule.due g.now).getLast? with
  | none => exact .ahead (regular.ahead_of_due_eq_nil (List.getLast?_eq_none_iff.mp last))
  | some p =>
    have due := List.mem_of_getLast? last
    obtain ⟨w, held⟩ := isFinite_iff.mp (proper.targets p (Schedule.mem_of_mem_due due))
    obtain ⟨l', stands', -⟩ := stands.takeDue regular.times
    exact settle_revises proper.takeDue due stands' held

/-- A power within the tolerance leaves nothing to see to. -/
theorem settle_of_near {w : K} (stands : g.At n l c ρ) (held : g.holdTarget (fin w) = fin w)
    (near : |w - c| < 1 / 10 ^ 4) : g.settle (fin w) = g.planNext := by
  unfold settle
  rw [held]
  dsimp only
  rw [lack_eq stands, if_pos near]
  exact if_pos (by simp)

/-- Neither does one that is delivered. -/
theorem settle_of_delivered [IsStrictOrderedRing K] {w : K} (stands : g.At n l w ρ)
    (held : g.holdTarget (fin w) = fin w) : g.settle (fin w) = g.planNext := by
  refine settle_of_near stands held ?_
  rw [sub_self, abs_zero]
  positivity

/-- Where the setpoint ahead stands, in numbers. -/
theorem Regular.head {head : Setpoint (Exact K)} (regular : g.Regular) (proper : g.Proper)
    (stands : g.At n l c ρ) (ahead : ∀ p ∈ g.schedule.setpoints, g.now < p.time)
    (first : g.schedule.first? = some head) :
    ∃ d w, head.time = fin d ∧ g.holdTarget head.power = fin w ∧ n < d := by
  have mem := Schedule.mem_of_first? first
  obtain ⟨d, time⟩ := isFinite_iff.mp (regular.times head mem)
  obtain ⟨w, held⟩ := isFinite_iff.mp (proper.targets head mem)
  have later := ahead head mem
  rw [stands.now, time, fin_lt] at later
  exact ⟨d, w, time, held, later⟩

/-! ## Numbers stay numbers -/

section Regular

variable [IsStrictOrderedRing K]

theorem Regular.planNext (regular : g.Regular) (proper : g.Proper)
    (ahead : ∀ p ∈ g.schedule.setpoints, g.now < p.time) : g.planNext.Regular := by
  obtain ⟨n, l, c, ρ, stands⟩ := regular.stands
  have rate : isFinite g.nextLeg.rate = true := by
    cases first : g.schedule.first? with
    | none =>
      rw [nextLeg_idle (Schedule.first?_eq_none_iff.mp first), zero_eq]
      exact isFinite_fin 0
    | some head =>
      obtain ⟨d, w, time, held, later⟩ := regular.head proper stands ahead first
      rw [nextLeg_eq stands first time held]
      split
      · rw [zero_eq]
        exact isFinite_fin 0
      · exact g.mode.leg_rate_isFinite proper.limitUp proper.rampDown proper.rampTime later
  obtain ⟨v, hv⟩ := isFinite_iff.mp rate
  exact ⟨regular.sorted, regular.times, n, l, c, v, stands.now, stands.last, stands.committed, hv⟩

/-- A revision leaves clock, power and rate numbers, and the schedule in order. -/
theorem Regular.replan (regular : g.Regular) (proper : g.Proper) : g.replan.Regular := by
  have later := regular.takeDue_ahead
  have taken := regular.takeDue
  obtain ⟨n, l, c, ρ, before⟩ := regular.stands
  obtain ⟨l', stands, -⟩ := before.takeDue regular.times
  have revises := replan_revises regular proper before
  generalize g.replan = h at revises ⊢
  cases revises with
  | ahead ahead => exact regular.planNext proper ahead
  | next => exact taken.planNext proper.takeDue later
  | @carry p w v =>
    refine ⟨taken.sorted.insert taken.times (isFinite_fin _), ?_,
      n, l', c, v, stands.now, stands.last, stands.committed, rfl⟩
    intro q hq
    rcases Schedule.mem_insert.mp hq with rfl | hq
    · exact isFinite_fin _
    · exact taken.times q hq
  | @jump p w =>
    have moved : (g.takeDue.jump (fin (w - c))).Regular := by
      refine ⟨taken.sorted, taken.times, n, l', c + (w - c), ρ, stands.now, stands.last, ?_,
        stands.rate⟩
      rw [← fin_add, ← stands.committed]
      rfl
    exact moved.planNext (proper.takeDue.of_same (jump_samePlant _ _).sameSettings
      proper.takeDue.targets) later

/-- A revision leaves on the schedule what was there, or a power that is held as it is. -/
theorem mem_replan (regular : g.Regular) (proper : g.Proper) {q : Setpoint (Exact K)}
    (hq : q ∈ g.replan.schedule.setpoints) :
    q ∈ g.schedule.setpoints ∨ ∃ w, q.power = fin w ∧ g.holdTarget (fin w) = fin w := by
  obtain ⟨n, l, c, ρ, stands⟩ := regular.stands
  have revises := replan_revises regular proper stands
  generalize g.replan = h at revises hq
  cases revises with
  | ahead => exact .inl hq
  | next => exact .inl (Schedule.mem_of_mem_afterDue hq)
  | @carry p w v due held =>
    rcases Schedule.mem_insert.mp hq with rfl | hq
    · exact .inr ⟨w, rfl, holdTarget_fin held⟩
    · exact .inl (Schedule.mem_of_mem_afterDue hq)
  | jump => exact .inl (Schedule.mem_of_mem_afterDue hq)

theorem Workable.replan (workable : g.Workable) (regular : g.Regular) : g.replan.Workable := by
  refine workable.of_same (replan_sameSettings g) ?_
  intro q hq
  rcases mem_replan regular workable.proper hq with old | ⟨w, power, held⟩
  · exact workable.targets q old
  · rw [power, held]
    exact isFinite_fin w

end Regular

end Generator

end UnitDispatch
