import UnitDispatch.Proofs.Leg

/-! # Safe legs

What every mode owes to an approach that is well posed: `RampMode.leg_safe` says in the approach's
own terms that a leg keeps within the ramp limits, leads toward the setpoint if it moves, ends
ahead of the clock and in time, and covers no more than is missing. No quotient by zero has a part
in it: with whatever else such a quotient comes to (`Exact.dividing`), the leg is the same.
-/

namespace UnitDispatch

open Quantity Exact

variable {K : Type} [Field K] [LinearOrder K]

/-- Exact quantities for which a quotient by zero is what `byZero` makes of the dividend. -/
abbrev Exact.dividing (byZero : Exact K → Exact K) : Quantity (Exact K) :=
  { (inferInstance : Quantity (Exact K)) with
    div := fun a b => if b = fin 0 then byZero a else a / b }

theorem Exact.dividing_div (byZero : Exact K → Exact K) (x : Exact K) {y : Exact K}
    (nonzero : y ≠ fin 0) : (dividing byZero).div x y = x / y :=
  if_neg nonzero

namespace Approach

/-- What a plan is asked for: times that are numbers and in order, and something missing. The ramp
limits and the ramp time are not negative, and need not be bounded. -/
structure Posed (a : Approach (Exact K)) : Prop where
  last : isFinite a.last = true
  now : isFinite a.now = true
  due : isFinite a.due = true
  delta : isFinite a.delta = true
  rate : isFinite a.rate = true
  inOrder : a.last ≤ a.now
  ahead : a.now < a.due
  missing : a.delta ≠ 0
  limitUp : 0 ≤ a.limitUp
  limitDown : 0 ≤ a.limitDown
  rampTime : 0 ≤ a.rampTime

/-- What a leg owes to an approach. -/
structure Safe (a : Approach (Exact K)) (leg : Leg (Exact K)) : Prop where
  up : leg.rate ≤ a.limitUp
  down : -a.limitDown ≤ leg.rate
  toward : leg.rate = 0 ∨ 0 < leg.rate * a.delta
  ahead : a.now < leg.review
  inTime : leg.review ≤ a.due
  /-- It covers no more than is missing. -/
  short : magnitude leg.rate * (leg.review - a.now) ≤ magnitude a.delta

variable {a : Approach (Exact K)}

theorem Posed.between (posed : a.Posed) : ∃ n l d δ ρ, l ≤ n ∧ n < d ∧ δ ≠ 0 ∧
    a = .between n l d δ ρ a.limitUp a.limitDown a.rampTime := by
  obtain ⟨last, now, due, delta, rate, inOrder, ahead, missing, -⟩ := posed
  obtain ⟨n, last, d, δ, ρ, up, down, time⟩ := a
  obtain ⟨l, rfl⟩ := isFinite_iff.mp last
  obtain ⟨n, rfl⟩ := isFinite_iff.mp now
  obtain ⟨d, rfl⟩ := isFinite_iff.mp due
  obtain ⟨δ, rfl⟩ := isFinite_iff.mp delta
  obtain ⟨ρ, rfl⟩ := isFinite_iff.mp rate
  refine ⟨n, l, d, δ, ρ, fin_le.mp inOrder, fin_lt.mp ahead, ?_, rfl⟩
  rintro rfl
  exact missing zero_eq.symm

variable [IsStrictOrderedRing K]

/-- A leg that does not pass the setpoint leads toward it and covers part of what is missing. -/
theorem Kept.safe {n l d δ ρ v r : K} {limitUp limitDown : Exact K} (rampTime : Exact K)
    (kept : Kept limitUp limitDown n d δ v r) :
    (between n l d δ ρ limitUp limitDown rampTime).Safe ⟨fin v, fin r⟩ where
  up := kept.up
  down := kept.down
  toward := by
    rcases eq_or_ne v 0 with rfl | moves
    · exact .inl zero_eq.symm
    · right
      show 0 < fin v * fin δ
      rw [fin_mul, zero_eq, fin_lt]
      have time : 0 < r - n := sub_pos.mpr kept.ahead
      rcases Set.mem_uIcc.mp kept.short with ⟨low, high⟩ | ⟨low, high⟩
      · have up : 0 < v := (nonneg_of_mul_nonneg_left low time).lt_of_ne' moves
        exact mul_pos up ((mul_pos up time).trans_le high)
      · have down : v < 0 := (nonpos_of_mul_nonpos_left high time).lt_of_ne moves
        exact mul_pos_of_neg_of_neg down (low.trans_lt (mul_neg_of_neg_of_pos down time))
  ahead := fin_lt.mpr kept.ahead
  inTime := fin_le.mpr kept.inTime
  short := by
    show magnitude (fin v) * (fin r - fin n) ≤ magnitude (fin δ)
    rw [magnitude_fin, magnitude_fin, fin_sub, fin_mul, fin_le,
      ← abs_of_pos (sub_pos.mpr kept.ahead), ← abs_mul]
    simpa using Set.abs_sub_left_of_mem_uIcc kept.short

/-! ## Quotients by zero -/

section Dividing

variable (byZero : Exact K → Exact K)

theorem steady_dividing (posed : a.Posed) : @steady _ (dividing byZero) a = a.steady := by
  obtain ⟨n, l, d, δ, ρ, -, ahead, -, eq⟩ := posed.between
  have left : a.remaining ≠ fin 0 := by
    rw [eq, remaining_between]
    simpa using (sub_pos.mpr ahead).ne'
  show (⟨a.hold ((dividing byZero).div a.delta a.remaining), a.due⟩ : Leg (Exact K)) = _
  rw [dividing_div byZero _ left]
  rfl

theorem finish_dividing (posed : a.Posed) : @finish _ (dividing byZero) a = a.finish := by
  have steady : a.hold ((dividing byZero).div a.delta a.remaining) =
      a.hold (a.delta / a.remaining) := congrArg Leg.rate (steady_dividing byZero posed)
  let rate := if 0 < a.rate * a.delta then a.hold a.rate else a.hold (a.delta / a.remaining)
  have arrival : (if rate == 0 then a.due
        else lesser (a.now + (dividing byZero).div a.delta rate) a.due) =
      if rate == 0 then a.due else lesser (a.now + a.delta / rate) a.due := by
    split
    · rfl
    next moves =>
      have nonzero : rate ≠ fin 0 := by
        intro still
        rw [still] at moves
        exact moves (by simp)
      rw [dividing_div byZero _ nonzero]
  show (let rate := if 0 < a.rate * a.delta then a.hold a.rate
      else a.hold ((dividing byZero).div a.delta a.remaining)
    (⟨rate, if rate == 0 then a.due
      else lesser (a.now + (dividing byZero).div a.delta rate) a.due⟩ : Leg (Exact K))) = _
  rw [steady]
  exact congrArg (Leg.mk rate) arrival

theorem windowStart_dividing : @windowStart _ (dividing byZero) a = a.windowStart := by
  have two : (2 : Exact K) ≠ fin 0 := by simp
  show a.last + (dividing byZero).div (a.due - a.last - a.rampTime) 2 = _
  rw [dividing_div byZero _ two]
  rfl

theorem windowEnd_dividing : @windowEnd _ (dividing byZero) a = a.windowEnd :=
  congrArg (· + a.rampTime) (windowStart_dividing byZero)

theorem centred_dividing (posed : a.Posed) : @centred _ (dividing byZero) a = a.centred := by
  have pace : a.now < a.windowEnd → (dividing byZero).div a.delta (a.windowEnd - a.now) =
      a.delta / (a.windowEnd - a.now) := by
    intro inside
    obtain ⟨n, now⟩ := isFinite_iff.mp posed.now
    refine dividing_div byZero _ ?_
    rw [now] at inside ⊢
    intro none
    rw [eq_of_sub_fin none, zero_add, fin_lt] at inside
    exact lt_irrefl n inside
  show (if a.rampTime ≤ a.remaining then
      if a.now < @windowStart _ (dividing byZero) a then ⟨0, @windowStart _ (dividing byZero) a⟩
      else if a.now < @windowEnd _ (dividing byZero) a then
        ⟨a.hold ((dividing byZero).div a.delta (@windowEnd _ (dividing byZero) a - a.now)),
          @windowEnd _ (dividing byZero) a⟩
      else @finish _ (dividing byZero) a
    else if @windowEnd _ (dividing byZero) a ≤ a.now then @finish _ (dividing byZero) a
    else @steady _ (dividing byZero) a : Leg (Exact K)) = _
  rw [windowStart_dividing, windowEnd_dividing, finish_dividing byZero posed,
    steady_dividing byZero posed]
  unfold centred
  split_ifs with _ _ inside
  · rfl
  · rw [pace inside]
  all_goals rfl

omit [IsStrictOrderedRing K] in
theorem stretch_dividing : @stretch _ (dividing byZero) a = a.stretch := by
  let bound := if 0 < a.delta then a.limitUp else a.limitDown
  have shortest : (if 0 < bound then (dividing byZero).div (magnitude a.delta) bound
      else a.remaining) = if 0 < bound then magnitude a.delta / bound else a.remaining := by
    split
    next positive =>
      refine dividing_div byZero _ ?_
      intro none
      rw [none, zero_eq, fin_lt] at positive
      exact lt_irrefl 0 positive
    next => rfl
  let cut (shortest : Exact K) : Exact K :=
    let stretched := lesser (greater shortest a.rampTime) a.remaining
    if stretched ≤ 0 then a.remaining else stretched
  exact congrArg cut shortest

theorem prompt_dividing (posed : a.Posed) : @prompt _ (dividing byZero) a = a.prompt := by
  have lasts : a.stretch ≠ fin 0 := by
    obtain ⟨n, l, d, δ, ρ, -, ahead, -, eq⟩ := posed.between
    obtain ⟨s, hs, pos, -⟩ := stretch_spec (δ := δ) l ρ (negInf_lt_of_nonneg posed.limitUp)
      (negInf_lt_of_nonneg posed.limitDown) (negInf_lt_of_nonneg posed.rampTime) ahead
    rw [eq, hs]
    simpa using pos.ne'
  show (⟨a.hold ((dividing byZero).div a.delta (@stretch _ (dividing byZero) a)),
    a.now + @stretch _ (dividing byZero) a⟩ : Leg (Exact K)) = _
  rw [stretch_dividing, dividing_div byZero _ lasts]
  rfl

end Dividing

end Approach

variable [IsStrictOrderedRing K]

/-- No quotient by zero has a part in a leg. -/
theorem RampMode.leg_dividing (byZero : Exact K → Exact K) (mode : RampMode)
    {a : Approach (Exact K)} (posed : a.Posed) :
    @RampMode.leg _ (dividing byZero) mode a = mode.leg a := by
  cases mode with
  | midpoint => exact Approach.centred_dividing byZero posed
  | delayed => exact Approach.prompt_dividing byZero posed
  | interpolated | justInTime | onTargetRamp => exact Approach.steady_dividing byZero posed

/-- Every mode plans a safe leg: within the ramp limits, toward the setpoint, ahead of the clock and
in time, and no further than the setpoint, whatever the rate at present. -/
theorem RampMode.leg_safe (mode : RampMode) {a : Approach (Exact K)} (posed : a.Posed) :
    a.Safe (mode.leg a) ∧
      ∀ byZero, @RampMode.leg _ (Exact.dividing byZero) mode a = mode.leg a := by
  refine ⟨?_, fun byZero => mode.leg_dividing byZero posed⟩
  obtain ⟨n, l, d, δ, ρ, inOrder, ahead, missing, eq⟩ := posed.between
  obtain ⟨v, r, leg, kept, -⟩ := mode.leg_kept ρ posed.limitUp posed.limitDown posed.rampTime
    inOrder ahead missing
  rw [eq, leg]
  exact kept.safe a.rampTime

/-- Past its window, with less than the ramp time left and no limit upward, a leg goes on at the
present rate and ends when what is missing is delivered. -/
theorem RampMode.leg_safe_past_window :
    let a : Approach (Exact ℚ) := .between 9 0 10 (-3 / 2) (-2) posInf 2 4
    a.Posed ∧ (RampMode.midpoint.leg a).rate = fin (-2) ∧
      (RampMode.midpoint.leg a).review = fin (39 / 4) ∧ a.Safe (RampMode.midpoint.leg a) := by
  intro a
  have posed : a.Posed := by
    refine ⟨?_, ?_, ?_, ?_, ?_, ?_, ?_, ?_, ?_, ?_, ?_⟩ <;> decide +kernel
  exact ⟨posed, by decide +kernel, by decide +kernel, (RampMode.midpoint.leg_safe posed).1⟩

end UnitDispatch
