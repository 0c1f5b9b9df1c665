import UnitDispatch.Proofs.Leg

/-! # Plans made anew on the way

A plan that is made anew part of the way along a leg need not be the same plan. It is in the
interpolated modes, where a pace kept so far is the pace still needed; in the delayed mode it is as
long as the ramp time does not stretch what is left of the leg, and in the midpoint mode outside the
window or with the ramp time still ahead: `RampMode.leg_resumes`, and `RampMode.leg_resumes_own` for
a ramp that finishes what ramp limits held up.
-/

namespace UnitDispatch

open Quantity Exact

variable {K : Type} [Field K] [LinearOrder K]

namespace Approach

/-- Part of the way along a leg up to `review`, a plan made anew is the same. -/
def Resumes (a : Approach (Exact K)) (review : Exact K) : RampMode → Prop
  | .midpoint => review = a.windowEnd → review = a.due ∨ a.rampTime ≤ a.remaining
  | .delayed => review = a.due ∨ a.rampTime ≤ review - a.now
  | .interpolated | .justInTime | .onTargetRamp => True

instance (a : Approach (Exact K)) (review : Exact K) :
    (mode : RampMode) → Decidable (a.Resumes review mode)
  | .midpoint => inferInstanceAs
      (Decidable (review = a.windowEnd → review = a.due ∨ a.rampTime ≤ a.remaining))
  | .delayed => inferInstanceAs (Decidable (review = a.due ∨ a.rampTime ≤ review - a.now))
  | .interpolated | .justInTime | .onTargetRamp => isTrue trivial

theorem resumes_of_due {a : Approach (Exact K)} {review : Exact K} (due : review = a.due)
    {mode : RampMode} : a.Resumes review mode := by
  cases mode with
  | midpoint => exact fun _ => .inl due
  | delayed => exact .inl due
  | interpolated | justInTime | onTargetRamp => trivial

/-- Part of the way along a ramp that ends as the setpoint falls due, and was not planned by the mode,
a plan made anew is the same. -/
def ResumesOwn (a : Approach (Exact K)) : RampMode → Prop
  | .midpoint => a.windowEnd ≤ a.now ∨ a.remaining < a.rampTime
  | .delayed => a.stretch = a.remaining
  | .interpolated | .justInTime | .onTargetRamp => True

instance (a : Approach (Exact K)) : (mode : RampMode) → Decidable (a.ResumesOwn mode)
  | .midpoint => inferInstanceAs (Decidable (a.windowEnd ≤ a.now ∨ a.remaining < a.rampTime))
  | .delayed => inferInstanceAs (Decidable (a.stretch = a.remaining))
  | .interpolated | .justInTime | .onTargetRamp => isTrue trivial

end Approach

variable [IsStrictOrderedRing K] {limitUp limitDown rampTime : Exact K}

/-! ## Rates held within limits -/

section Limits

variable (hu : 0 ≤ limitUp) (hd : 0 ≤ limitDown)

include hu hd

/-- What lies beyond a value on the side of what that is held for is held at the value too. -/
theorem Exact.limit_beyond {x y z : K} (held : limit (-limitDown) limitUp (fin x) = fin y)
    (side : x ≤ y ∧ z ≤ y ∨ y ≤ x ∧ y ≤ z) (moved : x = y → z = y) :
    limit (-limitDown) limitUp (fin z) = fin y := by
  rcases eq_or_ne x y with rfl | apart
  · rwa [moved rfl]
  · obtain ⟨b, b0, rfl⟩ | rfl := eq_of_nonneg hu <;> obtain ⟨a, a0, rfl⟩ | rfl := eq_of_nonneg hd <;>
      simp only [limit, neg_fin, neg_posInf, lesser_fin, lesser_posInf, greater_fin,
        greater_negInf, fin.injEq] at held ⊢
    all_goals grind

/-- A pace that is kept stays the pace that is needed. -/
theorem Exact.limit_pace {δ v t s : K} (pos : 0 < s) (le : s ≤ t)
    (held : limit (-limitDown) limitUp (fin (δ / t)) = fin v) :
    limit (-limitDown) limitUp (fin ((δ - v * (t - s)) / s)) = fin v := by
  have total : 0 < t := pos.trans_le le
  have needed : (δ - v * (t - s)) / s - v = (δ / t - v) * (t / s) := by
    field_simp
    ring
  have scale : 0 ≤ t / s := (div_pos total pos).le
  refine limit_beyond hu hd held ?_ ?_
  · rcases le_total (δ / t) v with slow | fast
    · have := mul_nonpos_of_nonpos_of_nonneg (sub_nonpos.mpr slow) scale
      exact .inl ⟨slow, by linarith⟩
    · have := mul_nonneg (sub_nonneg.mpr fast) scale
      exact .inr ⟨fast, by linarith⟩
  · intro same
    rw [same, sub_self, zero_mul] at needed
    exact sub_eq_zero.mp needed

/-- Limits that hold a rate at zero hold every rate in its direction there. -/
theorem Exact.limit_still {x y : K} (held : limit (-limitDown) limitUp (fin x) = fin 0)
    (side : 0 < x * y) : limit (-limitDown) limitUp (fin y) = fin 0 := by
  refine limit_beyond hu hd held ?_ ?_
  · rcases pos_and_pos_or_neg_and_neg_of_mul_pos side with ⟨hx, hy⟩ | ⟨hx, hy⟩
    · exact .inr ⟨hx.le, hy.le⟩
    · exact .inl ⟨hx.le, hy.le⟩
  · rintro rfl
    rw [zero_mul] at side
    exact (lt_irrefl 0 side).elim

/-- A pace that is too much for the limit in its direction is held there. -/
theorem Exact.limit_full {δ v b s : K} (pos : 0 < s)
    (held : limit (-limitDown) limitUp (fin (δ / s)) = fin v)
    (bound : (if 0 < δ then limitUp else limitDown) = fin b) (long : b * s ≤ |δ|) :
    v = if 0 < δ then b else -b := by
  generalize pace : δ / s = x at held
  have much : if 0 < δ then b ≤ x else x ≤ -b := by
    rw [← pace]
    split
    next rising => rwa [abs_of_pos rising, ← le_div_iff₀ pos] at long
    next falling =>
      rwa [abs_of_nonpos (not_lt.mp falling), ← le_div_iff₀ pos, neg_div, le_neg] at long
  obtain ⟨u, u0, rfl⟩ | rfl := eq_of_nonneg hu <;> obtain ⟨w, w0, rfl⟩ | rfl := eq_of_nonneg hd <;>
    simp only [limit, neg_fin, neg_posInf, lesser_fin, lesser_posInf, greater_fin,
      greater_negInf, fin.injEq] at held
  all_goals grind

end Limits

namespace Approach

variable {n₀ n l d δ ρ v r : K}

section Bodies

/-! ## Stretched ramps -/

/-- How long a ramp by `x` takes at `bound`, stretched to the ramp time and cut to `t`. -/
def stretched (bound rampTime : Exact K) (x t : K) : Exact K :=
  let shortest := if 0 < bound then fin x / bound else fin t
  let duration := lesser (greater shortest rampTime) (fin t)
  if duration ≤ 0 then fin t else duration

omit [IsStrictOrderedRing K] in
/-- In numbers, with `q` for the shortest duration. -/
theorem stretched_eq {bound : Exact K} {m x t q : K}
    (shortest : (if 0 < bound then fin x / bound else fin t) = fin q) :
    stretched bound (fin m) x t =
      fin (if min (max q m) t ≤ 0 then t else min (max q m) t) := by
  unfold stretched
  dsimp only
  rw [shortest, greater_fin, lesser_fin, zero_eq]
  simp only [fin_le]
  split <;> rfl

omit [IsStrictOrderedRing K] in
theorem stretched_posInf {bound : Exact K} {x t q : K} (ht : 0 < t)
    (shortest : (if 0 < bound then fin x / bound else fin t) = fin q) :
    stretched bound posInf x t = fin t := by
  have all : lesser posInf (fin t) = fin t := by simp [lesser]
  unfold stretched
  dsimp only
  rw [shortest, greater_posInf, all, if_neg (by simpa using ht)]

/-- The rest of a stretched ramp is stretched to what is left of its duration. -/
theorem stretched_rest {bound : Exact K} {x y t s e : K} (hb : 0 ≤ bound) (ht : 0 ≤ rampTime)
    (left : 0 < t) (hx : 0 ≤ x) (since : 0 < e) (before : e < s)
    (whole : stretched bound rampTime x t = fin s)
    (full : ∀ b, bound = fin b → b * s ≤ x → y = x - b * e) (none : x = 0 → y = 0)
    (resumes : t ≤ s ∨ rampTime ≤ fin (s - e)) :
    stretched bound rampTime y (t - e) = fin (s - e) := by
  -- the shortest durations, before and after
  obtain ⟨q, q', first, rest, q0, full, none⟩ : ∃ q q',
      (if 0 < bound then fin x / bound else fin t) = fin q ∧
      (if 0 < bound then fin y / bound else fin (t - e)) = fin q' ∧
      0 ≤ q ∧ (s ≤ q → q' = q - e) ∧ (q = 0 → q' = 0) := by
    obtain ⟨b, b0, rfl⟩ | rfl := eq_of_nonneg hb
    · rcases b0.eq_or_lt with rfl | pos
      · exact ⟨t, t - e, by simp, by simp, left.le, fun _ => rfl,
          fun zero => (left.ne' zero).elim⟩
      · refine ⟨x / b, y / b, by simp [pos, fin_div, pos.ne'], by simp [pos, fin_div, pos.ne'],
          div_nonneg hx b0, ?_, ?_⟩
        · intro le
          rw [full b rfl ((le_div_iff₀' pos).mp le), sub_div, mul_div_cancel_left₀ _ pos.ne']
        · intro zero
          rw [none ((div_eq_zero_iff.mp zero).resolve_right pos.ne'), zero_div]
    · refine ⟨0, 0, by simp; rfl, by simp; rfl, le_rfl, ?_, fun _ => rfl⟩
      intro le
      exact ((since.trans before).not_ge le).elim
  obtain ⟨m, m0, rfl⟩ | rfl := eq_of_nonneg ht
  · rw [stretched_eq first] at whole
    rw [stretched_eq rest]
    have whole := fin.inj whole
    rw [fin_le] at resumes
    refine congrArg fin ?_
    grind
  · rw [stretched_posInf left first] at whole
    obtain rfl := fin.inj whole
    rw [stretched_posInf (sub_pos.mpr before) rest]

omit [IsStrictOrderedRing K] in
theorem stretch_eq_stretched :
    (between n l d δ ρ limitUp limitDown rampTime).stretch =
      stretched (if 0 < δ then limitUp else limitDown) rampTime |δ| (d - n) :=
  stretch_between

/-- Part of a leg that does not pass the setpoint leaves it on the same side. -/
theorem rest_spec {s e : K} (short : v * s ∈ Set.uIcc 0 δ) (since : 0 < e) (before : e < s) :
    (0 < δ - v * e ↔ 0 < δ) ∧ |δ - v * e| = |δ| - |v| * e := by
  have pos : 0 < s := since.trans before
  rcases Set.mem_uIcc.mp short with ⟨low, high⟩ | ⟨low, high⟩
  · have up : 0 ≤ v := nonneg_of_mul_nonneg_left low pos
    have part : v * e ≤ v * s := mul_le_mul_of_nonneg_left before.le up
    rw [abs_of_nonneg (low.trans high), abs_of_nonneg up, abs_of_nonneg (by linarith)]
    refine ⟨⟨fun h => ?_, fun h => ?_⟩, rfl⟩
    · have := mul_nonneg up since.le
      linarith
    · rcases up.eq_or_lt with rfl | up
      · linarith
      · have := mul_lt_mul_of_pos_left before up
        linarith
  · have down : v ≤ 0 := nonpos_of_mul_nonpos_left high pos
    have part : v * s ≤ v * e := mul_le_mul_of_nonpos_left before.le down
    rw [abs_of_nonpos (low.trans high), abs_of_nonpos down, abs_of_nonpos (by linarith)]
    exact ⟨⟨fun h => by linarith, fun h => by linarith⟩, by ring⟩

/-! ## Going on after the window -/

/-- A rate within the limits that leads toward the setpoint is kept. -/
theorem finish_toward (hnd : n < d) (up : fin v ≤ limitUp) (down : -limitDown ≤ fin v)
    (lead : 0 < v * δ) :
    (between n l d δ v limitUp limitDown rampTime).finish =
      ⟨fin v, fin (min (n + δ / v) d)⟩ := by
  have kept : limit (-limitDown) limitUp (fin (if 0 < v * δ then v else δ / (d - n))) = fin v := by
    rw [if_pos lead]
    exact limit_eq_self down up
  rw [finish_between hnd kept, if_neg (left_ne_zero_of_mul lead.ne')]

/-- A pace held at zero is rested at. -/
theorem finish_still (hnd : n < d) (held : limit (-limitDown) limitUp (fin (δ / (d - n))) = fin 0) :
    (between n l d δ 0 limitUp limitDown rampTime).finish = ⟨fin 0, fin d⟩ := by
  have kept : limit (-limitDown) limitUp (fin (if 0 < 0 * δ then 0 else δ / (d - n))) = fin 0 := by
    rw [if_neg (by simp), held]
  rw [finish_between hnd kept, if_pos rfl]

variable (hu : 0 ≤ limitUp) (hd : 0 ≤ limitDown)

include hu hd

/-- The pace that is needed, held within the limits, is gone on with. -/
theorem finish_pace (hnd : n < d)
    (held : limit (-limitDown) limitUp (fin (δ / (d - n))) = fin v) :
    (between n l d δ v limitUp limitDown rampTime).finish = ⟨fin v, fin d⟩ := by
  obtain ⟨y, held', down, up, part⟩ := limit_spec hd hu (δ / (d - n))
  obtain rfl : y = v := fin.inj (held'.symm.trans held)
  have left : 0 < d - n := sub_pos.mpr hnd
  rcases eq_or_ne y 0 with rfl | moves
  · exact finish_still hnd held
  · have inTime : 0 < y * δ ∧ d - n ≤ δ / y := by
      rcases Set.mem_uIcc.mp part with ⟨low, high⟩ | ⟨low, high⟩
      · have pos : 0 < y := low.lt_of_ne' moves
        have room : y * (d - n) ≤ δ := (le_div_iff₀ left).mp high
        exact ⟨mul_pos pos ((mul_pos pos left).trans_le room), (le_div_iff₀' pos).mpr room⟩
      · have neg : y < 0 := high.lt_of_ne moves
        have room : δ ≤ y * (d - n) := (div_le_iff₀ left).mp low
        exact ⟨mul_pos_of_neg_of_neg neg (room.trans_lt (mul_neg_of_neg_of_pos neg left)),
          (le_div_iff_of_neg' neg).mpr room⟩
    rw [finish_toward hnd up down inTime.1, min_eq_right (sub_le_iff_le_add'.mp inTime.2)]

/-- A ramp that goes on after the window goes on alike from any point of it. -/
theorem finish_resumes (hnd : n₀ < d) (hδ : δ ≠ 0)
    (leg : (between n₀ l d δ ρ limitUp limitDown rampTime).finish = ⟨fin v, fin r⟩)
    (before : n < r) :
    (between n l d (δ - v * (n - n₀)) v limitUp limitDown rampTime).finish = ⟨fin v, fin r⟩ := by
  obtain ⟨v', r', leg', kept, -⟩ := finish_kept (δ := δ) l ρ rampTime hu hd hnd hδ
  obtain ⟨rate, review⟩ := Leg.mk.inj (leg'.symm.trans leg)
  obtain rfl := fin.inj rate
  obtain rfl := fin.inj review
  have later : n < d := before.trans_le kept.inTime
  obtain ⟨y, held, -, -, part⟩ :=
    limit_spec hd hu (if 0 < ρ * δ then ρ else δ / (d - n₀))
  rw [finish_between hnd held] at leg
  obtain ⟨rate, review⟩ := Leg.mk.inj leg
  obtain rfl : y = v' := fin.inj rate
  -- the rate asked for leads toward the setpoint
  have lead : 0 < (if 0 < ρ * δ then ρ else δ / (d - n₀)) * δ := by
    split
    next leads => exact leads
    next =>
      rw [div_mul_eq_mul_div]
      exact div_pos (mul_self_pos.mpr hδ) (sub_pos.mpr hnd)
  rcases eq_or_ne y 0 with rfl | moves
  · rw [if_pos rfl] at review
    rw [← review, zero_mul, sub_zero]
    refine finish_still later (limit_still hu hd held ?_)
    rw [mul_div_assoc']
    exact div_pos lead (sub_pos.mpr later)
  · rw [if_neg moves] at review
    have arrival : n < n₀ + δ / y := by
      rw [← fin.inj review] at before
      exact before.trans_le (min_le_left _ _)
    have toGo : (δ - y * (n - n₀)) / y = n₀ + δ / y - n := by
      field_simp
      ring
    have still : 0 < y * (δ - y * (n - n₀)) := by
      have quotient : 0 < (δ - y * (n - n₀)) / y := by
        rw [toGo]
        exact sub_pos.mpr arrival
      have square : 0 < y * y := mul_self_pos.mpr moves
      rw [show y * (δ - y * (n - n₀)) = (δ - y * (n - n₀)) / y * (y * y) by field_simp]
      exact mul_pos quotient square
    rw [finish_toward later kept.up kept.down still, toGo, add_sub_cancel, ← review]

/-! ## Every mode -/

theorem steady_resumes (hnd : n₀ < d)
    (leg : (between n₀ l d δ ρ limitUp limitDown rampTime).steady = ⟨fin v, fin r⟩)
    (since : n₀ ≤ n) (before : n < r) :
    (between n l d (δ - v * (n - n₀)) v limitUp limitDown rampTime).steady = ⟨fin v, fin r⟩ := by
  rw [steady_between hnd] at leg
  obtain ⟨held, review⟩ := Leg.mk.inj leg
  obtain rfl := fin.inj review
  have pace := limit_pace hu hd (sub_pos.mpr before) (sub_le_sub_left since d) held
  rw [sub_sub_sub_cancel_left] at pace
  rw [steady_between before, pace]

/-- The stretch of a ramp planned anew on the way is what is left of the ramp in progress. -/
theorem stretch_resumes (ht : 0 ≤ rampTime) (hnd : n₀ < d)
    (leg : (between n₀ l d δ ρ limitUp limitDown rampTime).prompt = ⟨fin v, fin r⟩)
    (since : n₀ ≤ n) (before : n < r)
    (resumes : (between n l d (δ - v * (n - n₀)) v limitUp limitDown rampTime).Resumes (fin r)
      .delayed) :
    (between n l d (δ - v * (n - n₀)) v limitUp limitDown rampTime).stretch = fin (r - n) := by
  obtain ⟨s, stretch, pos, cut, -⟩ := stretch_spec (δ := δ) l ρ (negInf_lt_of_nonneg hu)
    (negInf_lt_of_nonneg hd) (negInf_lt_of_nonneg ht) hnd
  rw [prompt_between pos stretch] at leg
  obtain ⟨held, review⟩ := Leg.mk.inj leg
  obtain rfl := fin.inj review
  rw [stretch_eq_stretched] at stretch ⊢
  rcases since.eq_or_lt with rfl | later
  · rw [sub_self, mul_zero, sub_zero, stretch, add_sub_cancel_left]
  obtain ⟨y, held', -, -, part⟩ := limit_spec hd hu (δ / s)
  obtain rfl : y = v := fin.inj (held'.symm.trans held)
  have early : n - n₀ < s := by linarith
  obtain ⟨same, left⟩ :=
    rest_spec (mul_mem_uIcc_of_div part pos.ne') (sub_pos.mpr later) early
  have bound : 0 ≤ if 0 < δ then limitUp else limitDown := by
    split
    · exact hu
    · exact hd
  have rest := stretched_rest bound ht (sub_pos.mpr hnd) (abs_nonneg δ) (sub_pos.mpr later) early
    (y := |δ - y * (n - n₀)|) stretch ?_ ?_ ?_
  · rw [sub_sub_sub_cancel_right] at rest
    rw [if_congr same rfl rfl, rest]
    congr 1
    ring
  · intro b is long
    rw [left, limit_full hu hd pos held is long]
    have b0 : 0 ≤ b := by
      rw [is] at bound
      simpa using bound
    split <;> simp [abs_of_nonneg b0]
  · intro zero
    rw [left, zero]
    obtain rfl := abs_eq_zero.mp zero
    simp at part
    simp [part]
  · refine resumes.imp ?_ ?_
    · intro due
      rw [← fin.inj due, add_sub_cancel_left]
    · intro le
      rw [show s - (n - n₀) = n₀ + s - n by ring, ← fin_sub]
      exact le

theorem prompt_resumes (ht : 0 ≤ rampTime) (hnd : n₀ < d)
    (leg : (between n₀ l d δ ρ limitUp limitDown rampTime).prompt = ⟨fin v, fin r⟩)
    (since : n₀ ≤ n) (before : n < r)
    (resumes : (between n l d (δ - v * (n - n₀)) v limitUp limitDown rampTime).Resumes (fin r)
      .delayed) :
    (between n l d (δ - v * (n - n₀)) v limitUp limitDown rampTime).prompt = ⟨fin v, fin r⟩ := by
  have rest := stretch_resumes hu hd ht hnd leg since before resumes
  obtain ⟨s, stretch, pos, -⟩ := stretch_spec (δ := δ) l ρ (negInf_lt_of_nonneg hu)
    (negInf_lt_of_nonneg hd) (negInf_lt_of_nonneg ht) hnd
  rw [prompt_between pos stretch] at leg
  obtain ⟨held, review⟩ := Leg.mk.inj leg
  obtain rfl := fin.inj review
  have left : 0 < n₀ + s - n := sub_pos.mpr before
  have pace := limit_pace hu hd left (by linarith) held
  rw [show s - (n₀ + s - n) = n - n₀ by ring] at pace
  rw [prompt_between left rest, pace, add_sub_cancel]

theorem centred_resumes (ht : 0 ≤ rampTime) (hln : l ≤ n₀) (hnd : n₀ < d) (hδ : δ ≠ 0)
    (leg : (between n₀ l d δ ρ limitUp limitDown rampTime).centred = ⟨fin v, fin r⟩)
    (since : n₀ ≤ n) (before : n < r)
    (resumes : (between n l d (δ - v * (n - n₀)) v limitUp limitDown rampTime).Resumes (fin r)
      .midpoint) :
    (between n l d (δ - v * (n - n₀)) v limitUp limitDown rampTime).centred =
      ⟨fin v, fin r⟩ := by
  obtain ⟨m, m0, rfl⟩ | rfl := eq_of_nonneg ht
  · have mid : opens l d m = l + (d - l - m) / 2 := rfl
    by_cases after : opens l d m + m ≤ n₀
    · rw [centred_of_after m0 after] at leg
      rw [centred_of_after m0 (after.trans since)]
      exact finish_resumes hu hd hnd hδ leg before
    rw [centred_between, if_neg after] at leg
    by_cases enough : m ≤ d - n₀
    · rw [if_pos enough] at leg
      by_cases early : n₀ < opens l d m
      · rw [if_pos early] at leg
        obtain ⟨rest, review⟩ := Leg.mk.inj leg
        rw [← fin.inj review] at before ⊢
        rw [← fin.inj rest, centred_between, if_pos (by linarith), if_pos before]
      · have inside : n₀ < opens l d m + m := not_le.mp after
        rw [if_neg early, if_pos inside] at leg
        obtain ⟨held, review⟩ := Leg.mk.inj leg
        obtain rfl := fin.inj review
        have pace := limit_pace hu hd (sub_pos.mpr before) (sub_le_sub_left since _) held
        rw [sub_sub_sub_cancel_left] at pace
        rw [centred_between, if_neg (not_lt.mpr ((not_lt.mp early).trans since)), if_pos before,
          pace]
        rcases resumes (by rw [windowEnd_between]) with due | left
        · -- a window that closes as the setpoint falls due may be left early
          have due : opens l d m + m = d := fin.inj due
          rw [due] at before pace ⊢
          rw [steady_between before, pace, if_neg before.not_ge]
          exact ite_self _
        · rw [remaining_between] at left
          exact if_pos (fin_le.mp left)
    · rw [if_neg enough] at leg
      have steady := steady_resumes hu hd hnd leg since before
      have short : ¬ m ≤ d - n := by
        intro left
        exact enough (left.trans (sub_le_sub_left since d))
      rw [centred_between, if_neg short]
      by_cases past : opens l d m + m ≤ n
      · rw [steady_between hnd] at leg
        obtain rfl := fin.inj (Leg.mk.inj leg).2
        rw [steady_between before] at steady
        rw [if_pos past, finish_pace hu hd before (Leg.mk.inj steady).1]
      · rw [if_neg past, steady]
  · rw [centred_between_posInf] at leg ⊢
    exact steady_resumes hu hd hnd leg since before

end Bodies

end Approach

/-- A plan made anew on the way, where the mode resumes it, is the plan in progress. -/
theorem RampMode.leg_resumes (mode : RampMode) {n₀ n l d δ ρ v r : K} (hu : 0 ≤ limitUp)
    (hd : 0 ≤ limitDown) (ht : 0 ≤ rampTime) (hln : l ≤ n₀) (hnd : n₀ < d) (hδ : δ ≠ 0)
    (leg : mode.leg (.between n₀ l d δ ρ limitUp limitDown rampTime) = ⟨fin v, fin r⟩)
    (since : n₀ ≤ n) (before : n < r)
    (resumes : Approach.Resumes
      (.between n l d (δ - v * (n - n₀)) v limitUp limitDown rampTime) (fin r) mode) :
    mode.leg (.between n l d (δ - v * (n - n₀)) v limitUp limitDown rampTime) =
      ⟨fin v, fin r⟩ := by
  cases mode with
  | midpoint => exact Approach.centred_resumes hu hd ht hln hnd hδ leg since before resumes
  | delayed => exact Approach.prompt_resumes hu hd ht hnd leg since before resumes
  | interpolated | justInTime | onTargetRamp =>
    exact Approach.steady_resumes hu hd hnd leg since before

/-- A ramp that ends as the setpoint falls due, planned anew on the way, is the ramp in progress. -/
theorem RampMode.leg_resumes_own (mode : RampMode) {n l d v : K} (hu : 0 ≤ limitUp)
    (hd : 0 ≤ limitDown) (ht : 0 ≤ rampTime) (before : n < d) (up : fin v ≤ limitUp)
    (down : -limitDown ≤ fin v)
    (resumes : Approach.ResumesOwn
      (.between n l d (v * (d - n)) v limitUp limitDown rampTime) mode) :
    mode.leg (.between n l d (v * (d - n)) v limitUp limitDown rampTime) = ⟨fin v, fin d⟩ := by
  have left : 0 < d - n := sub_pos.mpr before
  have pace : limit (-limitDown) limitUp (fin (v * (d - n) / (d - n))) = fin v := by
    rw [mul_div_cancel_right₀ _ left.ne']
    exact limit_eq_self down up
  have steady : (Approach.between n l d (v * (d - n)) v limitUp limitDown rampTime).steady =
      ⟨fin v, fin d⟩ := by
    rw [Approach.steady_between before, pace]
  cases mode with
  | midpoint =>
    show Approach.centred _ = _
    obtain ⟨m, m0, rfl⟩ | rfl := eq_of_nonneg ht
    · by_cases after : Approach.opens l d m + m ≤ n
      · rw [Approach.centred_of_after m0 after, Approach.finish_pace hu hd before pace]
      · have short : ¬ m ≤ d - n := by
          rcases resumes with past | short
          · rw [Approach.windowEnd_between] at past
            exact (after (fin_le.mp past)).elim
          · rw [Approach.remaining_between] at short
            exact (fin_lt.mp short).not_ge
        rw [Approach.centred_between, if_neg short, if_neg after, steady]
    · rw [Approach.centred_between_posInf, steady]
  | delayed =>
    have all := Eq.trans resumes Approach.remaining_between
    show Approach.prompt _ = _
    rw [Approach.prompt_between left all, pace, add_sub_cancel]
  | interpolated | justInTime | onTargetRamp => exact steady

end UnitDispatch
