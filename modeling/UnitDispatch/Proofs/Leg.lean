import Mathlib.Algebra.Order.Group.Pointwise.Interval
import UnitDispatch.Leg
import UnitDispatch.Proofs.Exact

/-! # Planned legs

What a leg toward a setpoint promises, whichever mode plans it: `RampMode.leg_kept` says that it
keeps within the ramp limits, ends ahead of the clock and no later than the setpoint is due, and
does not pass the setpoint. `Approach.turns` counts the reviews that can still come before the
setpoint is due: each leg that ends early delivers what was missing or leaves fewer of them.
-/

namespace UnitDispatch

open Quantity Exact

/-- An approach from `n` to a setpoint due at `d`, with the last one due at `l`, `δ` still missing
and `ρ` the rate at present. The limits and the ramp time need not be finite. -/
def Approach.between {K : Type} (n l d δ ρ : K) (limitUp limitDown rampTime : Exact K) :
    Approach (Exact K) where
  now := fin n
  last := fin l
  due := fin d
  delta := fin δ
  rate := fin ρ
  limitUp
  limitDown
  rampTime

variable {K : Type} [Field K] [LinearOrder K]

/-! ## Part of the way -/

section Part

variable [IsStrictOrderedRing K] {x y t : K}

/-- A rate that is part of the one that makes up `x` in time `t` makes up part of `x`. -/
theorem mul_mem_uIcc_of_div (h : y ∈ Set.uIcc 0 (x / t)) (ht : t ≠ 0) : y * t ∈ Set.uIcc 0 x := by
  have := Set.mem_image_of_mem (· * t) h
  rwa [Set.image_mul_const_uIcc, zero_mul, div_mul_cancel₀ x ht] at this

theorem sub_mem_uIcc {a b : K} (h : y ∈ Set.uIcc a b) (k : K) :
    y - k ∈ Set.uIcc (a - k) (b - k) := by
  have := Set.mem_image_of_mem (· - k) h
  rwa [Set.image_sub_const_uIcc] at this

/-- Part of a rate that leads toward `z` leads there too, if it moves at all. -/
theorem div_pos_of_mem_uIcc {z : K} (h : y ∈ Set.uIcc 0 x) (hy : y ≠ 0) (lead : 0 < x * z) :
    0 < z / y := by
  rcases Set.mem_uIcc.mp h with ⟨low, high⟩ | ⟨low, high⟩
  · have pos : 0 < y := lt_of_le_of_ne low hy.symm
    exact div_pos ((pos_iff_pos_of_mul_pos lead).mp (pos.trans_le high)) pos
  · have neg : y < 0 := lt_of_le_of_ne high hy
    exact div_pos_of_neg_of_neg ((neg_iff_neg_of_mul_pos lead).mp (low.trans_lt neg)) neg

end Part

namespace Approach

/-! ## What a leg promises -/

/-- A leg at rate `v` up to `r` that suits an approach from `n` to a setpoint due at `d` with `δ`
missing. -/
structure Kept (limitUp limitDown : Exact K) (n d δ v r : K) : Prop where
  ahead : n < r
  inTime : r ≤ d
  up : fin v ≤ limitUp
  down : -limitDown ≤ fin v
  /-- It does not pass the setpoint. -/
  short : v * (r - n) ∈ Set.uIcc 0 δ

variable {n l d δ ρ : K} {limitUp limitDown rampTime : Exact K}

/-- How many reviews can still come before the setpoint is due, the one at which it is due left
out. -/
def turns {α : Type} [Quantity α] (a : Approach α) : RampMode → Nat
  | .midpoint =>
    if a.windowEnd ≤ a.now then 1
    else if a.rampTime ≤ a.remaining then if a.now < a.windowStart then 3 else 2
    else 0
  | .delayed => 1
  | .interpolated | .justInTime | .onTargetRamp => 0

variable {n l d δ ρ : K} {limitUp limitDown rampTime : Exact K}

@[simp] theorem remaining_between :
    (between n l d δ ρ limitUp limitDown rampTime).remaining = fin (d - n) := fin_sub d n

/-- Where the window opens when the ramp time is a number. -/
def opens (l d m : K) : K := l + (d - l - m) / 2

section Bodies

variable [IsStrictOrderedRing K]

/-! ## Legs in numbers -/

theorem steady_between (hnd : n < d) :
    (between n l d δ ρ limitUp limitDown rampTime).steady =
      ⟨limit (-limitDown) limitUp (fin (δ / (d - n))), fin d⟩ := by
  unfold steady
  rw [remaining_between, ← fin_div _ (sub_pos.mpr hnd).ne']
  rfl

/-- Going on, at a rate that is known. -/
theorem finish_between (hnd : n < d) {v : K}
    (rate : limit (-limitDown) limitUp (fin (if 0 < ρ * δ then ρ else δ / (d - n))) = fin v) :
    (between n l d δ ρ limitUp limitDown rampTime).finish =
      ⟨fin v, fin (if v = 0 then d else min (n + δ / v) d)⟩ := by
  let a := between n l d δ ρ limitUp limitDown rampTime
  have asked : (if 0 < a.rate * a.delta then a.hold a.rate else a.hold (a.delta / a.remaining)) =
      fin v := by
    rw [← rate, remaining_between, show a.rate * a.delta = fin (ρ * δ) from rfl,
      show a.delta / fin (d - n) = fin (δ / (d - n)) from fin_div _ (sub_pos.mpr hnd).ne', zero_eq]
    simp only [fin_lt]
    split <;> rfl
  unfold finish
  dsimp only
  rw [asked]
  by_cases still : v = 0
  · simp [still, between]
  · simp [still, between, fin_div]

omit [IsStrictOrderedRing K] in
theorem stretch_between :
    (between n l d δ ρ limitUp limitDown rampTime).stretch =
      (let bound := if 0 < δ then limitUp else limitDown
      let shortest := if 0 < bound then fin |δ| / bound else fin (d - n)
      let stretched := lesser (greater shortest rampTime) (fin (d - n))
      if stretched ≤ 0 then fin (d - n) else stretched) := by
  unfold stretch
  rw [remaining_between]
  simp [between]

omit [IsStrictOrderedRing K] in
theorem prompt_between {s : K} (pos : 0 < s)
    (stretch : (between n l d δ ρ limitUp limitDown rampTime).stretch = fin s) :
    (between n l d δ ρ limitUp limitDown rampTime).prompt =
      ⟨limit (-limitDown) limitUp (fin (δ / s)), fin (n + s)⟩ := by
  unfold prompt
  rw [stretch, ← fin_div _ pos.ne']
  rfl

theorem windowStart_between (m : K) :
    (between n l d δ ρ limitUp limitDown (fin m)).windowStart = fin (opens l d m) := by
  simp [windowStart, between, opens, fin_div]

theorem windowEnd_between (m : K) :
    (between n l d δ ρ limitUp limitDown (fin m)).windowEnd = fin (opens l d m + m) := by
  rw [windowEnd, windowStart_between]
  rfl

/-- There is no window for a ramp that takes for ever. -/
theorem windowEnd_between_posInf :
    (between n l d δ ρ limitUp limitDown posInf).windowEnd = nan := by
  have : (fin (d - l) - posInf : Exact K) / 2 = negInf := by
    rw [two_eq]
    exact if_neg (not_lt.mpr zero_le_two)
  simp only [windowEnd, windowStart, between, fin_sub, this]
  rfl

/-- A centred ramp: before the window, in it, after it, and where there is no time for it. -/
theorem centred_between (m : K) :
    (between n l d δ ρ limitUp limitDown (fin m)).centred =
      if m ≤ d - n then
        if n < opens l d m then ⟨fin 0, fin (opens l d m)⟩
        else if n < opens l d m + m then
          ⟨limit (-limitDown) limitUp (fin (δ / (opens l d m + m - n))), fin (opens l d m + m)⟩
        else (between n l d δ ρ limitUp limitDown (fin m)).finish
      else if opens l d m + m ≤ n then (between n l d δ ρ limitUp limitDown (fin m)).finish
      else (between n l d δ ρ limitUp limitDown (fin m)).steady := by
  unfold centred
  rw [remaining_between, windowStart_between, windowEnd_between, zero_eq]
  refine if_congr Iff.rfl (if_congr Iff.rfl rfl ?_) rfl
  by_cases inside : n < opens l d m + m
  · rw [if_pos inside, ← fin_div _ (sub_pos.mpr inside).ne', ← fin_sub]
    exact if_pos (fin_lt.mpr inside)
  · rw [if_neg inside]
    exact if_neg fun before => inside (fin_lt.mp before)

theorem centred_of_after {m : K} (hm : 0 ≤ m) (after : opens l d m + m ≤ n) :
    (between n l d δ ρ limitUp limitDown (fin m)).centred =
      (between n l d δ ρ limitUp limitDown (fin m)).finish := by
  rw [centred_between, if_neg after.not_gt, if_pos after,
    if_neg ((le_add_of_nonneg_right hm).trans after).not_gt]
  exact ite_self _

/-- A ramp that takes for ever is not centred. -/
theorem centred_between_posInf :
    (between n l d δ ρ limitUp limitDown posInf).centred =
      (between n l d δ ρ limitUp limitDown posInf).steady := by
  unfold centred
  rw [remaining_between, windowEnd_between_posInf]
  exact (if_neg (not_posInf_le_fin _)).trans (if_neg id)

/-! ## What each leg keeps -/

/-- A pace that would make up `δ` by `r`, held within the limits. -/
theorem pace_kept (hu : 0 ≤ limitUp) (hd : 0 ≤ limitDown) (δ : K) {r : K} (hr : n < r)
    (hrd : r ≤ d) :
    ∃ v, limit (-limitDown) limitUp (fin (δ / (r - n))) = fin v ∧
      Kept limitUp limitDown n d δ v r := by
  obtain ⟨v, hv, low, high, part⟩ := limit_spec hd hu (δ / (r - n))
  exact ⟨v, hv, hr, hrd, high, low, mul_mem_uIcc_of_div part (sub_pos.mpr hr).ne'⟩

theorem steady_kept (l δ ρ : K) (rampTime : Exact K) (hu : 0 ≤ limitUp) (hd : 0 ≤ limitDown)
    (hnd : n < d) :
    ∃ v, (between n l d δ ρ limitUp limitDown rampTime).steady = ⟨fin v, fin d⟩ ∧
      Kept limitUp limitDown n d δ v d := by
  obtain ⟨v, hv, kept⟩ := pace_kept hu hd δ hnd le_rfl
  refine ⟨v, ?_, kept⟩
  rw [steady_between hnd, hv]

/-- Resting until `r` suits every approach. -/
theorem rest_kept (hu : 0 ≤ limitUp) (hd : 0 ≤ limitDown) {r : K} (hr : n < r) (hrd : r ≤ d) :
    Kept limitUp limitDown n d δ 0 r where
  ahead := hr
  inTime := hrd
  up := by simpa using hu
  down := neg_le_of_nonneg hd le_rfl
  short := by simp

/-- A rate that leads toward the setpoint, kept until the missing power is delivered or the setpoint
is due. -/
theorem toward_kept {v : K} (up : fin v ≤ limitUp) (down : -limitDown ≤ fin v) (hnd : n < d)
    (hv : v ≠ 0) (lead : 0 < δ / v) :
    Kept limitUp limitDown n d δ v (min (n + δ / v) d) where
  ahead := lt_min (lt_add_of_pos_right n lead) hnd
  inTime := min_le_right _ _
  up := up
  down := down
  short := by
    have time : min (n + δ / v) d - n ∈ Set.uIcc 0 (δ / v) := by
      rw [Set.uIcc_of_le lead.le]
      exact ⟨sub_nonneg.mpr (lt_min (lt_add_of_pos_right n lead) hnd).le,
        sub_le_iff_le_add'.mpr (min_le_left _ _)⟩
    rw [mul_comm]
    exact mul_mem_uIcc_of_div time hv

theorem finish_kept (l ρ : K) (rampTime : Exact K) (hu : 0 ≤ limitUp) (hd : 0 ≤ limitDown)
    (hnd : n < d) (hδ : δ ≠ 0) :
    ∃ v r, (between n l d δ ρ limitUp limitDown rampTime).finish = ⟨fin v, fin r⟩ ∧
      Kept limitUp limitDown n d δ v r ∧ (r = d ∨ v * (r - n) = δ) := by
  -- the rate asked for leads toward the setpoint
  have lead : 0 < (if 0 < ρ * δ then ρ else δ / (d - n)) * δ := by
    split
    next leads => exact leads
    next =>
      rw [div_mul_eq_mul_div]
      exact div_pos (mul_self_pos.mpr hδ) (sub_pos.mpr hnd)
  obtain ⟨v, hv, low, high, part⟩ := limit_spec hd hu (if 0 < ρ * δ then ρ else δ / (d - n))
  refine ⟨v, _, finish_between hnd hv, ?_⟩
  by_cases zero : v = 0
  · rw [if_pos zero, zero]
    exact ⟨rest_kept hu hd hnd le_rfl, .inl rfl⟩
  · rw [if_neg zero]
    refine ⟨toward_kept high low hnd zero (div_pos_of_mem_uIcc part zero lead), ?_⟩
    rcases min_choice (n + δ / v) d with h | h
    · right
      rw [h, add_sub_cancel_left, mul_div_cancel₀ _ zero]
    · exact .inl h

/-- The least duration at the ramp limit: a longer one that is shorter than the time left keeps
within the limit. -/
theorem shortest_spec {bound : Exact K} (hb : negInf < bound) :
    ∃ q, (if 0 < bound then fin |δ| / bound else fin (d - n)) = fin q ∧
      ∀ s, 0 < s → q ≤ s → s < d - n → fin (|δ| / s) ≤ bound := by
  obtain ⟨b, rfl⟩ | rfl := eq_of_negInf_lt hb
  · by_cases pos : 0 < b
    · refine ⟨|δ| / b, by simp [pos, fin_div, pos.ne'], fun s hs le _ => ?_⟩
      exact fin_le.mpr ((div_le_comm₀ pos hs).mp le)
    · exact ⟨d - n, by simp [pos], fun s _ le lt => (not_lt.mpr le lt).elim⟩
  · exact ⟨0, by simp; rfl, fun s _ _ _ => by simp⟩

/-- The stretched duration ends in time, and one that ends early keeps within the limit in the
direction of the setpoint. -/
theorem stretch_spec (l ρ : K) (hu : negInf < limitUp) (hd : negInf < limitDown)
    (ht : negInf < rampTime) (hnd : n < d) :
    ∃ s, (between n l d δ ρ limitUp limitDown rampTime).stretch = fin s ∧ 0 < s ∧ s ≤ d - n ∧
      (s < d - n → fin (|δ| / s) ≤ if 0 < δ then limitUp else limitDown) := by
  have left : 0 < d - n := sub_pos.mpr hnd
  have bound : negInf < if 0 < δ then limitUp else limitDown := by
    split
    · exact hu
    · exact hd
  obtain ⟨q, hq, within⟩ := shortest_spec (n := n) (d := d) (δ := δ) bound
  -- either all the time left is taken, or at least the least duration
  obtain ⟨s, hs, pos, le, cut⟩ : ∃ s, (between n l d δ ρ limitUp limitDown rampTime).stretch =
      fin s ∧ 0 < s ∧ s ≤ d - n ∧ (s < d - n → q ≤ s) := by
    rw [stretch_between]
    dsimp only
    rw [hq]
    obtain ⟨m, rfl⟩ | rfl := eq_of_negInf_lt ht
    · by_cases none : min (max q m) (d - n) ≤ 0
      · refine ⟨d - n, ?_, left, le_rfl, fun h => (lt_irrefl _ h).elim⟩
        rw [greater_fin, lesser_fin, if_pos (by simpa using none)]
      · refine ⟨min (max q m) (d - n), ?_, not_le.mp none, min_le_right _ _, fun h => ?_⟩
        · rw [greater_fin, lesser_fin, if_neg (by simpa using none)]
        · rw [min_eq_left ((min_lt_iff.mp h).resolve_right (lt_irrefl _)).le]
          exact le_max_left _ _
    · refine ⟨d - n, ?_, left, le_rfl, fun h => (lt_irrefl _ h).elim⟩
      have : lesser posInf (fin (d - n)) = fin (d - n) := by simp [lesser]
      rw [greater_posInf, this, if_neg (by simpa using left)]
  exact ⟨s, hs, pos, le, fun lt => within s pos (cut lt) lt⟩

/-- A pace within the limit in the direction of the setpoint is kept. -/
theorem limit_eq_pace {s : K} (hu : 0 ≤ limitUp) (hd : 0 ≤ limitDown) (pos : 0 < s)
    (within : fin (|δ| / s) ≤ if 0 < δ then limitUp else limitDown) :
    limit (-limitDown) limitUp (fin (δ / s)) = fin (δ / s) := by
  rcases lt_or_ge 0 δ with up | down
  · rw [abs_of_pos up, if_pos up] at within
    exact limit_eq_self (neg_le_of_nonneg hd (div_pos up pos).le) within
  · rw [abs_of_nonpos down, neg_div, if_neg (not_lt.mpr down)] at within
    refine limit_eq_self (neg_le_fin within) (le_trans ?_ hu)
    simpa using div_nonpos_of_nonpos_of_nonneg down pos.le

theorem prompt_kept (hu : 0 ≤ limitUp) (hd : 0 ≤ limitDown) (ht : 0 ≤ rampTime) (hnd : n < d) :
    ∃ v r, (between n l d δ ρ limitUp limitDown rampTime).prompt = ⟨fin v, fin r⟩ ∧
      Kept limitUp limitDown n d δ v r ∧ (r = d ∨ v * (r - n) = δ) := by
  obtain ⟨s, hs, pos, le, within⟩ := stretch_spec (δ := δ) l ρ (negInf_lt_of_nonneg hu)
    (negInf_lt_of_nonneg hd) (negInf_lt_of_nonneg ht) hnd
  obtain ⟨v, hv, kept⟩ :=
    pace_kept hu hd δ (lt_add_of_pos_right n pos) (le_sub_iff_add_le'.mp le)
  rw [add_sub_cancel_left] at hv
  refine ⟨v, n + s, ?_, kept, ?_⟩
  · rw [prompt_between pos hs, hv]
  · rcases le.lt_or_eq with early | rfl
    · right
      have exact : v = δ / s := fin.inj (hv.symm.trans (limit_eq_pace hu hd pos (within early)))
      rw [exact, add_sub_cancel_left, div_mul_cancel₀ _ pos.ne']
    · exact .inl (by ring)

theorem turns_between (m : K) :
    (between n l d δ ρ limitUp limitDown (fin m)).turns .midpoint =
      if opens l d m + m ≤ n then 1 else if m ≤ d - n then if n < opens l d m then 3 else 2
      else 0 := by
  simp only [turns, windowStart_between, windowEnd_between, remaining_between]
  simp [between]

theorem centred_kept (hu : 0 ≤ limitUp) (hd : 0 ≤ limitDown) (ht : 0 ≤ rampTime) (hln : l ≤ n)
    (hnd : n < d) (hδ : δ ≠ 0) :
    ∃ v r, (between n l d δ ρ limitUp limitDown rampTime).centred = ⟨fin v, fin r⟩ ∧
      Kept limitUp limitDown n d δ v r ∧ (r = d ∨ v * (r - n) = δ ∨
        ∀ ε σ, (between r l d ε σ limitUp limitDown rampTime).turns .midpoint <
          (between n l d δ ρ limitUp limitDown rampTime).turns .midpoint) := by
  obtain ⟨v₁, hsteady, steady⟩ := steady_kept l δ ρ rampTime hu hd hnd
  obtain ⟨v₂, r₂, hfinish, finish, done⟩ := finish_kept l ρ rampTime hu hd hnd hδ
  obtain ⟨m, m0, rfl⟩ | rfl := eq_of_nonneg ht
  · simp only [turns_between]
    have mid : opens l d m = l + (d - l - m) / 2 := rfl
    -- the window is past, or it lies ahead or is open, or there is no time for it
    by_cases after : opens l d m + m ≤ n
    · rw [centred_of_after m0 after]
      exact ⟨v₂, r₂, hfinish, finish, done.imp_right .inl⟩
    rw [centred_between, if_neg after]
    by_cases enough : m ≤ d - n
    · rw [if_pos enough]
      by_cases before : n < opens l d m
      · rw [if_pos before]
        refine ⟨0, opens l d m, rfl, rest_kept hu hd before (by linarith), .inr (.inr ?_)⟩
        intro ε σ
        rw [if_neg after, if_pos enough, if_pos before]
        simp only [lt_irrefl, if_false]
        split_ifs <;> decide
      · have inside : n < opens l d m + m := not_le.mp after
        have inTime : opens l d m + m ≤ d := by linarith
        obtain ⟨v, hv, kept⟩ := pace_kept hu hd δ inside inTime
        rw [if_neg before, if_pos inside, hv]
        refine ⟨v, opens l d m + m, rfl, kept, .inr (.inr ?_)⟩
        intro ε σ
        rw [if_pos le_rfl, if_neg after, if_pos enough, if_neg before]
        decide
    · rw [if_neg enough]
      exact ⟨v₁, d, hsteady, steady, .inl rfl⟩
  · rw [centred_between_posInf]
    exact ⟨v₁, d, hsteady, steady, .inl rfl⟩

end Bodies

end Approach

/-! ## Every mode -/

/-- The leg a mode plans keeps within the limits, ends ahead of the clock and in time, and does not
pass the setpoint. One that ends early delivers what was missing or leaves fewer reviews to come. -/
theorem RampMode.leg_kept [IsStrictOrderedRing K] (mode : RampMode) {n l d δ : K} (ρ : K)
    {limitUp limitDown rampTime : Exact K} (hu : 0 ≤ limitUp) (hd : 0 ≤ limitDown)
    (ht : 0 ≤ rampTime) (hln : l ≤ n) (hnd : n < d) (hδ : δ ≠ 0) :
    ∃ v r, mode.leg (.between n l d δ ρ limitUp limitDown rampTime) = ⟨fin v, fin r⟩ ∧
      Approach.Kept limitUp limitDown n d δ v r ∧ (r = d ∨ v * (r - n) = δ ∨
        ∀ ε σ, (Approach.between r l d ε σ limitUp limitDown rampTime).turns mode <
          (Approach.between n l d δ ρ limitUp limitDown rampTime).turns mode) := by
  cases mode with
  | midpoint => exact Approach.centred_kept hu hd ht hln hnd hδ
  | delayed =>
    obtain ⟨v, r, hleg, kept, done⟩ := Approach.prompt_kept (l := l) (ρ := ρ) hu hd ht hnd
    exact ⟨v, r, hleg, kept, done.imp_right .inl⟩
  | interpolated | justInTime | onTargetRamp =>
    obtain ⟨v, hleg, kept⟩ := Approach.steady_kept l δ ρ rampTime hu hd hnd
    exact ⟨v, d, hleg, kept, .inl rfl⟩

/-- Every mode rests or holds a rate within the limits, whatever it is asked. -/
theorem RampMode.leg_rate {α : Type} [Quantity α] (mode : RampMode) (a : Approach α) :
    (mode.leg a).rate = 0 ∨ ∃ x, (mode.leg a).rate = a.hold x := by
  have steady : ∃ x, a.steady.rate = a.hold x := ⟨_, rfl⟩
  have finish : ∃ x, a.finish.rate = a.hold x := by
    unfold Approach.finish
    dsimp only
    split
    · exact ⟨_, rfl⟩
    · exact ⟨_, rfl⟩
  cases mode with
  | midpoint =>
    show a.centred.rate = 0 ∨ ∃ x, a.centred.rate = a.hold x
    unfold Approach.centred
    split_ifs
    · exact .inl rfl
    · exact .inr ⟨_, rfl⟩
    · exact .inr finish
    · exact .inr finish
    · exact .inr steady
  | delayed => exact .inr ⟨_, rfl⟩
  | interpolated | justInTime | onTargetRamp => exact .inr steady

/-- Under limits that leave room for some finite rate, every mode plans a finite rate. -/
theorem RampMode.leg_rate_isFinite [IsStrictOrderedRing K] (mode : RampMode) {n l d δ ρ : K}
    {limitUp limitDown rampTime : Exact K} (hu : negInf < limitUp) (hd : negInf < limitDown)
    (ht : negInf < rampTime) (hnd : n < d) :
    isFinite (mode.leg (.between n l d δ ρ limitUp limitDown rampTime)).rate = true := by
  let a := Approach.between n l d δ ρ limitUp limitDown rampTime
  have held (x : K) : isFinite (limit (-limitDown) limitUp (fin x)) = true :=
    limit_isFinite (neg_lt_posInf hd) hu x
  have steady : isFinite a.steady.rate = true := by
    rw [Approach.steady_between hnd]
    exact held _
  have finish : isFinite a.finish.rate = true := by
    obtain ⟨v, hv⟩ := isFinite_iff.mp (held (if 0 < ρ * δ then ρ else δ / (d - n)))
    rw [Approach.finish_between hnd hv]
    exact isFinite_fin v
  cases mode with
  | midpoint =>
    change isFinite a.centred.rate = true
    obtain ⟨m, rfl⟩ | rfl := eq_of_negInf_lt ht
    · rw [Approach.centred_between]
      split_ifs
      · exact isFinite_fin 0
      · exact held _
      · exact finish
      · exact finish
      · exact steady
    · rw [Approach.centred_between_posInf]
      exact steady
  | delayed =>
    obtain ⟨s, hs, pos, -⟩ := Approach.stretch_spec (δ := δ) l ρ hu hd ht hnd
    change isFinite a.prompt.rate = true
    rw [Approach.prompt_between pos hs]
    exact held _
  | interpolated | justInTime | onTargetRamp => exact steady

theorem RampMode.turns_le (mode : RampMode) (a : Approach (Exact K)) : a.turns mode ≤ 3 := by
  cases mode with
  | midpoint =>
    simp only [Approach.turns]
    split_ifs <;> decide
  | delayed | interpolated | justInTime | onTargetRamp => simp [Approach.turns]

end UnitDispatch
