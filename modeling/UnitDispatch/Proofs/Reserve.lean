import UnitDispatch.Proofs.Course

/-! # The reserve beside a leg

While a generator follows its leg, the reserve moves toward what is called for, at the rate by which
the drive exceeds the leg. `reserveAfter_rated` says that it does not pass what is called for, and
that leg and reserve together keep within the ramp limits.
-/

namespace UnitDispatch

open Quantity Exact

variable {K : Type} [Field K] [LinearOrder K]

namespace Reserve

theorem tolerance_eq : (tolerance : Exact K) = fin (1 / 10 ^ 3) := by
  unfold tolerance
  rw [ofScientific_fin, Nat.cast_one]

/-! ## What may be called for -/

section Called

variable {α : Type} [Quantity α] [Signed α] {r : Reserve α}

theorem empty_called : (empty : Reserve α).Called := by
  have none : (0 : α) ≤ 0 := Ordered.le_refl Ordered.defined_zero
  exact ⟨none, none⟩

theorem Called.call (called : r.Called) (level : α) : (r.call level).Called := by
  have available := (Signed.defined_of_le called.le_available).2
  refine ⟨Ordered.le_greater_right Ordered.defined_zero _, ?_⟩
  exact greater_le (fun _ => Ordered.lesser_le_right available level)
    (Ordered.le_trans called.nonneg called.le_available)

theorem Called.hold (called : r.Called) (available : α) : (r.hold available).Called := by
  have some : (0 : α) ≤ greater available 0 := Ordered.le_greater_right Ordered.defined_zero _
  exact ⟨le_lesser (fun _ => called.nonneg) some,
    Ordered.lesser_le_right (Signed.defined_of_le some).2 r.requested⟩

end Called

/-- No more than a number can be called for when a number is available. -/
theorem Called.isFinite_requested {r : Reserve (Exact K)} (called : r.Called)
    (available : isFinite r.available = true) : isFinite r.requested = true := by
  obtain ⟨a, ha⟩ := isFinite_iff.mp available
  have most := called.le_available
  rw [ha] at most
  obtain ⟨q, -, hq⟩ | hq := eq_of_nonneg called.nonneg
  · rw [hq]
    exact isFinite_fin q
  · rw [hq] at most
    exact (not_posInf_le_fin a most).elim

end Reserve

namespace Generator

variable {g : Generator (Exact K)} {n l c ρ x q dt : K}

/-! ## How the reserve moves -/

/-- What a reserve of `x`, of which `q` is called for, becomes in `dt` of a leg at rate `ρ`. -/
theorem reserveAfter_eq (rate : g.rate = fin ρ) (realized : g.reserve.realized = fin x)
    (requested : g.reserve.requested = fin q) :
    g.reserveAfter (fin dt) =
      if 1 / 10 ^ 3 < q - x then
        lesser (fin x + (g.envelope.rampUp - fin ρ) * fin dt) (fin q)
      else if q - x < -(1 / 10 ^ 3) then
        greater (fin x + (-g.envelope.rampDown - fin ρ) * fin dt) (fin q)
      else fin x := by
  have gap : g.reserve.gap = fin (q - x) := by
    unfold Reserve.gap
    rw [requested, realized, fin_sub]
  unfold reserveAfter Reserve.after drive
  rw [gap, Reserve.tolerance_eq, rate, realized, requested, neg_fin]
  simp only [fin_lt]
  split_ifs <;> rfl

theorem moveTo_realized {t : K} (now : g.now = fin n) [IsStrictOrderedRing K] (ahead : n < t) :
    (g.moveTo (fin t)).reserve.realized = g.reserveAfter (fin (t - n)) := by
  unfold Generator.moveTo
  dsimp only
  rw [now, fin_sub, if_pos (by simpa using ahead)]

variable [IsStrictOrderedRing K]

/-- A move of the reserve upward: unbounded, or as far as the upward limit leaves room. -/
theorem reserve_rise {up : Exact K} (proper : negInf < up) (ht : 0 < dt) :
    (∃ u, up = fin u ∧ lesser (fin x + (up - fin ρ) * fin dt) (fin q) =
      fin (min (x + (u - ρ) * dt) q)) ∨
    (up = posInf ∧ lesser (fin x + (up - fin ρ) * fin dt) (fin q) = fin q) := by
  obtain ⟨u, rfl⟩ | rfl := eq_of_negInf_lt proper
  · left
    exact ⟨u, rfl, by simp⟩
  · right
    refine ⟨rfl, ?_⟩
    rw [posInf_sub_fin, posInf_mul_fin ht, fin_add_posInf]
    simp [lesser]

/-- A move of the reserve downward. -/
theorem reserve_fall {down : Exact K} (proper : negInf < down) (ht : 0 < dt) :
    (∃ d, down = fin d ∧ greater (fin x + (-down - fin ρ) * fin dt) (fin q) =
      fin (max (x + (-d - ρ) * dt) q)) ∨
    (down = posInf ∧ greater (fin x + (-down - fin ρ) * fin dt) (fin q) = fin q) := by
  obtain ⟨d, rfl⟩ | rfl := eq_of_negInf_lt proper
  · left
    exact ⟨d, rfl, by simp⟩
  · right
    refine ⟨rfl, ?_⟩
    rw [neg_posInf, negInf_sub_fin, negInf_mul_fin ht, fin_add_negInf]
    simp [greater]

/-- A reserve that is a number stays one. -/
theorem reserveAfter_isFinite (up : negInf < g.envelope.rampUp)
    (down : negInf < g.envelope.rampDown) (rate : g.rate = fin ρ)
    (realized : g.reserve.realized = fin x) (requested : g.reserve.requested = fin q)
    (ht : 0 < dt) : isFinite (g.reserveAfter (fin dt)) = true := by
  rw [reserveAfter_eq rate realized requested]
  split_ifs
  · obtain ⟨u, -, h⟩ | ⟨-, h⟩ := reserve_rise (x := x) (ρ := ρ) (q := q) up ht <;> rw [h] <;>
      exact isFinite_fin _
  · obtain ⟨d, -, h⟩ | ⟨-, h⟩ := reserve_fall (x := x) (ρ := ρ) (q := q) down ht <;> rw [h] <;>
      exact isFinite_fin _
  · exact isFinite_fin x

/-- A reserve moves toward what is called for and does not pass it; leg and reserve together keep
within the ramp limits. -/
theorem reserveAfter_rated (proper : g.Proper) (rated : g.Rated) (rate : g.rate = fin ρ)
    (realized : g.reserve.realized = fin x) (requested : g.reserve.requested = fin q)
    (ht : 0 < dt) :
    ∃ y, g.reserveAfter (fin dt) = fin y ∧ y ∈ Set.uIcc x q ∧
      -g.envelope.rampDown * fin dt ≤ fin (ρ * dt + (y - x)) ∧
      fin (ρ * dt + (y - x)) ≤ g.envelope.rampUp * fin dt := by
  rw [reserveAfter_eq rate realized requested]
  have narrow : (0 : K) < 1 / 10 ^ 3 := by positivity
  have low := mul_le_fin (rate ▸ rated.down) ht
  have high := fin_le_mul (rate ▸ rated.up) ht
  split_ifs with short long
  · have rise : x ≤ q := by linarith
    obtain ⟨u, hu, h⟩ | ⟨hu, h⟩ := reserve_rise (x := x) (ρ := ρ) (q := q) proper.rampUp ht
    · have room : ρ * dt ≤ u * dt := by
        rwa [hu, fin_mul, fin_le] at high
      have up : x ≤ min (x + (u - ρ) * dt) q := le_min (by linarith) rise
      have most : min (x + (u - ρ) * dt) q ≤ x + (u - ρ) * dt := min_le_left _ _
      refine ⟨_, h, Set.mem_uIcc_of_le up (min_le_right _ _), ?_, ?_⟩
      · exact le_trans low (fin_le.mpr (by linarith))
      · rw [hu, fin_mul, fin_le]
        linarith
    · refine ⟨q, h, Set.right_mem_uIcc, le_trans low (fin_le.mpr (by linarith)), ?_⟩
      rw [hu, posInf_mul_fin ht]
      exact fin_le_posInf _
  · have fall : q ≤ x := by linarith
    obtain ⟨d, hd, h⟩ | ⟨hd, h⟩ := reserve_fall (x := x) (ρ := ρ) (q := q) proper.rampDown ht
    · have room : -d * dt ≤ ρ * dt := by
        rwa [hd, neg_fin, fin_mul, fin_le] at low
      have down : max (x + (-d - ρ) * dt) q ≤ x := max_le (by linarith) fall
      have most : x + (-d - ρ) * dt ≤ max (x + (-d - ρ) * dt) q := le_max_left _ _
      refine ⟨_, h, Set.mem_uIcc_of_ge (le_max_right _ _) down, ?_, ?_⟩
      · rw [hd, neg_fin, fin_mul, fin_le]
        linarith
      · exact le_trans (fin_le.mpr (by linarith)) high
    · refine ⟨q, h, Set.right_mem_uIcc, ?_, le_trans (fin_le.mpr (by linarith)) high⟩
      rw [hd, neg_posInf, negInf_mul_fin ht]
      exact negInf_le_fin _
  · refine ⟨x, rfl, Set.left_mem_uIcc, ?_, ?_⟩ <;> rw [sub_self, add_zero]
    · exact low
    · exact high

end Generator

end UnitDispatch
