import UnitDispatch.Proofs.Reserve

/-! # The power balance

The output carries committed power, realized reserve, and what is laid over the generator from
outside. `Balanced` says how much the last is, and that all of it are numbers; neither revising the
plan nor moving along a leg changes it.
-/

namespace UnitDispatch

open Quantity Exact

namespace Generator

variable {K : Type} [Field K] [LinearOrder K] {g h : Generator (Exact K)} {n l c ρ x y : K}

/-- The output is made up of committed power `c`, realized reserve `y` and an overlay `x`. -/
structure Carries (g : Generator (Exact K)) (c y x : K) : Prop where
  committed : g.committed = fin c
  realized : g.reserve.realized = fin y
  output : g.output = fin (c + y + x)

/-- The output is committed power, realized reserve and `x`. -/
def Balanced (x : K) (g : Generator (Exact K)) : Prop := ∃ c y, g.Carries c y x

theorem Carries.overlay (carries : g.Carries c y x) : g.overlay = fin x := by
  unfold Generator.overlay
  rw [carries.output, carries.committed, carries.realized, fin_sub, fin_sub]
  exact congrArg fin (by ring)

theorem Carries.base (carries : g.Carries c y x) : g.base = fin (c + y) := by
  unfold Generator.base
  rw [carries.committed, carries.realized, fin_add]

omit [LinearOrder K] in
theorem Balanced.of_same (balanced : g.Balanced x) (same : SamePower g h) : h.Balanced x := by
  obtain ⟨c, y, carries⟩ := balanced
  exact ⟨c, y, same.committed.trans carries.committed, same.realized.trans carries.realized,
    same.output.trans carries.output⟩

section Kept

variable [IsStrictOrderedRing K]

/-- A move along the leg adds to committed power and reserve what it adds to the output. -/
theorem Carries.moveTo (carries : g.Carries c y x) (now : g.now = fin n) (rate : g.rate = fin ρ)
    {t z : K} (ahead : n < t) (reserve : g.reserveAfter (fin (t - n)) = fin z) :
    (g.moveTo (fin t)).Carries (c + ρ * (t - n)) z x := by
  have committed : g.committedAfter (fin (t - n)) = fin (c + ρ * (t - n)) := by
    unfold committedAfter
    rw [carries.committed, rate, fin_mul, fin_add]
  unfold Generator.moveTo
  dsimp only
  rw [now, fin_sub, if_pos (by simpa using ahead), committed, reserve]
  refine ⟨rfl, rfl, ?_⟩
  show fin (c + ρ * (t - n)) + fin z + g.overlay = _
  rw [carries.overlay, fin_add, fin_add]

theorem Balanced.moveTo (balanced : g.Balanced x) (now : g.now = fin n) (rate : g.rate = fin ρ)
    (up : negInf < g.envelope.rampUp) (down : negInf < g.envelope.rampDown)
    (requested : isFinite g.reserve.requested = true) (t : K) :
    (g.moveTo (fin t)).Balanced x := by
  obtain ⟨c, y, carries⟩ := balanced
  obtain ⟨q, hq⟩ := isFinite_iff.mp requested
  rcases lt_or_ge n t with ahead | past
  · obtain ⟨z, hz⟩ := isFinite_iff.mp
      (reserveAfter_isFinite up down rate carries.realized hq (sub_pos.mpr ahead))
    exact ⟨_, z, carries.moveTo now rate ahead hz⟩
  · rw [moveTo_of_past now past]
    exact ⟨c, y, carries⟩

/-- A revision of the plan keeps the balance, also where it delivers a power without a ramp. -/
theorem Balanced.replan (balanced : g.Balanced x) (regular : g.Regular) (proper : g.Proper) :
    g.replan.Balanced x := by
  obtain ⟨c, y, carries⟩ := balanced
  obtain ⟨n, l, c', ρ, stands⟩ := regular.stands
  have revises := replan_revises regular proper stands
  generalize g.replan = h at revises ⊢
  cases revises with
  | ahead => exact ⟨c, y, carries.committed, carries.realized, carries.output⟩
  | next => exact ⟨c, y, carries.committed, carries.realized, carries.output⟩
  | carry => exact ⟨c, y, carries.committed, carries.realized, carries.output⟩
  | @jump p w =>
    refine ⟨c + (w - c'), y, ?_, carries.realized, ?_⟩
    · show g.committed + fin (w - c') = _
      rw [carries.committed, fin_add]
    · show g.output + fin (w - c') = _
      rw [carries.output, fin_add]
      exact congrArg fin (by ring)

end Kept

end Generator

end UnitDispatch
