import UnitDispatch.Proofs.Headroom

/-! # The power band

No leg passes the power it makes for, and every power a generator makes for is held within its
limits, less what is kept for the reserve. So committed power stays within that band once it is in
it, and with the reserve on top it stays within the power limits. Either limit may be lifted.
-/

namespace UnitDispatch

open Quantity Exact

namespace Generator

/-- Committed power is within the limits, less what is kept for the reserve, and so is what the
reserve makes of it within the limits. -/
structure InBand {α : Type} [Quantity α] (g : Generator α) : Prop where
  low : g.envelope.powerMin ≤ g.committed
  high : g.committed ≤ g.envelope.powerMax - g.reserve.available
  base_low : g.envelope.powerMin ≤ g.base
  base_high : g.base ≤ g.envelope.powerMax

variable {K : Type} [Field K] [LinearOrder K] {lo hi : Exact K} {a c n l ρ : K}
  {g g₀ : Generator (Exact K)}

/-- The power limits are `lo` and `hi`, and `a` is available of the reserve. -/
structure Limited (lo hi : Exact K) (a : K) (g : Generator (Exact K)) : Prop where
  powerMin : g.envelope.powerMin = lo
  powerMax : g.envelope.powerMax = hi
  available : g.reserve.available = fin a

instance (lo hi : Exact K) (a : K) (g : Generator (Exact K)) : Decidable (g.Limited lo hi a) :=
  decidable_of_iff (g.envelope.powerMin = lo ∧ g.envelope.powerMax = hi ∧
      g.reserve.available = fin a)
    ⟨fun ⟨l, h, a⟩ => ⟨l, h, a⟩, fun ⟨l, h, a⟩ => ⟨l, h, a⟩⟩

/-- The times an action names are numbers, and so are the powers it asks for, unless they are held
between numbers anyway. -/
structure Action.Holdable (lo hi : Exact K) (b : Action (Exact K)) : Prop where
  times : ∀ t ∈ b.times, isFinite t = true
  powers : isFinite lo = true ∧ isFinite hi = true ∨ ∀ p ∈ b.powers, isFinite p = true

instance (lo hi : Exact K) (b : Action (Exact K)) : Decidable (b.Holdable lo hi) :=
  decidable_of_iff ((∀ t ∈ b.times, isFinite t = true) ∧
      (isFinite lo = true ∧ isFinite hi = true ∨ ∀ p ∈ b.powers, isFinite p = true))
    ⟨fun ⟨t, p⟩ => ⟨t, p⟩, fun ⟨t, p⟩ => ⟨t, p⟩⟩

/-- Powers are held as the limits say. -/
theorem Limited.holdTarget (limited : g.Limited lo hi a) (p : Exact K) :
    g.holdTarget p = limit lo (hi - fin a) p := by
  unfold Generator.holdTarget
  rw [limited.powerMin, limited.powerMax, limited.available]

/-- Where there is room for some power, such an action suits the generator. -/
theorem Limited.suits (limited : g.Limited lo hi a) (fits : g.Fits c) {b : Action (Exact K)}
    (holdable : b.Holdable lo hi) : g.Suits b := by
  obtain ⟨low, high⟩ := fits
  rw [limited.powerMin] at low
  rw [limited.powerMax, limited.available] at high
  refine ⟨holdable.times, fun p hp => ?_⟩
  rw [limited.holdTarget]
  rcases holdable.powers with ⟨least, most⟩ | finite
  · obtain ⟨least, rfl⟩ := isFinite_iff.mp least
    obtain ⟨most, rfl⟩ := isFinite_iff.mp most
    rw [fin_sub, fin_le] at high
    rw [fin_le] at low
    obtain ⟨w, hw, -⟩ := limit_mem_Icc (low.trans high) p
    rw [fin_sub, hw]
    exact isFinite_fin w
  · obtain ⟨x, rfl⟩ := isFinite_iff.mp (finite p hp)
    obtain ⟨w, hw, -⟩ := limit_toward low high x
    rw [hw]
    exact isFinite_fin w

/-- What may be called for is a number. -/
theorem Limited.requested (limited : g.Limited lo hi a) (called : g.reserve.Called) :
    ∃ q, g.reserve.requested = fin q ∧ q ∈ Set.Icc 0 a := by
  obtain ⟨q, hq⟩ := isFinite_iff.mp
    (called.isFinite_requested (isFinite_iff.mpr ⟨a, limited.available⟩))
  obtain ⟨nonneg, most⟩ := called
  rw [hq, zero_eq, fin_le] at nonneg
  rw [hq, limited.available, fin_le] at most
  exact ⟨q, hq, nonneg, most⟩

variable [IsStrictOrderedRing K]

/-- Committed power is within the limits, and no more of the reserve is delivered than is
available. -/
abbrev Banded (a : K) (g : Generator (Exact K)) : Prop := Holding g (fun _ y => y ∈ Set.Icc 0 a) g

theorem Banded.inBand (banded : g.Banded a) (limited : g.Limited lo hi a) : g.InBand := by
  obtain ⟨c, y, committed, realized, ⟨low, high⟩, nonneg, most⟩ := banded
  have base : g.base = fin (c + y) := by
    unfold Generator.base
    rw [committed, realized, fin_add]
  have top : fin (c + a) ≤ g.envelope.powerMax :=
    fin_add_le_of_le_sub (limited.available ▸ high)
  refine ⟨committed ▸ low, committed ▸ high, ?_, ?_⟩ <;> rw [base]
  · exact le_trans low (fin_le.mpr (le_add_of_nonneg_right nonneg))
  · exact le_trans (fin_le.mpr (add_le_add_right most c)) top

/-- An action that leaves the limits as they are leaves a generator in its band. -/
theorem Banded.act (banded : g.Banded a) (limited : g.Limited lo hi a)
    (course : g.OnCourse n l c ρ) (workable : g.Workable) {b : Action (Exact K)}
    (holdable : b.Holdable lo hi) (limits : (g.act b).LimitsNonneg)
    (still : (g.act b).Limited lo hi a) :
    (∃ n l c ρ, (g.act b).OnCourse n l c ρ) ∧ (g.act b).Workable ∧ (g.act b).Banded a := by
  have suits : g.Suits b := by
    obtain ⟨c, y, committed, realized, fits, within⟩ := banded
    exact limited.suits fits holdable
  have after := course.act_workable workable suits limits fun p => by
    rw [still.holdTarget, limited.holdTarget]
  obtain ⟨q, requested, hq⟩ := limited.requested course.called
  have kept {t : K} : KeptByLegs g t (Holding g fun _ y => y ∈ Set.Icc 0 a) := by
    refine holding_keptByLegs (.inr fun _ within => within) ⟨q, requested⟩ ?_
    intro _ y _ z q' _ requested' between _ within
    obtain rfl : q = q' := fin.inj (requested.symm.trans requested')
    exact Set.uIcc_subset_Icc within hq between
  have advance {t : Exact K} (named : b = .advance t) :
      Holding g (fun _ y => y ∈ Set.Icc 0 a) (g.advance t) := by
    subst named
    obtain ⟨t, rfl⟩ := isFinite_iff.mp (suits.times t List.mem_cons_self)
    obtain ⟨_, _, _, _, holds⟩ := course.advance workable kept banded
    exact holds
  obtain ⟨onward, c, y, committed, realized, fits, within⟩ :=
    course.act workable suits after (holding_keptByPlans (.inr fun _ within => within)) banded
      advance
  refine ⟨onward, after, c, y, committed, realized, ⟨?_, ?_⟩, within⟩
  · rw [still.powerMin, ← limited.powerMin]
    exact fits.1
  · rw [still.powerMax, still.available, ← limited.powerMax, ← limited.available]
    exact fits.2

/-- A generator that starts within its limits, less what is kept for the reserve, and with none of
the reserve delivered, never leaves them: not for any power asked for, in any mode and under any
ramp limits, as long as the power limits and what is available of the reserve stay the same. Only a
lifted limit needs powers that are numbers. -/
theorem inBand_of_reaches {o : K} (history : Reaches Workable Suits (idle (fin o)) g₀)
    (low : lo ≤ g₀.committed) (high : g₀.committed ≤ hi - fin a)
    (fresh : g₀.reserve.realized = 0)
    (reaches : Reaches (fun g => g.LimitsNonneg ∧ g.Limited lo hi a)
      (fun _ action => action.Holdable lo hi) g₀ g) : g.InBand := by
  -- neither bound on the base is kept by itself: each needs committed power and reserve in bounds
  suffices (∃ n l c ρ, g.OnCourse n l c ρ) ∧ g.Workable ∧ g.Banded a from
    this.2.2.inBand reaches.holds.2
  induction reaches with
  | start holds =>
    obtain ⟨-, limited⟩ := holds
    obtain ⟨n, l, c, ρ, course⟩ := history.onCourse
    obtain ⟨q, -, nonneg, most⟩ := limited.requested course.called
    rw [course.stands.committed] at low high
    refine ⟨⟨n, l, c, ρ, course⟩, history.holds, c, 0, course.stands.committed,
      fresh.trans zero_eq, ⟨?_, ?_⟩, le_rfl, nonneg.trans most⟩
    · rw [limited.powerMin]
      exact low
    · rw [limited.powerMax, limited.available]
      exact high
  | @act g b reaches holdable after ih =>
    obtain ⟨⟨n, l, c, ρ, course⟩, workable, banded⟩ := ih
    exact banded.act reaches.holds.2 course workable holdable after.1 after.2

/-- A reserve called on while setpoints beyond the limits are followed, up and down, and one called
on where there are no limits. -/
theorem inBand_beyond_limits :
    (((idle (fin (10 : ℚ))).run [.setPowerLimits 0 100, .holdReserve (fin 20),
      .setRampLimits (fin 2) (fin 1)]).run [.add (fin 60) posInf, .callReserve (fin 15),
        .setMode .delayed, .advance (fin 50), .add (fin 120) (fin (-40)),
        .advance (fin 90)]).InBand ∧
    (((idle (fin (10 : ℚ))).run [.holdReserve (fin 20)]).run [.add (fin 60) (fin 130),
      .callReserve (fin 15), .setRampLimits (fin 2) (fin 1), .advance (fin 50)]).InBand := by
  have start : Reaches Workable Suits (idle (fin (10 : ℚ))) (idle (fin 10)) :=
    .start (by decide +kernel)
  have limited : Reaches (fun g => g.LimitsNonneg ∧ g.Limited 0 100 20)
      (fun _ action => action.Holdable 0 100)
      ((idle (fin (10 : ℚ))).run [.setPowerLimits 0 100, .holdReserve (fin 20),
        .setRampLimits (fin 2) (fin 1)]) _ := .start (by decide +kernel)
  have unlimited : Reaches (fun g => g.LimitsNonneg ∧ g.Limited negInf posInf 20)
      (fun _ action => action.Holdable negInf posInf)
      ((idle (fin (10 : ℚ))).run [.holdReserve (fin 20)]) _ := .start (by decide +kernel)
  constructor
  · exact inBand_of_reaches (start.run (by decide +kernel)) (by decide +kernel)
      (by decide +kernel) (by decide +kernel) (limited.run (by decide +kernel))
  · exact inBand_of_reaches (start.run (by decide +kernel)) (by decide +kernel)
      (by decide +kernel) (by decide +kernel) (unlimited.run (by decide +kernel))

end Generator

end UnitDispatch
