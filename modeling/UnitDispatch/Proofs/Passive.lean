import UnitDispatch.Proofs.Headroom
import UnitDispatch.Proofs.Isolation
import UnitDispatch.Proofs.Tracking

/-! # Units that take no part in regulation

A unit that takes no part in regulation still works its output out anew whenever it advances, from
the rate at which its base has moved, and holds both within its physical envelope. The base of a
generator moves no faster than its ramp limits and stays within its power limits, so nothing is ever
held back: the unit does what the generator would do without it.
-/

namespace UnitDispatch

open Quantity Exact

namespace Generator

variable {K : Type} [Field K] [LinearOrder K] [IsStrictOrderedRing K] {g : Generator (Exact K)}
  {n l c ρ t : K}

/-- The reserve delivered is no less than nothing and no more than is available. -/
def Delivers (g : Generator (Exact K)) (_ y : K) : Prop := 0 ≤ y ∧ fin y ≤ g.reserve.available

omit [IsStrictOrderedRing K] in
theorem Numeric.delivers_leg {c c' y z q : K} (numeric : g.Numeric) (called : g.reserve.Called)
    (_ : g.Fits c') (requested : g.reserve.requested = fin q) (between : z ∈ Set.uIcc y q)
    (_ : q + 1 / 10 ^ 3 < y → z = q ∨ c' + z ≤ c + y) (delivers : g.Delivers c y) :
    g.Delivers c' z := by
  obtain ⟨q', a, hq, ha, nonneg, most⟩ := numeric.called called
  obtain rfl : q = q' := fin.inj (requested.symm.trans hq)
  obtain ⟨least, le⟩ := delivers
  rw [ha, fin_le] at le
  obtain ⟨low, high⟩ := Set.mem_Icc.mp (Set.uIcc_subset_Icc ⟨least, le⟩ ⟨nonneg, most⟩ between)
  refine ⟨low, ?_⟩
  rw [ha]
  exact fin_le.mpr high

/-- A power that fits, with what is delivered of the reserve, is within the power limits. -/
theorem Holding.base (holding : Holding g g.Delivers g) (numeric : g.Numeric) :
    g.envelope.powerMin ≤ g.base ∧ g.base ≤ g.envelope.powerMax := by
  obtain ⟨c, y, committed, realized, fits, nonneg, most⟩ := holding
  obtain ⟨a, ha⟩ := isFinite_iff.mp numeric.reserve.available
  have room := fits.2
  rw [ha] at room most
  have base : g.base = fin (c + y) := by
    unfold Generator.base
    rw [committed, realized, fin_add]
  rw [base]
  refine ⟨le_trans fits.1 (fin_le.mpr (le_add_of_nonneg_right nonneg)), ?_⟩
  exact le_trans (fin_le.mpr (add_le_add_right (fin_le.mp most) c)) (fin_add_le_of_le_sub room)

end Generator

namespace RegulatedUnit

/-- The action on a generator that an action on a unit comes to: what is passed on, or an
advance. -/
def Action.onGenerator {α : Type} : Action α → Option (Generator.Action α)
  | .advance time => some (.advance time)
  | a => a.passedOn

theorem Action.eq_of_onGenerator {α : Type} {a : Action α} {b : Generator.Action α}
    (comes : a.onGenerator = some b) :
    a.passedOn = some b ∨ ∃ time, a = .advance time ∧ b = .advance time := by
  cases a with
  | advance time => exact .inr ⟨time, rfl, (Option.some.inj comes).symm⟩
  | _ => exact .inl comes

variable {K : Type} [Field K] [LinearOrder K] {u : RegulatedUnit (Exact K)}
  {h : Generator (Exact K)}

/-- The unit takes no part in regulation and is where the generator is without it. -/
structure Shadows (u : RegulatedUnit (Exact K)) (h : Generator (Exact K)) : Prop where
  same : h.SameDispatch u.generator
  sound : u.Sound
  fitted : u.Fitted
  disabled : u.enabled = false
  current : u.current = 0
  alone : h.Sound 0
  course : ∃ n l c ρ, h.OnCourse n l c ρ
  ramps : h.FiniteRamps
  within : Generator.Holding h h.Delivers h

/-- Without regulation delivered, the generator of a unit is sound by itself. -/
theorem Shadows.generator (shadows : u.Shadows h) : u.generator.Sound 0 := by
  obtain ⟨x, current, generator⟩ := shadows.sound.generator
  obtain rfl : x = 0 := fin.inj (current.symm.trans (shadows.current.trans zero_eq))
  exact generator

/-- The unit has the output of the generator. -/
theorem Shadows.output (shadows : u.Shadows h) : u.generator.output = h.output := by
  obtain ⟨c, y, carries⟩ := shadows.generator.balanced
  obtain ⟨c', y', carries'⟩ := shadows.alone.balanced
  have base := carries.base.symm.trans (shadows.same.base.trans carries'.base)
  rw [carries.output, carries'.output, add_zero, add_zero, base]

variable [IsStrictOrderedRing K]

/-- What the generator does without the unit leaves it within its limits. -/
theorem Shadows.act_generator (shadows : u.Shadows h) (limits : h.LimitsNonneg)
    {b : Generator.Action (Exact K)} (keeps : b.keepsLimits = true) (given : b.Numeric)
    (after : (h.act b).LimitsNonneg) :
    (h.act b).Sound 0 ∧ (∃ n l c ρ, (h.act b).OnCourse n l c ρ) ∧ (h.act b).FiniteRamps ∧
      Generator.Holding (h.act b) (h.act b).Delivers (h.act b) := by
  obtain ⟨n, l, c, ρ, course⟩ := shadows.course
  have numeric := shadows.alone.numeric
  obtain ⟨course', c', y, committed, realized, fits, nonneg, most⟩ :=
    shadows.within.act (.inr fun _ delivers => delivers) (numeric.delivers_leg course.called)
      course shadows.alone limits given after
  obtain ⟨envelope, available⟩ := Generator.act_keepsLimits (g := h) keeps
  refine ⟨shadows.alone.act given, course', ⟨?_, ?_⟩, c', y, committed, realized,
    fits.congr envelope available, nonneg, available ▸ most⟩
  · rw [envelope]
    exact shadows.ramps.up
  · rw [envelope]
    exact shadows.ramps.down

/-- Over an advance nothing is held back. -/
theorem Shadows.advance_current (shadows : u.Shadows h) (limits : h.LimitsNonneg) {n t : K}
    (now : h.now = fin n) (ahead : n < t) (low : h.envelope.powerMin ≤ (h.advance (fin t)).base)
    (high : (h.advance (fin t)).base ≤ h.envelope.powerMax) :
    (u.advance (fin t)).current = 0 := by
  obtain ⟨_, _, _, _, course⟩ := shadows.course
  obtain ⟨r, up⟩ := isFinite_iff.mp shadows.ramps.up
  obtain ⟨s, down⟩ := isFinite_iff.mp shadows.ramps.down
  have rampUp := limits.rampUp
  have rampDown := limits.rampDown
  rw [up, zero_eq, fin_le] at rampUp
  rw [down, zero_eq, fin_le] at rampDown
  have same := shadows.same.course
  have paced : h.Paced r s 0 :=
    ⟨shadows.alone, course.called, ⟨up, down⟩, rampUp, rampDown, limits.limitUp, course.rated⟩
  have paced' := paced.of_same shadows.generator same.toSameSettings
    (course.rated.of_same same.toSameSettings same.rate)
  have base := (shadows.same.advance (fin t)).base
  rw [← base, ← same.envelope] at low high
  obtain ⟨y, current, between, -⟩ :=
    (shadows.fitted.withholds_nothing paced'.ramps shadows.disabled).advance shadows.sound
      (shadows.current.trans zero_eq) paced' (same.now.trans now) ahead low high
  rw [Set.uIcc_self] at between
  rw [current, Set.mem_singleton_iff.mp between, zero_eq]

theorem Shadows.advance (shadows : u.Shadows h) (limits : h.LimitsNonneg) {t : K}
    (after : (h.advance (fin t)).LimitsNonneg) : (u.advance (fin t)).Shadows (h.advance (fin t)) := by
  obtain ⟨n, l, c, ρ, course⟩ := shadows.course
  have now := shadows.same.course.now.trans course.stands.now
  rcases lt_or_ge n t with ahead | past
  · have given : (Generator.Action.advance (fin t)).Numeric := by
      intro v hv
      obtain rfl := List.mem_singleton.mp hv
      exact isFinite_fin t
    obtain ⟨alone, course', ramps, within⟩ := shadows.act_generator limits rfl given after
    obtain ⟨low, high⟩ := within.base alone.numeric
    have envelope : (h.act (.advance (fin t))).envelope = h.envelope :=
      (Generator.advance_sameSettings h (fin t)).envelope
    rw [envelope] at low high
    have current := shadows.advance_current limits course.stands.now ahead low high
    have moved : (h.advance (fin t)).SameDispatch (u.advance (fin t)).generator ∧
        (u.advance (fin t)).enabled = u.enabled := by
      unfold RegulatedUnit.advance
      dsimp only
      rw [now, fin_sub, if_pos (by simpa using ahead)]
      exact ⟨(shadows.same.advance (fin t)).withOutput_right _ _, rfl⟩
    exact ⟨moved.1, shadows.sound.advance t, shadows.fitted.advance _,
      moved.2.trans shadows.disabled, current, alone, course', ramps, within⟩
  · rw [course.plotted.advance_of_past past, advance_of_past now past]
    exact shadows

/-- The unit goes on being where the generator is without it. -/
theorem Shadows.act (shadows : u.Shadows h) (limits : h.LimitsNonneg) {a : Action (Exact K)}
    {b : Generator.Action (Exact K)} (comes : a.onGenerator = some b)
    (keeps : b.keepsLimits = true) (given : b.Numeric) (after : (h.act b).LimitsNonneg) :
    (u.act a).Shadows (h.act b) := by
  rcases Action.eq_of_onGenerator comes with passed | ⟨time, rfl, rfl⟩
  · obtain ⟨alone, course, ramps, within⟩ := shadows.act_generator limits keeps given after
    obtain ⟨envelope, -⟩ := Generator.act_keepsLimits (g := u.generator) keeps
    rw [act_of_passedOn u passed]
    exact ⟨shadows.same.act b, shadows.sound.act_generator given,
      shadows.fitted.withGenerator envelope, shadows.disabled, shadows.current, alone, course,
      ramps, within⟩
  · obtain ⟨t, rfl⟩ := isFinite_iff.mp (given.times time List.mem_cons_self)
    exact shadows.advance limits after

theorem Shadows.run (shadows : u.Shadows h) (limits : h.LimitsNonneg) {as : List (Action (Exact K))}
    {bs : List (Generator.Action (Exact K))}
    (comes : List.Forall₂ (fun a b => a.onGenerator = some b) as bs)
    (admits : h.Admits Generator.LimitsNonneg
      (fun _ b => b.keepsLimits = true ∧ ∀ v ∈ b.values, isFinite v = true) bs) (n : Nat) :
    (u.run (as.take n)).Shadows (h.run (bs.take n)) := by
  induction comes generalizing u h n with
  | nil =>
    rw [List.take_nil, List.take_nil]
    exact shadows
  | cons first _ ih =>
    obtain ⟨⟨keeps, finite⟩, after, rest⟩ := admits
    cases n with
    | zero => exact shadows
    | succ n => exact ih (shadows.act limits first keeps (.of_finite finite) after) after rest n

/-- A generator at ease loses nothing by being made a unit that takes no part in regulation: after
every action, setpoints, reserve and mode included, the unit is where the generator is without it,
with its output, and no regulation is delivered. -/
theorem passive_unit_shadows (o : K) {setup : List (Generator.Action (Exact K))}
    (numeric : ∀ a ∈ setup, a.Numeric) {as : List (Action (Exact K))}
    {bs : List (Generator.Action (Exact K))}
    (comes : List.Forall₂ (fun a b => a.onGenerator = some b) as bs) (n : Nat) :
    let g := (Generator.idle (fin o)).run setup
    let u := (ofGenerator g).run (as.take n)
    let h := g.run (bs.take n)
    g.LimitsNonneg → g.FiniteRamps → g.AtEase →
      g.Admits Generator.LimitsNonneg
        (fun _ b => b.keepsLimits = true ∧ ∀ v ∈ b.values, isFinite v = true) bs →
      h.SameDispatch u.generator ∧ u.generator.output = h.output ∧ u.current = 0 := by
  intro g u h limits ramps ease admits
  have historic : g.Historic 0 := (Generator.idle_historic o).run numeric
  obtain ⟨n', l, c, ρ, course⟩ := historic.onCourse limits ease.rated
  obtain ⟨_, a, -, available, nonneg, most⟩ := historic.sound.numeric.called course.called
  have start : (ofGenerator g).Shadows g := by
    refine ⟨.refl g, ofGenerator_sound historic.sound, ofGenerator_fitted g, rfl, rfl,
      historic.sound, ⟨n', l, c, ρ, course⟩, ramps, c, 0, course.stands.committed,
      ease.unused.trans zero_eq, ease.fits course.stands, le_rfl, ?_⟩
    rw [available]
    exact fin_le.mpr (nonneg.trans most)
  have shadows := start.run limits comes admits n
  exact ⟨shadows.same, shadows.output, shadows.current⟩

/-- Wrapped in the middle of a ramp, with a reserve held that is called on and given back. -/
theorem passive_unit_shadows_midway :
    let g := (Generator.idle (fin (30 : ℚ))).run [.setPowerLimits 0 100, .setRampLimits 1 2,
      .holdReserve 20, .setKey "ramptime" 300, .setMode .midpoint, .add 900 70, .advance 400]
    let u := (ofGenerator g).run [.add 1000 130, .callReserve 15, .advance 950, .setMode .delayed,
      .receive (.useReserve 0), .addNow 10, .advance 960]
    g.rate ≠ 0 ∧ u.generator.output = 70 ∧ u.current = 0 := by
  intro g u
  have setup : ∀ a ∈ [Generator.Action.setPowerLimits (0 : Exact ℚ) 100, .setRampLimits 1 2,
      .holdReserve 20, .setKey "ramptime" 300, .setMode .midpoint, .add 900 70, .advance 400],
      ∀ v ∈ a.values, isFinite v = true := by decide +kernel
  have comes : List.Forall₂ (fun (a : Action (Exact ℚ)) b => a.onGenerator = some b)
      [.add 1000 130, .callReserve 15, .advance 950, .setMode .delayed, .receive (.useReserve 0),
        .addNow 10, .advance 960]
      [.add 1000 130, .callReserve 15, .advance 950, .setMode .delayed, .receive (.useReserve 0),
        .addNow 10, .advance 960] :=
    .cons rfl (.cons rfl (.cons rfl (.cons rfl (.cons rfl (.cons rfl (.cons rfl .nil))))))
  obtain ⟨-, output, current⟩ := passive_unit_shadows 30 (fun a ha => .of_finite (setup a ha)) comes
    7 (by decide +kernel) (by decide +kernel) ⟨⟨by decide +kernel, by decide +kernel⟩,
      by decide +kernel, by decide +kernel, by decide +kernel⟩ (by decide +kernel)
  exact ⟨by decide +kernel, output.trans (by decide +kernel), current⟩

/-- What ease takes: the rate of this generator was planned when its limits were negative, and is
beyond those it has now. The unit holds it back. -/
theorem passive_unit_holds_back :
    let g := (Generator.idle (fin (0 : ℚ))).run [.setMode .midpoint, .setKey "ramptime" 0,
      .setKey "ramp" (-1), .add 10 100, .add 20 (-1000), .advance 30, .setKey "ramp" (fin (1 / 2))]
    let u := (ofGenerator g).run [.advance 31]
    let h := g.run [.advance 31]
    g.LimitsNonneg ∧ g.FiniteRamps ∧ g.envelope.powerMin ≤ g.committed ∧
      g.committed ≤ g.envelope.powerMax - g.reserve.available ∧ g.reserve.realized = 0 ∧
      h.LimitsNonneg ∧ u.generator.output ≠ h.output ∧ u.current ≠ 0 := by
  decide +kernel

end RegulatedUnit

end UnitDispatch
