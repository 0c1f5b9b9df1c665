import UnitDispatch.Proofs.Participation
import UnitDispatch.Proofs.Slope

/-! # Tracking a command

What regulation withholds from the generator is what regulation needs. The base moves no faster than
the generator's ramp limits and ends within its power limits, so what is left of the physical
envelope carries regulation toward its goal, never past it, and within the window all the way.
-/

namespace UnitDispatch

open Quantity Exact

/-! ## What is called of the reserve -/

section Called

variable {α : Type} [Quantity α] [Signed α]

namespace Generator

/-- Nothing is called of an idle generator. -/
theorem idle_called (output : α) : (idle output).reserve.Called := Reserve.empty_called

/-- No action has more called for than is available. -/
theorem act_called {g : Generator α} (called : g.reserve.Called) (a : Action α) :
    (g.act a).reserve.Called := by
  rcases act_settings g a with same | ⟨h, change, planned⟩
  · exact same.called called
  · rw [planned]
    exact (replan_sameSettings h).called (configure_called called change)

end Generator

theorem RegulatedUnit.act_called {u : RegulatedUnit α} (called : u.generator.reserve.Called)
    (a : Action α) : (u.act a).generator.reserve.Called := by
  have effect := act_effect u a
  generalize u.act a = v at effect ⊢
  cases effect with
  | pass => exact Generator.act_called called _
  | regulate | refused => exact called
  | @startWith time => exact (Generator.start_sameSettings u.generator time).called called
  | @advance time =>
    unfold RegulatedUnit.advance
    dsimp only
    split
    · exact (Generator.advance_sameSettings u.generator time).called called
    · exact called
  | refit refits =>
    refine (Generator.replan_sameSettings _).called ?_
    show Reserve.Called (RegulatedUnit.generator _).reserve
    rw [refits.generator]
    exact called

end Called

namespace RegulatedUnit

variable {K : Type} [Field K] [LinearOrder K] {u : RegulatedUnit (Exact K)}

/-! ## What is withheld -/

/-- What a unit withholds: `p` upward and `q` downward beside a generator with the ramp limits `r`
and `s`, which is room for the goal `m`. -/
structure Withholds (u : RegulatedUnit (Exact K)) (p q r s m : K) : Prop where
  up : 0 ≤ p
  down : 0 ≤ q
  goal : u.regulationGoal = fin m
  within : m ∈ Set.Icc (-q) p
  rampUp : u.physical.rampUp = fin (r + p / 600)
  rampDown : u.physical.rampDown = fin (s + q / 600)
  low : ∀ b, u.generator.envelope.powerMin ≤ fin b → u.physical.powerMin ≤ fin (b - q)
  high : ∀ b, fin b ≤ u.generator.envelope.powerMax → fin (b + p) ≤ u.physical.powerMax

variable [IsStrictOrderedRing K] {p q r s m n t x : K}

omit [IsStrictOrderedRing K] in
/-- A unit that takes no part in regulation withholds nothing. -/
theorem Fitted.withholds_nothing (fitted : u.Fitted) (ramps : u.generator.Ramps r s)
    (disabled : u.enabled = false) : u.Withholds 0 0 r s 0 := by
  have whole := fitted.whole disabled
  refine ⟨le_rfl, le_rfl, ?_, by simp, ?_, ?_, ?_, ?_⟩
  · unfold regulationGoal
    rw [if_neg (ne_true_of_eq_false disabled), zero_eq]
  · rw [← whole, ramps.up, zero_div, add_zero]
  · rw [← whole, ramps.down, zero_div, add_zero]
  · intro b low
    rwa [← whole, sub_zero]
  · intro b high
    rwa [← whole, add_zero]

/-- A unit that takes part withholds the ends of its band. -/
theorem Fitted.withholds_band (fitted : u.Fitted) (sound : u.Sound)
    (ramps : u.generator.Ramps r s) (enabled : u.enabled = true) (base : 0 ≤ u.regulationBase) :
    ∃ p q m, u.Withholds p q r s m ∧ u.upFraction * u.regulationBase = fin p ∧
      -u.downFraction * u.regulationBase = fin (-q) := by
  have withheld := fitted.withheld enabled
  obtain ⟨least, most⟩ := fitted.band base
  obtain ⟨a, b, B, ha, hb, hB⟩ := sound.band
  obtain ⟨m, hm⟩ := isFinite_iff.mp sound.commanded
  have fraction {y : K} (h : 0 ≤ (fin y : Exact K)) : 0 ≤ y := by simpa using h
  have up := mul_nonneg (fraction (ha ▸ fitted.upFraction.1)) (fraction (hB ▸ base))
  have down := mul_nonneg (fraction (hb ▸ fitted.downFraction.1)) (fraction (hB ▸ base))
  have share (y : K) : (fin y / 600 : Exact K) = fin (y / 600) := by
    rw [show (600 : Exact K) = fin 600 from window_eq]
    exact fin_div y (by norm_num)
  have upward : u.upFraction * u.regulationBase = fin (a * B) := by rw [ha, hB, fin_mul]
  have downward : -u.downFraction * u.regulationBase = fin (-(b * B)) := by
    rw [hb, hB, neg_fin, fin_mul, neg_mul]
  rw [upward, hm, fin_le] at most
  rw [downward, hm, fin_le] at least
  rw [upward, hb, hB, fin_mul, share, share] at withheld
  have rampUp := ramps.up
  have rampDown := ramps.down
  rw [withheld] at rampUp rampDown
  refine ⟨a * B, b * B, m, ⟨up, down, ?_, ⟨least, most⟩, eq_of_sub_fin rampUp,
    eq_of_sub_fin rampDown, ?_, ?_⟩, upward, downward⟩
  · unfold regulationGoal
    rw [if_pos enabled, hm]
  · intro c low
    rw [withheld] at low
    exact le_fin_sub_of_add_le low
  · intro c high
    rw [withheld] at high
    exact fin_add_le_of_le_sub high

/-- A unit that is fitted withholds what its part in regulation asks for. -/
theorem Fitted.withholds (fitted : u.Fitted) (sound : u.Sound) (ramps : u.generator.Ramps r s)
    (base : u.enabled = true → 0 ≤ u.regulationBase) :
    ∃ p q m, u.Withholds p q r s m ∧ (u.enabled = true →
      u.upFraction * u.regulationBase = fin p ∧ -u.downFraction * u.regulationBase = fin (-q)) := by
  cases enabled : u.enabled with
  | false => exact ⟨0, 0, 0, fitted.withholds_nothing ramps enabled, nofun⟩
  | true =>
    obtain ⟨p, q, m, withholds, band⟩ :=
      fitted.withholds_band sound ramps enabled (base enabled)
    exact ⟨p, q, m, withholds, fun _ => band⟩

/-- Beside a base that keeps within its ramp limits, regulation gets nearer to its goal, and to the
goal itself if what is missing can be delivered within the window. -/
theorem Withholds.regulationRate (withholds : u.Withholds p q r s m) (current : u.current = fin x)
    {slope δ : K} (least : -s ≤ slope) (most : slope ≤ r) (span : 0 < δ) :
    ∃ v, u.regulationRate (fin slope) (fin δ) = fin v ∧
      (v - slope) * δ ∈ Set.uIcc 0 (m - x) ∧
      (600 ≤ δ → m - x ∈ Set.Icc (-q) p → (v - slope) * δ = m - x) := by
  have down : -u.physical.rampDown ≤ fin slope := by
    rw [withholds.rampDown, neg_fin, fin_le]
    linarith [div_nonneg withholds.down (by norm_num : (0 : K) ≤ 600)]
  have up : fin slope ≤ u.physical.rampUp := by
    rw [withholds.rampUp, fin_le]
    linarith [div_nonneg withholds.up (by norm_num : (0 : K) ≤ 600)]
  obtain ⟨v, held, -, -, toward⟩ := limit_toward down up ((m - x) / δ + slope)
  refine ⟨v, ?_, ?_, ?_⟩
  · unfold RegulatedUnit.regulationRate Envelope.holdRate
    rw [withholds.goal, current, fin_sub, fin_div _ span.ne', fin_add]
    exact held
  · have part := sub_mem_uIcc toward slope
    rw [sub_self, add_sub_cancel_right] at part
    exact mul_mem_uIcc_of_div part span.ne'
  · intro window missing
    have share {a b : K} (h : 0 ≤ b) (le : a ≤ b) : a / δ ≤ b / 600 :=
      (div_le_div_of_nonneg_right le span.le).trans
        (div_le_div_of_nonneg_left h (by norm_num) window)
    have whole : limit (-u.physical.rampDown) u.physical.rampUp (fin ((m - x) / δ + slope)) =
        fin ((m - x) / δ + slope) := by
      refine limit_eq_self ?_ ?_
      · rw [withholds.rampDown, neg_fin, fin_le]
        have least' := share withholds.down (neg_le.mp missing.1)
        rw [neg_div] at least'
        linarith
      · rw [withholds.rampUp, fin_le]
        linarith [share withholds.up missing.2]
    obtain rfl : (m - x) / δ + slope = v := fin.inj (whole.symm.trans held)
    rw [add_sub_cancel_right, div_mul_cancel₀ _ span.ne']

/-- Over a base within its power limits, the physical limits move regulation toward its goal, if at
all. -/
theorem Withholds.holdPower (withholds : u.Withholds p q r s m) {b : K}
    (low : u.generator.envelope.powerMin ≤ fin b) (high : fin b ≤ u.generator.envelope.powerMax)
    (y : K) : ∃ w, u.physical.holdPower (fin (b + y)) = fin (b + w) ∧ w ∈ Set.uIcc m y := by
  have least : u.physical.powerMin ≤ fin (b + m) := by
    refine le_trans (withholds.low b low) (fin_le.mpr ?_)
    linarith [withholds.within.1]
  have most : fin (b + m) ≤ u.physical.powerMax := by
    refine le_trans (fin_le.mpr ?_) (withholds.high b high)
    linarith [withholds.within.2]
  obtain ⟨w, held, -, -, toward⟩ := limit_toward least most (b + y)
  have part := sub_mem_uIcc toward b
  rw [add_sub_cancel_left, add_sub_cancel_left] at part
  exact ⟨w - b, by rw [add_sub_cancel]; exact held, part⟩

/-- An advance brings regulation nearer to its goal, and to the goal itself if what is missing can
be delivered within the window. -/
theorem Withholds.advance (withholds : u.Withholds p q r s m) (sound : u.Sound)
    (current : u.current = fin x) (paced : u.generator.Paced r s x) (now : u.generator.now = fin n)
    (ahead : n < t) (low : u.generator.envelope.powerMin ≤ (u.generator.advance (fin t)).base)
    (high : (u.generator.advance (fin t)).base ≤ u.generator.envelope.powerMax) :
    ∃ y, (u.advance (fin t)).current = fin y ∧ y ∈ Set.uIcc x m ∧
      (600 ≤ t - n → m - x ∈ Set.Icc (-q) p → y = m) := by
  obtain ⟨c, z, carries⟩ := paced.sound.balanced
  obtain ⟨⟨n', t', b, b', now', later, base, base', fall, rise⟩, reached⟩ := paced.advance now ahead
  obtain rfl : n' = n := fin.inj (now'.symm.trans now)
  obtain rfl : t' = t := fin.inj (later.symm.trans reached)
  obtain rfl : b = c + z := fin.inj (base.symm.trans carries.base)
  have span : 0 < t' - n' := sub_pos.mpr ahead
  obtain ⟨v, w, rate, held, eq⟩ := sound.advance_eq now ahead base base' carries.output
  obtain ⟨v', rate', between, delivered⟩ := withholds.regulationRate current
    ((le_div_iff₀ span).mpr fall) ((div_le_iff₀ span).mpr rise) span
  obtain rfl : v' = v := fin.inj (rate'.symm.trans rate)
  rw [base'] at low high
  have carried : (v' - (b' - (c + z)) / (t' - n')) * (t' - n') =
      v' * (t' - n') - (b' - (c + z)) := by
    rw [sub_mul, div_mul_cancel₀ _ span.ne']
  rw [carried] at between delivered
  obtain ⟨y, held', toward⟩ := withholds.holdPower low high (x + (v' * (t' - n') - (b' - (c + z))))
  have moved : c + z + x + v' * (t' - n') = b' + (x + (v' * (t' - n') - (b' - (c + z)))) := by ring
  rw [moved, held'] at held
  obtain rfl : b' + y = w := fin.inj held
  refine ⟨y, ?_, ?_, ?_⟩
  · rw [eq, add_sub_cancel_left]
  · have nearer : x + (v' * (t' - n') - (b' - (c + z))) ∈ Set.uIcc x m := by
      have shifted := sub_mem_uIcc between (-x)
      simp only [sub_neg_eq_add, zero_add, sub_add_cancel] at shifted
      rwa [add_comm]
    exact Set.uIcc_subset_uIcc Set.right_mem_uIcc nearer toward
  · intro window missing
    rw [delivered window missing, add_sub_cancel, Set.uIcc_self] at toward
    exact toward

/-! ## Every run -/

theorem run_called (called : u.generator.reserve.Called) (as : List (Action (Exact K))) :
    (u.run as).generator.reserve.Called :=
  run_induction (P := fun u => u.generator.reserve.Called)
    (fun _ a called => act_called called a) called as

/-- Over an advance, regulation gets no further from its goal and does not pass it; given the window
for what is missing, it is there. -/
@[mk_iff] structure Tracks {α : Type} [Quantity α] (u : RegulatedUnit α) (time : α) : Prop where
  between : u.current ≤ (u.advance time).current ∧ (u.advance time).current ≤ u.regulationGoal ∨
    u.regulationGoal ≤ (u.advance time).current ∧ (u.advance time).current ≤ u.current
  arrives : u.enabled = true → Envelope.regulationWindow ≤ time - u.generator.now →
    -u.downFraction * u.regulationBase ≤ u.commanded - u.current →
    u.commanded - u.current ≤ u.upFraction * u.regulationBase →
    (u.advance time).current = u.commanded

instance {α : Type} [Quantity α] [DecidableEq α] (u : RegulatedUnit α) (time : α) :
    Decidable (u.Tracks time) :=
  decidable_of_iff' _ (tracks_iff u time)

/-- The generator can ramp both ways, and ends an advance within its power limits. -/
@[mk_iff] structure Headroom {α : Type} [Quantity α] (u : RegulatedUnit α) (time : α) : Prop where
  finite : u.generator.FiniteRamps
  up : 0 ≤ u.generator.envelope.rampUp
  down : 0 ≤ u.generator.envelope.rampDown
  limitUp : 0 ≤ u.generator.rampLimitUp
  ahead : 0 < time - u.generator.now
  low : u.generator.envelope.powerMin ≤ (u.advance time).generator.base
  high : (u.advance time).generator.base ≤ u.generator.envelope.powerMax

instance {α : Type} [Quantity α] (u : RegulatedUnit α) (time : α) : Decidable (u.Headroom time) :=
  decidable_of_iff' _ (headroom_iff u time)

/-- A unit that is fitted tracks its command, whatever its generator has in hand. -/
theorem Fitted.tracks (fitted : u.Fitted) (sound : u.Sound) (called : u.generator.reserve.Called)
    (rated : u.generator.Rated) (base : u.enabled = true → 0 ≤ u.regulationBase)
    (headroom : u.Headroom (fin t)) : u.Tracks (fin t) := by
  obtain ⟨x, current, generator⟩ := sound.generator
  obtain ⟨n, _, _, _, stands⟩ := generator.regular.stands
  obtain ⟨r, rampUp⟩ := isFinite_iff.mp headroom.finite.up
  obtain ⟨s, rampDown⟩ := isFinite_iff.mp headroom.finite.down
  have up := headroom.up
  have down := headroom.down
  have ahead := headroom.ahead
  rw [rampUp, zero_eq, fin_le] at up
  rw [rampDown, zero_eq, fin_le] at down
  rw [stands.now, fin_sub, zero_eq, fin_lt, sub_pos] at ahead
  have paced : u.generator.Paced r s x :=
    ⟨generator, called, ⟨rampUp, rampDown⟩, up, down, headroom.limitUp, rated⟩
  have moved : (u.advance (fin t)).generator.base = (u.generator.advance (fin t)).base := by
    unfold RegulatedUnit.advance
    dsimp only
    rw [stands.now, fin_sub, if_pos (by simpa using ahead)]
    rfl
  have low := headroom.low
  have high := headroom.high
  rw [moved] at low high
  obtain ⟨p, q, m, withholds, band⟩ := fitted.withholds sound ⟨rampUp, rampDown⟩ base
  obtain ⟨y, current', between, delivered⟩ :=
    withholds.advance sound current paced stands.now ahead low high
  constructor
  · rw [current, current', withholds.goal, fin_le, fin_le, fin_le, fin_le]
    exact Set.mem_uIcc.mp between
  · intro enabled window least most
    have goal : u.commanded = fin m := by
      rw [← withholds.goal]
      exact (if_pos enabled).symm
    rw [window_eq, stands.now, fin_sub, fin_le] at window
    rw [goal, current, fin_sub, (band enabled).2, fin_le] at least
    rw [goal, current, fin_sub, (band enabled).1, fin_le] at most
    rw [current', delivered window ⟨least, most⟩, goal]

/-- Regulation tracks its command, whatever has been done to the generator and to the unit, as long
as the limits that the generator has are those handed to it, its rate keeps to them, and the base of
the unit's part in regulation is not negative. -/
theorem run_tracks (o : K) {setup : List (Generator.Action (Exact K))}
    (numeric : ∀ a ∈ setup, a.Numeric) {actions : List (Action (Exact K))}
    (numeric' : ∀ a ∈ actions, a.Numeric) (keyed : ∀ a ∈ actions, a.Keyed)
    (defined : ∀ a ∈ actions, ∀ v ∈ a.values, isNaN v = false) {t : K} :
    let u := (ofGenerator ((Generator.idle (fin o)).run setup)).run actions
    u.generator.Rated → (u.enabled = true → 0 ≤ u.regulationBase) → u.Headroom (fin t) →
      u.Tracks (fin t) := by
  intro u rated base headroom
  have called := Generator.run_induction (P := fun g => g.reserve.Called)
    (fun _ a called => Generator.act_called called a) (Generator.idle_called (fin o)) setup
  have sound := (Generator.idle_sound o).run_numeric numeric
  exact ((ofGenerator_fitted _).run keyed defined).tracks
    ((ofGenerator_sound sound).run_numeric numeric') (run_called called actions) rated base headroom

/-- The base rises at its ramp limit throughout, and regulation has all of the window to go. -/
theorem run_tracks_at_limit :
    let u := (ofGenerator ((Generator.idle (fin (40 : ℚ))).run [.setPowerLimits 0 100])).run
      [.participate true (some (fin (1 / 10))) none, .setKey "ramp" (fin (1 / 20)),
        .setKey "rating" 60, .startWith 0 (-4), .add 700 90, .advance 30, .regulate 2]
    u.generator.rate = u.generator.envelope.rampUp ∧ u.current = -4 ∧
      (u.advance (fin 630)).current = 2 := by
  intro u
  have given : ∀ a ∈ [Action.participate true (some (fin (1 / 10 : ℚ))) none,
      .setKey "ramp" (fin (1 / 20)), .setKey "rating" 60, .startWith 0 (-4), .add 700 90,
      .advance 30, .regulate 2], ∀ v ∈ a.values, isFinite v = true := by decide +kernel
  have setup : ∀ a ∈ [Generator.Action.setPowerLimits (0 : Exact ℚ) 100],
      ∀ v ∈ a.values, isFinite v = true := by decide +kernel
  have tracks : u.Tracks (fin 630) := by
    refine run_tracks 40 (fun a ha => .of_finite (setup a ha)) (fun a ha => .of_finite (given a ha))
      ?_ (by decide +kernel) ⟨by decide +kernel, by decide +kernel⟩ (by decide +kernel)
      (by decide +kernel)
    simp only [List.forall_mem_cons]
    exact ⟨trivial, trivial, trivial, trivial, trivial, trivial, trivial, nofun⟩
  have arrived := tracks.arrives (by decide +kernel) (by decide +kernel) (by decide +kernel)
    (by decide +kernel)
  exact ⟨by decide +kernel, by decide +kernel, arrived.trans (by decide +kernel)⟩

/-- What tracking takes: the rating of the first unit is negative, the second has the rate that
negative limits left its generator with, and the generator of the third has been given a limit of
its own. -/
theorem strays :
    let rated := (ofGenerator ((Generator.idle (fin (90 : ℚ))).run
      [.setPowerLimits 0 100, .setRampLimits 1 1])).run
        [.setKey "rating" (-100), .participate true (some (fin (1 / 10))) none, .startWith 0 10,
          .add 10 95]
    let falling := (ofGenerator ((Generator.idle (fin (0 : ℚ))).run
      [.setMode .midpoint, .setKey "ramptime" 0, .setKey "ramp" (-1), .add 10 100,
        .add 20 (-1000), .advance 30])).run [.setKey "ramp" (fin (1 / 2))]
    let widened := (ofGenerator ((Generator.idle (fin (100 : ℚ))).run
      [.setPowerLimits 0 100, .setRampLimits 1 1])).run [.set (.generator .max) 120, .add 10 110]
    (rated.Headroom 10 ∧ ¬ rated.Tracks 10) ∧ (falling.Headroom 31 ∧ ¬ falling.Tracks 31) ∧
      (widened.Headroom 10 ∧ ¬ widened.Tracks 10) := by
  decide +kernel

end RegulatedUnit

end UnitDispatch
