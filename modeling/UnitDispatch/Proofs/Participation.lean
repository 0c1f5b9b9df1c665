import UnitDispatch.Proofs.Sign
import UnitDispatch.Proofs.UnitEffect

/-! # Participation

A unit keeps copies of what follows from its part in regulation: the envelope it has handed its
generator, and the command held within the band. `Fitted` says that these copies are up to date.
Every action keeps a unit fitted, as long as the generator's limits are not set behind its back,
which no key does. Nothing is asked of the numbers but the rule of signs, so the running program
keeps them up to date too.
-/

namespace UnitDispatch

open Quantity

/-! ## Settings that go by a key -/

/-- A key that a unit passes on to its generator names no limit: the unit has those itself. -/
theorem UnitSetting.ofKey?_generator {key : String} {setting : GeneratorSetting}
    (found : ofKey? key = .ok (.generator setting)) : setting.isLimit = false := by
  unfold ofKey? at found
  cases own : keys.lookup key with
  | some s =>
    rw [own] at found
    have own_setting : ∀ p ∈ keys, ∀ t, p.2 ≠ .generator t := by simp [keys]
    obtain rfl : s = .generator setting := by injection found
    obtain ⟨l, r, split, -⟩ := List.lookup_eq_some_iff.mp own
    have listed : (key, generator setting) ∈ keys := by
      rw [split]
      exact List.mem_append_right l List.mem_cons_self
    exact (own_setting _ listed setting rfl).elim
  | none =>
    rw [own] at found
    have named : setting.key = key := by
      unfold GeneratorSetting.ofKey? at found
      cases first : GeneratorSetting.all.find? (·.key == key) with
      | none =>
        rw [first] at found
        cases found
      | some s =>
        rw [first] at found
        cases found
        simpa using List.find?_some first
    subst named
    cases setting <;> first | rfl | (exact absurd own (by decide))

namespace RegulatedUnit

variable {α : Type}

/-- A setting changes by a key, if an action changes one. -/
def Action.Keyed : Action α → Prop
  | .set setting _ => ∃ key, UnitSetting.ofKey? key = .ok setting
  | _ => True

/-- What is passed on sets no limit of the generator. -/
theorem Action.Keyed.spares {a : Action α} (keyed : a.Keyed) {b : Generator.Action α}
    (passed : a.passedOn = some b) : b.SparesLimits := by
  cases a with
  | set setting value =>
    obtain ⟨key, found⟩ := keyed
    cases setting <;> cases passed
    exact UnitSetting.ofKey?_generator found
  | setKey key value =>
    dsimp only [Action.passedOn] at passed
    cases found : UnitSetting.ofKey? key with
    | error e =>
      rw [found] at passed
      cases passed
    | ok setting =>
      rw [found] at passed
      cases setting <;> cases passed
      exact UnitSetting.ofKey?_generator found
  | receive message => cases message <;> cases passed <;> trivial
  | _ => cases passed <;> trivial

variable [Quantity α]

/-! ## Fitted units -/

/-- The generator has the envelope that the part in regulation leaves it, the fractions are
fractions, and the command lies within the band. -/
structure Fitted (u : RegulatedUnit α) : Prop where
  withheld : u.enabled = true → u.generator.envelope =
    { powerMin := u.physical.powerMin + u.downFraction * u.regulationBase
      powerMax := u.physical.powerMax - u.upFraction * u.regulationBase
      rampUp := u.physical.rampUp - u.upFraction * u.regulationBase / 600
      rampDown := u.physical.rampDown - u.downFraction * u.regulationBase / 600 }
  whole : u.enabled = false → u.generator.envelope = u.physical
  upFraction : 0 ≤ u.upFraction ∧ u.upFraction ≤ 1
  downFraction : 0 ≤ u.downFraction ∧ u.downFraction ≤ 1
  band : 0 ≤ u.regulationBase → -u.downFraction * u.regulationBase ≤ u.commanded ∧
    u.commanded ≤ u.upFraction * u.regulationBase

/-- What the generator has is what the unit derives. -/
theorem Fitted.envelope {u : RegulatedUnit α} (fitted : u.Fitted) :
    u.generator.envelope = u.dispatchEnvelope := by
  unfold dispatchEnvelope
  split
  next enabled => exact fitted.withheld enabled
  next disabled => exact fitted.whole (by simpa using disabled)

variable [Signed α] {u : RegulatedUnit α}

/-- A level held within the band lies in it. -/
theorem holdRegulation_mem (up : 0 ≤ u.upFraction ∧ u.upFraction ≤ 1)
    (down : 0 ≤ u.downFraction ∧ u.downFraction ≤ 1) (base : 0 ≤ u.regulationBase) (level : α) :
    -u.downFraction * u.regulationBase ≤ u.holdRegulation level ∧
      u.holdRegulation level ≤ u.upFraction * u.regulationBase := by
  have finite := u.regulationBase_isFinite Signed.isFinite_zero
  have fup := Signed.isFinite_of_mem up.1 up.2
  have fdown := Signed.isFinite_neg (Signed.isFinite_of_mem down.1 down.2)
  have low : -u.downFraction * u.regulationBase ≤ 0 :=
    Signed.mul_nonpos fdown finite (Signed.neg_nonpos down.1) base
  have high : 0 ≤ u.upFraction * u.regulationBase := Signed.mul_nonneg fup finite up.1 base
  exact Ordered.limit_mem (Signed.defined_of_le low).1 (Signed.defined_of_le high).2
    (Ordered.le_trans low high) level

omit [Signed α] in
/-- What the generator is handed is what the unit derives. -/
theorem applyEnvelope_envelope (u : RegulatedUnit α) :
    u.applyEnvelope.generator.envelope = u.dispatchEnvelope :=
  (Generator.replan_samePlant { u.generator with envelope := u.dispatchEnvelope }).envelope

/-- Handing the generator its envelope fits a unit whose fractions are fractions. -/
theorem applyEnvelope_fitted (up : 0 ≤ u.upFraction ∧ u.upFraction ≤ 1)
    (down : 0 ≤ u.downFraction ∧ u.downFraction ≤ 1) : u.applyEnvelope.Fitted where
  withheld := by
    intro enabled
    have withheld : u.dispatchEnvelope = u.physical.without (u.upFraction * u.regulationBase)
        (u.downFraction * u.regulationBase) := if_pos enabled
    exact u.applyEnvelope_envelope.trans withheld
  whole := by
    intro disabled
    have whole : u.dispatchEnvelope = u.physical := if_neg (ne_true_of_eq_false disabled)
    exact u.applyEnvelope_envelope.trans whole
  upFraction := up
  downFraction := down
  band base := holdRegulation_mem up down base u.commanded

omit [Signed α] in
/-- A generator that goes on in the same envelope. -/
theorem Fitted.withGenerator (fitted : u.Fitted) {g : Generator α}
    (same : g.envelope = u.generator.envelope) : Fitted { u with generator := g } where
  withheld enabled := same.trans (fitted.withheld enabled)
  whole disabled := same.trans (fitted.whole disabled)
  upFraction := fitted.upFraction
  downFraction := fitted.downFraction
  band := fitted.band

theorem Fitted.regulate (fitted : u.Fitted) (level : α) : (u.regulate level).Fitted :=
  ⟨fitted.withheld, fitted.whole, fitted.upFraction, fitted.downFraction,
    fun base => holdRegulation_mem fitted.upFraction fitted.downFraction base level⟩

theorem Fitted.startWith (fitted : u.Fitted) (time level : α) :
    (u.startWith time level).Fitted := by
  have same := (Generator.start_sameSettings u.generator time).envelope
  have commanded := (fitted.withGenerator same).regulate level
  exact ⟨commanded.withheld, commanded.whole, commanded.upFraction, commanded.downFraction,
    commanded.band⟩

omit [Signed α] in
theorem Fitted.advance (fitted : u.Fitted) (time : α) : (u.advance time).Fitted := by
  unfold RegulatedUnit.advance
  dsimp only
  split
  · have moved := fitted.withGenerator (Generator.advance_sameSettings u.generator time).envelope
    exact ⟨moved.withheld, moved.whole, moved.upFraction, moved.downFraction, moved.band⟩
  · exact fitted

/-- A fraction that an action leaves or clamps is a fraction. -/
theorem fraction_mem {old new : α} {values : List α} (fraction : 0 ≤ old ∧ old ≤ 1)
    (defined : ∀ v ∈ values, isNaN v = false)
    (changed : new = old ∨ ∃ x ∈ old :: values, new = clamp 0 1 x) : 0 ≤ new ∧ new ≤ 1 := by
  rcases changed with rfl | ⟨x, hx, rfl⟩
  · exact fraction
  · have one : isNaN (1 : α) = false := (Signed.defined_of_le Signed.zero_le_one).2
    refine Ordered.clamp_mem Ordered.defined_zero one Signed.zero_le_one ?_
    rcases List.mem_cons.mp hx with rfl | given
    · exact (Signed.defined_of_le fraction.2).1
    · exact defined x given

/-- Every action keeps a unit fitted. -/
theorem Fitted.act (fitted : u.Fitted) {a : Action α} (keyed : a.Keyed)
    (defined : ∀ v ∈ a.values, isNaN v = false) : (u.act a).Fitted := by
  have effect := act_effect u a
  generalize u.act a = u' at effect ⊢
  cases effect with
  | pass passed =>
    exact fitted.withGenerator (Generator.act_envelope u.generator (keyed.spares passed))
  | regulate => exact fitted.regulate _
  | startWith => exact fitted.startWith _ _
  | advance => exact fitted.advance _
  | refit refits =>
    exact applyEnvelope_fitted (fraction_mem fitted.upFraction defined refits.upFraction)
      (fraction_mem fitted.downFraction defined refits.downFraction)
  | refused => exact fitted

theorem Fitted.run (fitted : u.Fitted) {actions : List (Action α)}
    (keyed : ∀ a ∈ actions, a.Keyed)
    (defined : ∀ a ∈ actions, ∀ v ∈ a.values, isNaN v = false) : (u.run actions).Fitted := by
  induction actions generalizing u with
  | nil => exact fitted
  | cons a as ih =>
    refine ih (fitted.act (keyed a List.mem_cons_self) (defined a List.mem_cons_self)) ?_ ?_
    · intro b hb
      exact keyed b (List.mem_cons_of_mem a hb)
    · intro b hb
      exact defined b (List.mem_cons_of_mem a hb)

/-- A unit that does not take part has its generator's own envelope. -/
theorem ofGenerator_fitted (g : Generator α) : (ofGenerator g).Fitted := by
  have zero : (0 : α) ≤ 0 := Ordered.le_refl Ordered.defined_zero
  have up : 0 ≤ (ofGenerator g).upFraction ∧ (ofGenerator g).upFraction ≤ 1 :=
    ⟨zero, Signed.zero_le_one⟩
  refine ⟨nofun, fun _ => rfl, up, up, ?_⟩
  intro base
  have finite := (ofGenerator g).regulationBase_isFinite Signed.isFinite_zero
  exact ⟨Signed.mul_nonpos (Signed.isFinite_neg Signed.isFinite_zero) finite
      (Signed.neg_nonpos zero) base,
    Signed.mul_nonneg Signed.isFinite_zero finite zero base⟩

/-- Whatever is done to a unit, its generator dispatches in the envelope that the part it takes in
regulation leaves of its limits, and its command stays within the band of that part. -/
theorem run_fitted (g : Generator α) {actions : List (Action α)}
    (keyed : ∀ a ∈ actions, a.Keyed)
    (defined : ∀ a ∈ actions, ∀ v ∈ a.values, isNaN v = false) :
    ((ofGenerator g).run actions).Fitted :=
  (ofGenerator_fitted g).run keyed defined

/-- In doubles: a command at the end of the band, which a lower rating, a wider fraction and an
unbounded limit then move. -/
theorem run_fitted_doubles :
    ((ofGenerator (Generator.idle (50 : Float))).run
      [.set .max 100, .set .ramp 2, .participate true (some 0.1) (some 7), .regulate (-1000),
        .setKey "rating" 60, .setKey "regfrac" 0.25, .set .rating (1 / 0),
        .setKey "max" (1 / 0), .advance 60]).Fitted := by
  refine run_fitted _ ?_ ?_
  · simp only [List.forall_mem_cons]
    exact ⟨⟨"max", rfl⟩, ⟨"ramp", rfl⟩, trivial, trivial, trivial, trivial, ⟨"base", rfl⟩, trivial,
      trivial, nofun⟩
  · decide +kernel

end RegulatedUnit

end UnitDispatch
