import UnitDispatch.Proofs.Numeric
import UnitDispatch.RegulatedUnit.Action

/-! # The power balance of a regulated unit

What a regulated unit lays over its generator is the regulation it delivers. Every action with
numbers keeps the output the sum of committed power, realized reserve and that regulation, also
where the output runs into a physical limit.
-/

namespace UnitDispatch

open Quantity Exact

/-- The output is committed power and realized reserve, and a number. -/
def Generator.InBalance {α : Type} [Quantity α] (g : Generator α) : Prop :=
  isFinite g.output = true ∧ g.output = g.committed + g.reserve.realized

/-- A bare generator has nothing laid over it. -/
theorem Generator.Sound.inBalance {K : Type} [Field K] [LinearOrder K] {g : Generator (Exact K)}
    (sound : g.Sound 0) : g.InBalance := by
  obtain ⟨c, y, carries⟩ := sound.balanced
  unfold InBalance
  rw [carries.output, carries.committed, carries.realized, add_zero]
  exact ⟨isFinite_fin _, rfl⟩

/-- A value that a setting of a unit may have: a limit may be lifted, a fraction is defined, and
any rating will do. -/
def UnitSetting.Takes {K : Type} [Field K] [LinearOrder K] (value : Exact K) : UnitSetting → Prop
  | .min => value < posInf
  | .max | .ramp | .rampUp | .rampDown => negInf < value
  | .rating | .enabled => True
  | .fraction | .upFraction | .downFraction => isNaN value = false
  | .generator setting => setting.Takes value

theorem UnitSetting.takes_of_isFinite {K : Type} [Field K] [LinearOrder K] {value : Exact K}
    (finite : isFinite value = true) (setting : UnitSetting) : setting.Takes value := by
  cases setting with
  | generator setting => exact setting.takes_of_isFinite finite
  | _ =>
    obtain ⟨y, rfl⟩ := isFinite_iff.mp finite
    simp [Takes]

namespace RegulatedUnit

/-- The output is committed power, realized reserve and regulation, and a number. -/
def InBalance {α : Type} [Quantity α] (u : RegulatedUnit α) : Prop :=
  isFinite u.generator.output = true ∧
    u.generator.output = u.generator.committed + u.generator.reserve.realized + u.current

/-- The numbers an action comes with. -/
def Action.values {α : Type} : Action α → List α
  | .start value | .advance value | .addNow value | .callReserve value | .regulate value
  | .set _ value | .setKey _ value => [value]
  | .startWith first second | .add first second => [first, second]
  | .addAll times powers => times ++ powers
  | .participate _ up down => up.toList ++ down.toList
  | .receive message => message.values
  | .teardown | .clear | .setMode _ | .setText _ _ => []

variable {K : Type} [Field K] [LinearOrder K] {u : RegulatedUnit (Exact K)}

/-- The numbers an action comes with are finite, lift a limit or are held to a fraction. -/
def Action.Numeric : Action (Exact K) → Prop
  | .set setting value => setting.Takes value
  | .setKey key value => ∀ setting, UnitSetting.ofKey? key = .ok setting → setting.Takes value
  | .participate _ up down => (∀ v ∈ up, isNaN v = false) ∧ ∀ v ∈ down, isNaN v = false
  | a => ∀ v ∈ a.values, isFinite v = true

theorem Action.Numeric.of_finite {a : Action (Exact K)}
    (finite : ∀ v ∈ a.values, isFinite v = true) : a.Numeric := by
  have defined {v : Exact K} (hv : v ∈ a.values) : isNaN v = false := by
    obtain ⟨y, rfl⟩ := isFinite_iff.mp (finite v hv)
    exact isNaN_fin y
  cases a with
  | set setting value => exact setting.takes_of_isFinite (finite value List.mem_cons_self)
  | setKey key value =>
    exact fun setting _ => setting.takes_of_isFinite (finite value List.mem_cons_self)
  | participate active up down =>
    exact ⟨fun v hv => defined (List.mem_append_left _ (Option.mem_toList.mpr hv)),
      fun v hv => defined (List.mem_append_right _ (Option.mem_toList.mpr hv))⟩
  | _ => exact finite

/-- Settings are numbers, and what is laid over the generator is the regulation delivered. -/
structure Sound (u : RegulatedUnit (Exact K)) : Prop where
  generator : ∃ x, u.current = fin x ∧ u.generator.Sound x
  physical : u.physical.Numeric
  commanded : isFinite u.commanded = true
  upFraction : isFinite u.upFraction = true
  downFraction : isFinite u.downFraction = true

theorem Sound.withPhysical (sound : u.Sound) {physical : Envelope (Exact K)}
    (numeric : physical.Numeric) : Sound { u with physical } :=
  ⟨sound.generator, numeric, sound.commanded, sound.upFraction, sound.downFraction⟩

theorem Sound.inBalance (sound : u.Sound) : u.InBalance := by
  obtain ⟨x, current, generator⟩ := sound.generator
  obtain ⟨c, y, carries⟩ := generator.balanced
  unfold InBalance
  rw [carries.output, carries.committed, carries.realized, current]
  exact ⟨isFinite_fin _, rfl⟩

/-! ## The band of regulation -/

theorem window_eq : (Envelope.regulationWindow : Exact K) = fin 600 :=
  (ofNat_fin 600).trans (congrArg fin Nat.cast_ofNat)

/-- The base is a number, whatever the rating is. -/
theorem regulationBase_isFinite {α : Type} [Quantity α] (zero : isFinite (0 : α) = true)
    (u : RegulatedUnit α) : isFinite u.regulationBase = true := by
  unfold regulationBase
  split
  next rated => exact rated
  next =>
    split
    next limited => exact limited
    next => exact zero

/-- Both ends of the band are numbers. -/
theorem Sound.band (sound : u.Sound) : ∃ up down base, u.upFraction = fin up ∧
    u.downFraction = fin down ∧ u.regulationBase = fin base := by
  obtain ⟨up, hup⟩ := isFinite_iff.mp sound.upFraction
  obtain ⟨down, hdown⟩ := isFinite_iff.mp sound.downFraction
  obtain ⟨base, hbase⟩ := isFinite_iff.mp
    (u.regulationBase_isFinite (isFinite_iff.mpr ⟨0, zero_eq⟩))
  exact ⟨up, down, base, hup, hdown, hbase⟩

theorem Sound.holdRegulation (sound : u.Sound) {level : Exact K} (finite : isFinite level = true) :
    isFinite (u.holdRegulation level) = true := by
  obtain ⟨up, down, base, hup, hdown, hbase⟩ := sound.band
  obtain ⟨y, rfl⟩ := isFinite_iff.mp finite
  unfold RegulatedUnit.holdRegulation
  rw [hup, hdown, hbase]
  exact limit_isFinite (fin_lt_posInf _) (negInf_lt_fin _) y

theorem Sound.dispatchEnvelope [IsStrictOrderedRing K] (sound : u.Sound) :
    u.dispatchEnvelope.Numeric := by
  obtain ⟨up, down, base, hup, hdown, hbase⟩ := sound.band
  have window (x : K) : ∃ y, (fin x / Envelope.regulationWindow : Exact K) = fin y := by
    rw [window_eq]
    exact ⟨_, fin_div x (by norm_num)⟩
  unfold RegulatedUnit.dispatchEnvelope
  split
  · rw [hup, hdown, hbase]
    obtain ⟨y, hy⟩ := window (up * base)
    obtain ⟨z, hz⟩ := window (down * base)
    refine ⟨add_lt_posInf sound.physical.powerMin _, negInf_lt_sub sound.physical.powerMax _,
      ?_, ?_⟩
    · show negInf < u.physical.rampUp - fin up * fin base / Envelope.regulationWindow
      rw [fin_mul, hy]
      exact negInf_lt_sub sound.physical.rampUp y
    · show negInf < u.physical.rampDown - fin down * fin base / Envelope.regulationWindow
      rw [fin_mul, hz]
      exact negInf_lt_sub sound.physical.rampDown z
  · exact sound.physical

theorem clamp_isFinite {fraction : Exact K} (defined : isNaN fraction = false) :
    isFinite (clamp 0 1 fraction) = true := by
  unfold clamp
  rw [zero_eq, one_eq]
  cases fraction with
  | fin x => split_ifs <;> exact isFinite_fin _
  | posInf =>
    rw [if_neg (not_posInf_lt _), if_pos (fin_lt_posInf 1)]
    exact isFinite_fin 1
  | negInf =>
    rw [if_pos (negInf_lt_fin 0)]
    exact isFinite_fin 0
  | nan => cases defined

theorem Sound.regulationRate (sound : u.Sound) (slope : K) {dt : K} (ahead : dt ≠ 0) :
    ∃ v, u.regulationRate (fin slope) (fin dt) = fin v := by
  obtain ⟨x, current, -⟩ := sound.generator
  have goal : ∃ y, u.regulationGoal = fin y := by
    unfold regulationGoal
    split
    · exact isFinite_iff.mp sound.commanded
    · exact ⟨0, zero_eq⟩
  obtain ⟨y, goal⟩ := goal
  unfold RegulatedUnit.regulationRate Envelope.holdRate
  rw [goal, current, fin_sub, fin_div _ ahead, fin_add]
  exact isFinite_iff.mp
    (limit_isFinite (neg_lt_posInf sound.physical.rampDown) sound.physical.rampUp _)

/-! ## What actions keep -/

/-- An output of its own for a generator that is sound. -/
theorem redraw_sound {g : Generator (Exact K)} {x z : K} (sound : g.Sound x) (slope : Exact K)
    {output : Exact K} (lays : ∀ c y, g.Carries c y x → output = fin (c + y + z)) :
    Generator.Sound z { g with output, slope } := by
  obtain ⟨c, y, carries⟩ := sound.balanced
  obtain ⟨n, l, c', ρ, stands⟩ := sound.regular.stands
  exact ⟨⟨sound.regular.sorted, sound.regular.times, n, l, c', ρ, stands.now, stands.last,
    stands.committed, stands.rate⟩, sound.numeric.of_same ⟨rfl, rfl, rfl, rfl, rfl, rfl⟩,
    sound.powers, c, y, carries.committed, carries.realized, lays c y carries⟩

theorem Sound.regulate (sound : u.Sound) {level : Exact K} (finite : isFinite level = true) :
    (u.regulate level).Sound := by
  have held := sound.holdRegulation finite
  obtain ⟨generator, physical, -, upFraction, downFraction⟩ := sound
  exact ⟨generator, physical, held, upFraction, downFraction⟩

theorem ofGenerator_sound {g : Generator (Exact K)} (sound : g.Sound 0) :
    (ofGenerator g).Sound where
  generator := ⟨0, zero_eq, sound⟩
  physical := sound.numeric.envelope
  commanded := isFinite_iff.mpr ⟨0, zero_eq⟩
  upFraction := isFinite_iff.mpr ⟨0, zero_eq⟩
  downFraction := isFinite_iff.mpr ⟨0, zero_eq⟩

section Kept

variable [IsStrictOrderedRing K]

/-- An action on the generator alone. -/
theorem Sound.act_generator (sound : u.Sound) {a : Generator.Action (Exact K)} (given : a.Numeric) :
    Sound { u with generator := u.generator.act a } := by
  obtain ⟨⟨x, current, generator⟩, physical, commanded, upFraction, downFraction⟩ := sound
  exact ⟨⟨x, current, generator.act given⟩, physical, commanded, upFraction, downFraction⟩

theorem Sound.applyEnvelope (sound : u.Sound) : u.applyEnvelope.Sound := by
  have envelope := sound.dispatchEnvelope
  have held := sound.holdRegulation sound.commanded
  obtain ⟨⟨x, current, generator⟩, physical, commanded, upFraction, downFraction⟩ := sound
  refine ⟨⟨x, current, ?_⟩, physical, held, upFraction, downFraction⟩
  have given : Generator.Sound x { u.generator with envelope := u.dispatchEnvelope } :=
    generator.resettle ⟨envelope, generator.numeric.rampTime, generator.numeric.reserve⟩
      ⟨rfl, rfl, rfl, rfl, rfl, rfl, rfl, rfl⟩
  exact given.replan

theorem Sound.startWith (sound : u.Sound) (t : K) {level : Exact K}
    (finite : isFinite level = true) : (u.startWith (fin t) level).Sound := by
  have started : (u.start (fin t)).Sound := by
    refine sound.act_generator (a := .start (fin t)) ?_
    intro v hv
    rw [List.mem_singleton.mp hv]
    exact isFinite_fin t
  have held := started.holdRegulation finite
  obtain ⟨z, hz⟩ := isFinite_iff.mp held
  obtain ⟨⟨x, -, generator⟩, physical, -, upFraction, downFraction⟩ := started
  refine ⟨⟨z, hz, ?_⟩, physical, held, upFraction, downFraction⟩
  refine redraw_sound generator (u.start (fin t)).generator.slope ?_
  intro c y carries
  rw [carries.base, hz, fin_add]

/-- A time that does not lie ahead is ignored. -/
theorem advance_of_past {n t : K} (now : u.generator.now = fin n) (past : t ≤ n) :
    u.advance (fin t) = u := by
  unfold RegulatedUnit.advance
  dsimp only
  rw [now, fin_sub, if_neg (by simpa using past)]

/-- Advancing, in numbers: the output is held within the physical limits, and what it then carries
over the base is the regulation delivered. -/
theorem Sound.advance_eq (sound : u.Sound) {n t b b' o : K} (now : u.generator.now = fin n)
    (ahead : n < t) (base : u.generator.base = fin b)
    (base' : (u.generator.advance (fin t)).base = fin b') (output : u.generator.output = fin o) :
    ∃ v w, u.regulationRate (fin ((b' - b) / (t - n))) (fin (t - n)) = fin v ∧
      u.physical.holdPower (fin (o + v * (t - n))) = fin w ∧
      u.advance (fin t) =
        { u with
          generator := { u.generator.advance (fin t) with output := fin w, slope := fin v }
          current := fin (w - b') } := by
  have span : t - n ≠ 0 := (sub_pos.mpr ahead).ne'
  obtain ⟨v, hv⟩ := sound.regulationRate ((b' - b) / (t - n)) span
  obtain ⟨w, hw⟩ := isFinite_iff.mp (limit_isFinite sound.physical.powerMin
    sound.physical.powerMax (o + v * (t - n)))
  have held : u.physical.holdPower (fin (o + v * (t - n))) = fin w := hw
  refine ⟨v, w, hv, held, ?_⟩
  unfold RegulatedUnit.advance
  dsimp only
  rw [now, fin_sub, if_pos (by simpa using ahead), base, base', output, fin_sub, fin_div _ span, hv,
    fin_mul, fin_add, held, fin_sub]

theorem Sound.advance (sound : u.Sound) (t : K) : (u.advance (fin t)).Sound := by
  obtain ⟨x, current, generator⟩ := sound.generator
  obtain ⟨c, y, carries⟩ := generator.balanced
  have advanced := generator.advance t
  obtain ⟨c', y', carries'⟩ := advanced.balanced
  obtain ⟨n, _, _, _, stands⟩ := generator.regular.stands
  rcases lt_or_ge n t with ahead | past
  · obtain ⟨v, w, -, -, eq⟩ :=
      sound.advance_eq stands.now ahead carries.base carries'.base carries.output
    rw [eq]
    refine ⟨⟨w - (c' + y'), rfl, redraw_sound advanced _ ?_⟩, sound.physical, sound.commanded,
      sound.upFraction, sound.downFraction⟩
    intro c₁ y₁ carries₁
    have base : c₁ + y₁ = c' + y' := by simpa using carries₁.base.symm.trans carries'.base
    rw [base, add_sub_cancel]
  · rw [advance_of_past stands.now past]
    exact sound

theorem Sound.participate (sound : u.Sound) (active : Bool) {up down : Option (Exact K)}
    (hup : ∀ v ∈ up, isNaN v = false) (hdown : ∀ v ∈ down, isNaN v = false) :
    (u.participate active up down).Sound := by
  obtain ⟨generator, physical, commanded, upFraction, downFraction⟩ := sound
  unfold RegulatedUnit.participate
  cases up with
  | some up =>
    have finite := clamp_isFinite (hup up rfl)
    have finite' : isFinite (clamp 0 1 (down.getD up)) = true := by
      cases down with
      | none => exact finite
      | some down => exact clamp_isFinite (hdown down rfl)
    exact Sound.applyEnvelope ⟨generator, physical, commanded, finite, finite'⟩
  | none =>
    cases down with
    | none =>
      exact Sound.applyEnvelope ⟨generator, physical, commanded, upFraction, downFraction⟩
    | some down =>
      exact Sound.applyEnvelope
        ⟨generator, physical, commanded, upFraction, clamp_isFinite (hdown down rfl)⟩

theorem Sound.set (sound : u.Sound) {setting : UnitSetting} {value : Exact K}
    (takes : setting.Takes value) : (u.set setting value).Sound := by
  have nothing : ∀ v ∈ (none : Option (Exact K)), isNaN v = false := nofun
  have given (defined : isNaN value = false) : ∀ v ∈ some value, isNaN v = false := by
    intro v hv
    obtain rfl := Option.mem_some_iff.mp hv
    exact defined
  have kept : ∀ v ∈ some u.downFraction, isNaN v = false := by
    intro v hv
    obtain rfl := Option.mem_some_iff.mp hv
    obtain ⟨x, hx⟩ := isFinite_iff.mp sound.downFraction
    rw [hx]
    exact isNaN_fin x
  cases setting with
  | fraction =>
    show Sound (u.participate u.enabled (some value) none)
    exact sound.participate _ (given takes) nothing
  | upFraction =>
    show Sound (u.participate u.enabled (some value) (some u.downFraction))
    exact sound.participate _ (given takes) kept
  | downFraction =>
    show Sound (u.participate u.enabled none (some value))
    exact sound.participate _ nothing (given takes)
  | enabled =>
    show Sound (u.participate (decide (0 < value)) none none)
    exact sound.participate _ nothing nothing
  | generator setting => exact sound.act_generator (a := .set setting value) takes
  | rating =>
    obtain ⟨generator, physical, commanded, upFraction, downFraction⟩ := sound
    exact Sound.applyEnvelope ⟨generator, physical, commanded, upFraction, downFraction⟩
  | max => exact (sound.withPhysical (sound.physical.withMax takes)).applyEnvelope
  | min => exact (sound.withPhysical (sound.physical.withMin takes)).applyEnvelope
  | ramp => exact (sound.withPhysical (sound.physical.withRamp takes)).applyEnvelope
  | rampUp => exact (sound.withPhysical (sound.physical.withRampUp takes)).applyEnvelope
  | rampDown => exact (sound.withPhysical (sound.physical.withRampDown takes)).applyEnvelope

/-- Every action with numbers. -/
theorem Sound.act (sound : u.Sound) {a : Action (Exact K)} (given : a.Numeric) :
    (u.act a).Sound := by
  cases a with
  | start time => exact sound.act_generator (a := .start time) given
  | startWith time level =>
    obtain ⟨t, rfl⟩ := isFinite_iff.mp (given time List.mem_cons_self)
    exact sound.startWith t (given level (List.mem_cons_of_mem _ List.mem_cons_self))
  | teardown | clear => exact sound.act_generator (a := .clear) nofun
  | add time power => exact sound.act_generator (a := .add time power) given
  | addNow power => exact sound.act_generator (a := .addNow power) given
  | addAll times powers => exact sound.act_generator (a := .addAll times powers) given
  | callReserve level => exact sound.act_generator (a := .callReserve level) given
  | advance time =>
    obtain ⟨t, rfl⟩ := isFinite_iff.mp (given time List.mem_cons_self)
    exact sound.advance t
  | regulate level => exact sound.regulate (given level List.mem_cons_self)
  | participate active up down => exact sound.participate active given.1 given.2
  | set setting value => exact sound.set given
  | setKey key value =>
    show Sound ((u.setKey key value).toOption.getD u)
    unfold RegulatedUnit.setKey
    cases found : UnitSetting.ofKey? key with
    | error e => exact sound
    | ok setting => exact sound.set (given setting found)
  | setMode mode => exact sound.act_generator (a := .setMode mode) nofun
  | setText key value =>
    have still : Sound
        { u with generator := (u.generator.setText key value).toOption.getD u.generator } :=
      sound.act_generator (a := .setText key value) nofun
    show Sound ((u.setText key value).toOption.getD u)
    unfold RegulatedUnit.setText
    cases found : u.generator.setText key value with
    | error e => exact sound
    | ok g =>
      rw [found] at still
      exact still
  | receive message =>
    cases message with
    | updateRegulationTarget level => exact sound.regulate (given level List.mem_cons_self)
    | _ => exact sound.act_generator (a := .receive _) given

theorem Sound.run_numeric (sound : u.Sound) {as : List (Action (Exact K))}
    (given : ∀ a ∈ as, a.Numeric) : (u.run as).Sound := by
  induction as generalizing u with
  | nil => exact sound
  | cons a as ih =>
    refine ih (sound.act (given a List.mem_cons_self)) ?_
    intro b hb
    exact given b (List.mem_cons_of_mem a hb)

theorem Sound.run (sound : u.Sound) {as : List (Action (Exact K))}
    (finite : ∀ a ∈ as, ∀ v ∈ a.values, isFinite v = true) : (u.run as).Sound :=
  sound.run_numeric fun a ha => .of_finite (finite a ha)

theorem idle_sound (o : K) : (RegulatedUnit.idle (fin o)).Sound :=
  ofGenerator_sound
    ((Generator.idle_sound o).act (a := .set .rampTime _) (isFinite_iff.mpr ⟨_, ofNat_fin 600⟩))

end Kept

end RegulatedUnit

/-! ## Every run -/

variable {K : Type} [Field K] [LinearOrder K] [IsStrictOrderedRing K]

/-- Finite arguments keep the balance of a generator, of a unit made from it at any time, and of a
unit made anew. -/
theorem run_inBalance (o : K) {setup : List (Generator.Action (Exact K))}
    (finite : ∀ a ∈ setup, ∀ v ∈ a.values, isFinite v = true)
    {actions : List (RegulatedUnit.Action (Exact K))}
    (finite' : ∀ a ∈ actions, ∀ v ∈ a.values, isFinite v = true) :
    ((Generator.idle (fin o)).run setup).InBalance ∧
      ((RegulatedUnit.ofGenerator ((Generator.idle (fin o)).run setup)).run actions).InBalance ∧
      ((RegulatedUnit.idle (fin o)).run actions).InBalance := by
  have sound := (Generator.idle_sound o).run finite
  exact ⟨sound.inBalance, ((RegulatedUnit.ofGenerator_sound sound).run finite').inBalance,
    ((RegulatedUnit.idle_sound o).run finite').inBalance⟩

/-- Regulation commanded while the output runs into a physical limit. -/
theorem run_inBalance_at_limit :
    ((RegulatedUnit.ofGenerator ((Generator.idle (fin (40 : ℚ))).run
      [.setRampLimits (fin 2) (fin 1), .holdReserve (fin 20), .add (fin 60) (fin 90)])).run
        [.participate true (some (fin (1 / 10))) none, .regulate (fin 8), .callReserve (fin 15),
          .advance (fin 60), .set .max (fin 70), .advance (fin 62)]).InBalance :=
  (run_inBalance 40 (by decide +kernel) (by decide +kernel)).2.1

end UnitDispatch
