import UnitDispatch.Proofs.Balance
import UnitDispatch.Proofs.Effect

/-! # Settings that are numbers

`Sound` is what actions with numbers keep of a generator, whatever their signs: settings that are
numbers or unbounded where that means no limit, a regular schedule of finite powers, and the power
balance. `Sound.act` says that every action keeps it that comes with finite numbers or lifts limits.
-/

namespace UnitDispatch

open Quantity Exact

variable {K : Type} [Field K] [LinearOrder K]

/-- Limits are numbers, or there is no limit. -/
structure Envelope.Numeric (e : Envelope (Exact K)) : Prop where
  powerMin : e.powerMin < posInf
  powerMax : negInf < e.powerMax
  rampUp : negInf < e.rampUp
  rampDown : negInf < e.rampDown

namespace Envelope.Numeric

variable {e : Envelope (Exact K)} {value : Exact K}

theorem withMin (numeric : e.Numeric) (low : value < posInf) :
    Envelope.Numeric { e with powerMin := value } :=
  ⟨low, numeric.powerMax, numeric.rampUp, numeric.rampDown⟩

theorem withMax (numeric : e.Numeric) (high : negInf < value) :
    Envelope.Numeric { e with powerMax := value } :=
  ⟨numeric.powerMin, high, numeric.rampUp, numeric.rampDown⟩

theorem withRampUp (numeric : e.Numeric) (high : negInf < value) :
    Envelope.Numeric { e with rampUp := value } :=
  ⟨numeric.powerMin, numeric.powerMax, high, numeric.rampDown⟩

theorem withRampDown (numeric : e.Numeric) (high : negInf < value) :
    Envelope.Numeric { e with rampDown := magnitude value } := by
  refine ⟨numeric.powerMin, numeric.powerMax, numeric.rampUp, ?_⟩
  obtain ⟨y, rfl⟩ | rfl := eq_of_negInf_lt high
  · exact negInf_lt_fin |y|
  · exact negInf_lt_posInf

theorem withRamp (numeric : e.Numeric) (high : negInf < value) : (e.withRamp value).Numeric :=
  (numeric.withRampUp high).withRampDown high

end Envelope.Numeric

/-- What is available, what is called for and the time allowed are numbers. -/
structure Reserve.Numeric (r : Reserve (Exact K)) : Prop where
  available : isFinite r.available = true
  requested : isFinite r.requested = true
  rampTime : isFinite r.rampTime = true

theorem Reserve.Numeric.call {r : Reserve (Exact K)} (numeric : r.Numeric) {level : Exact K}
    (finite : isFinite level = true) : (r.call level).Numeric where
  available := numeric.available
  requested := by
    obtain ⟨x, rfl⟩ := isFinite_iff.mp finite
    obtain ⟨y, hy⟩ := isFinite_iff.mp numeric.available
    simp [Reserve.call, hy, isFinite_fin]
  rampTime := numeric.rampTime

theorem Reserve.Numeric.hold {r : Reserve (Exact K)} (numeric : r.Numeric) {available : Exact K}
    (finite : isFinite available = true) : (r.hold available).Numeric where
  available := by
    obtain ⟨x, rfl⟩ := isFinite_iff.mp finite
    simp [Reserve.hold, isFinite_fin]
  requested := by
    obtain ⟨x, rfl⟩ := isFinite_iff.mp finite
    obtain ⟨y, hy⟩ := isFinite_iff.mp numeric.requested
    simp [Reserve.hold, hy, isFinite_fin]
  rampTime := numeric.rampTime

/-! ## Actions with numbers -/

/-- A value that a setting may have: a limit may be lifted, everything else is a number. -/
def GeneratorSetting.Takes (value : Exact K) : GeneratorSetting → Prop
  | .min => value < posInf
  | .max | .ramp | .rampUp | .rampDown => negInf < value
  | _ => isFinite value = true

theorem GeneratorSetting.takes_of_isFinite {value : Exact K} (finite : isFinite value = true)
    (setting : GeneratorSetting) : setting.Takes value := by
  obtain ⟨y, rfl⟩ := isFinite_iff.mp finite
  cases setting with
  | min => exact fin_lt_posInf y
  | max | ramp | rampUp | rampDown => exact negInf_lt_fin y
  | _ => exact finite

namespace Generator

/-- The numbers an action comes with are finite, or lift a limit. -/
def Action.Numeric : Action (Exact K) → Prop
  | .set setting value => setting.Takes value
  | .setKey key value => ∀ setting, GeneratorSetting.ofKey? key = .ok setting → setting.Takes value
  | .setRampLimits up down => negInf < up ∧ negInf < down
  | .setPowerLimits min max => min < posInf ∧ negInf < max
  | a => ∀ v ∈ a.values, isFinite v = true

theorem Action.Numeric.of_finite {a : Action (Exact K)}
    (finite : ∀ v ∈ a.values, isFinite v = true) : a.Numeric := by
  cases a with
  | set setting value => exact setting.takes_of_isFinite (finite value List.mem_cons_self)
  | setKey key value =>
    exact fun setting _ => setting.takes_of_isFinite (finite value List.mem_cons_self)
  | setRampLimits first second | setPowerLimits first second =>
    obtain ⟨x, rfl⟩ := isFinite_iff.mp (finite first List.mem_cons_self)
    obtain ⟨y, rfl⟩ :=
      isFinite_iff.mp (finite second (List.mem_cons_of_mem _ List.mem_cons_self))
    exact ⟨by simp, negInf_lt_fin y⟩
  | _ => exact finite

theorem Action.Numeric.times {a : Action (Exact K)} (numeric : a.Numeric) :
    ∀ t ∈ a.times, isFinite t = true := by
  intro t ht
  cases a with
  | set | setKey | setRampLimits | setPowerLimits => exact (List.not_mem_nil ht).elim
  | _ => exact numeric t (Action.times_subset _ ht)

theorem Action.Numeric.powers {a : Action (Exact K)} (numeric : a.Numeric) :
    ∀ p ∈ a.powers, isFinite p = true := by
  have asked {setting : GeneratorSetting} {p value : Exact K} (takes : setting.Takes value)
      (hp : p ∈ setting.asked value) : isFinite p = true := by
    cases setting with
    | target =>
      rw [List.mem_singleton.mp hp]
      exact takes
    | _ => exact (List.not_mem_nil hp).elim
  intro p hp
  cases a with
  | set setting value => exact asked numeric hp
  | setKey key value =>
    change p ∈ (GeneratorSetting.ofKey? key).toOption.elim [] (·.asked value) at hp
    cases found : GeneratorSetting.ofKey? key with
    | error e =>
      rw [found] at hp
      exact (List.not_mem_nil hp).elim
    | ok setting =>
      rw [found] at hp
      exact asked (numeric setting found) hp
  | setRampLimits | setPowerLimits => exact (List.not_mem_nil hp).elim
  | _ => exact numeric p (Action.powers_subset _ hp)

/-- All settings that a plan depends on are numbers, or there is no limit. -/
structure Numeric (g : Generator (Exact K)) : Prop where
  envelope : g.envelope.Numeric
  rampTime : isFinite g.rampTime = true
  reserve : g.reserve.Numeric

variable {g h : Generator (Exact K)} {x : K}

theorem Numeric.of_same (numeric : g.Numeric) (same : SameSettings g h) : h.Numeric where
  envelope := by rw [same.envelope]; exact numeric.envelope
  rampTime := by rw [same.rampTime]; exact numeric.rampTime
  reserve := by
    refine ⟨?_, ?_, ?_⟩
    · rw [same.available]
      exact numeric.reserve.available
    · rw [same.requested]
      exact numeric.reserve.requested
    · rw [same.reserveRampTime]
      exact numeric.reserve.rampTime

/-- A finite power is held at a number. -/
theorem Numeric.holdTarget (numeric : g.Numeric) {p : Exact K} (finite : isFinite p = true) :
    isFinite (g.holdTarget p) = true := by
  obtain ⟨y, rfl⟩ := isFinite_iff.mp finite
  obtain ⟨a, ha⟩ := isFinite_iff.mp numeric.reserve.available
  unfold Generator.holdTarget
  rw [ha]
  exact limit_isFinite numeric.envelope.powerMin (negInf_lt_sub numeric.envelope.powerMax a) y

/-- What is kept for the reserve is a number, if anything is. -/
theorem Numeric.rampLimitUp_eq (numeric : g.Numeric) :
    g.rampLimitUp = g.envelope.rampUp ∨ ∃ z, g.rampLimitUp = g.envelope.rampUp - fin z := by
  obtain ⟨a, ha⟩ := isFinite_iff.mp numeric.reserve.available
  obtain ⟨q, hq⟩ := isFinite_iff.mp numeric.reserve.requested
  obtain ⟨m, hm⟩ := isFinite_iff.mp numeric.reserve.rampTime
  unfold rampLimitUp
  dsimp only
  rw [ha, hq, hm]
  split
  next => exact .inl rfl
  next kept =>
    have nonzero : m ≠ 0 := by
      rintro rfl
      exact kept (.inr (by simp))
    rw [fin_sub, fin_div _ nonzero]
    exact .inr ⟨_, rfl⟩

/-- What is kept for the reserve leaves some upward limit. -/
theorem Numeric.limitUp (numeric : g.Numeric) : negInf < g.rampLimitUp := by
  rcases numeric.rampLimitUp_eq with whole | ⟨z, less⟩
  · rw [whole]
    exact numeric.envelope.rampUp
  · rw [less]
    exact negInf_lt_sub numeric.envelope.rampUp z

theorem Numeric.assign (numeric : g.Numeric) {setting : GeneratorSetting} {value : Exact K}
    (takes : setting.Takes value) : (g.assign setting value).Numeric := by
  obtain ⟨envelope, rampTime, reserve⟩ := numeric
  cases setting with
  | rampTime => exact ⟨envelope, takes, reserve⟩
  | reserve => exact ⟨envelope, rampTime, reserve.hold takes⟩
  | reserveRampTime => exact ⟨envelope, rampTime, reserve.available, reserve.requested, takes⟩
  | ramp10 | ramp10Up | ramp10Down | ramp30 | ramp30Up | ramp30Down | target =>
    exact ⟨envelope, rampTime, reserve⟩
  | ramp => exact ⟨envelope.withRamp takes, rampTime, reserve⟩
  | rampUp => exact ⟨envelope.withRampUp takes, rampTime, reserve⟩
  | rampDown => exact ⟨envelope.withRampDown takes, rampTime, reserve⟩
  | min => exact ⟨envelope.withMin takes, rampTime, reserve⟩
  | max => exact ⟨envelope.withMax takes, rampTime, reserve⟩

/-- Actions with numbers leave settings that are numbers. -/
theorem Numeric.configure {a : Action (Exact K)} (numeric : g.Numeric) (given : a.Numeric)
    (change : g.configure a = some h) : h.Numeric := by
  have reassign {setting : GeneratorSetting} {value : Exact K} (takes : setting.Takes value)
      (change : g.reassign value setting = some h) : h.Numeric := by
    cases setting <;> cases change <;> exact numeric.assign takes
  obtain ⟨envelope, rampTime, reserve⟩ := numeric
  cases a with
  | set setting value => exact reassign given change
  | setKey key value =>
    obtain ⟨setting, found, change⟩ := Option.bind_eq_some_iff.mp change
    refine reassign (given setting ?_) change
    cases named : GeneratorSetting.ofKey? key with
    | error e =>
      rw [named] at found
      cases found
    | ok other =>
      rw [named] at found
      cases found
      rfl
  | setText key value =>
    obtain ⟨mode, rfl⟩ := reword_eq_some change
    exact ⟨envelope, rampTime, reserve⟩
  | callReserve level =>
    cases change
    exact ⟨envelope, rampTime, reserve.call (given level List.mem_cons_self)⟩
  | holdReserve available =>
    cases change
    exact ⟨envelope, rampTime, reserve.hold (given available List.mem_cons_self)⟩
  | setRampLimits up down =>
    cases change
    exact ⟨(envelope.withRampUp given.1).withRampDown given.2, rampTime, reserve⟩
  | setPowerLimits min max =>
    cases change
    exact ⟨(envelope.withMin given.1).withMax given.2, rampTime, reserve⟩
  | receive message =>
    cases message with
    | updateReserves available =>
      cases change
      exact ⟨envelope, rampTime, reserve.hold (given available List.mem_cons_self)⟩
    | useReserve level =>
      cases change
      exact ⟨envelope, rampTime, reserve.call (given level List.mem_cons_self)⟩
    | _ => cases change
  | setMode =>
    cases change
    exact ⟨envelope, rampTime, reserve⟩
  | _ => cases change

/-! ## Sound generators -/

/-- Settings and schedule are numbers, and the output is committed power, reserve and `x`. -/
structure Sound (x : K) (g : Generator (Exact K)) : Prop where
  regular : g.Regular
  numeric : g.Numeric
  powers : ∀ p ∈ g.schedule.setpoints, isFinite p.power = true
  balanced : g.Balanced x

theorem Sound.proper (sound : g.Sound x) : g.Proper where
  rampUp := sound.numeric.envelope.rampUp
  rampDown := sound.numeric.envelope.rampDown
  limitUp := sound.numeric.limitUp
  rampTime := by
    obtain ⟨m, hm⟩ := isFinite_iff.mp sound.numeric.rampTime
    rw [hm]
    exact negInf_lt_fin m
  targets := by
    intro p hp
    exact sound.numeric.holdTarget (sound.powers p hp)

theorem idle_sound (o : K) : (idle (fin o)).Sound 0 where
  regular := ⟨List.Pairwise.nil, nofun, 0, 0, o, 0, zero_eq, zero_eq, rfl, zero_eq⟩
  numeric := by
    refine ⟨⟨?_, ?_, ?_, ?_⟩, ?_, ?_, ?_, ?_⟩
    · exact negInf_lt_posInf
    · exact negInf_lt_posInf
    · exact negInf_lt_posInf
    · exact negInf_lt_posInf
    all_goals exact isFinite_iff.mpr ⟨_, ofNat_fin _⟩
  powers := nofun
  balanced := ⟨o, 0, rfl, zero_eq, by simp [idle]⟩

/-- A new schedule, clock or rate. -/
theorem Sound.reschedule (sound : g.Sound x) (settings : SameSettings g h) (power : SamePower g h)
    (sorted : h.schedule.Sorted)
    (finite : ∀ p ∈ h.schedule.setpoints, isFinite p.time = true ∧ isFinite p.power = true)
    {n l ρ : K} (now : h.now = fin n) (last : h.last = fin l) (rate : h.rate = fin ρ) :
    h.Sound x where
  regular := by
    obtain ⟨_, _, c, _, stands⟩ := sound.regular.stands
    exact ⟨sorted, fun p hp => (finite p hp).1, n, l, c, ρ, now, last,
      power.committed.trans stands.committed, rate⟩
  numeric := sound.numeric.of_same settings
  powers := fun p hp => (finite p hp).2
  balanced := sound.balanced.of_same power

/-- New settings, as long as they are numbers. -/
theorem Sound.resettle (sound : g.Sound x) (numeric : h.Numeric) (state : SameState g h) :
    h.Sound x where
  regular := by
    obtain ⟨n, l, c, ρ, stands⟩ := sound.regular.stands
    refine ⟨?_, ?_, n, l, c, ρ, state.now.trans stands.now, state.last.trans stands.last,
      state.committed.trans stands.committed, state.rate.trans stands.rate⟩
    · rw [state.schedule]
      exact sound.regular.sorted
    · rw [state.schedule]
      exact sound.regular.times
  numeric := numeric
  powers := by
    rw [state.schedule]
    exact sound.powers
  balanced := sound.balanced.of_same state.samePower

/-- A setpoint queued, whatever the review becomes. -/
theorem Sound.queue (sound : g.Sound x) {q : Setpoint (Exact K)} (time : isFinite q.time = true)
    (power : isFinite q.power = true) (review : Exact K) :
    Sound x { g with schedule := g.schedule.insert q, review } := by
  obtain ⟨n, l, c, ρ, stands⟩ := sound.regular.stands
  refine sound.reschedule ⟨rfl, rfl, rfl, rfl, rfl, rfl⟩ ⟨rfl, rfl, rfl⟩
    (sound.regular.sorted.insert sound.regular.times time) ?_ stands.now stands.last stands.rate
  intro s hs
  rcases Schedule.mem_insert.mp hs with rfl | hs
  · exact ⟨time, power⟩
  · exact ⟨sound.regular.times s hs, sound.powers s hs⟩

/-- A new beginning, with older setpoints dropped. -/
theorem Sound.restart (sound : g.Sound x) (t : K) : Sound x
    { g with schedule := g.schedule.dropBefore (fin t), now := fin t, last := fin t } := by
  obtain ⟨n, l, c, ρ, stands⟩ := sound.regular.stands
  exact sound.reschedule ⟨rfl, rfl, rfl, rfl, rfl, rfl⟩ ⟨rfl, rfl, rfl⟩
    sound.regular.sorted.dropBefore
    (fun p hp => ⟨sound.regular.times p (Schedule.mem_of_mem_dropBefore hp),
      sound.powers p (Schedule.mem_of_mem_dropBefore hp)⟩) rfl rfl stands.rate

theorem Sound.clear (sound : g.Sound x) : g.clear.Sound x := by
  obtain ⟨n, l, c, ρ, stands⟩ := sound.regular.stands
  exact sound.reschedule ⟨rfl, rfl, rfl, rfl, rfl, rfl⟩ ⟨rfl, rfl, rfl⟩ List.Pairwise.nil nofun
    stands.now stands.last zero_eq

section Kept

variable [IsStrictOrderedRing K]

/-- A leg whose review is not after `t` is a move up to some time no later, and a revision. -/
theorem leg_of_due {n t : K} (now : g.now = fin n) (due : g.review ≤ fin t) :
    ∃ r ≤ t, g.leg = (g.moveTo (fin r)).replan := by
  unfold Generator.leg
  cases review : g.review with
  | fin r =>
    rw [review] at due
    exact ⟨r, fin_le.mp due, rfl⟩
  | negInf =>
    have stay : g.moveTo negInf = g := by
      unfold Generator.moveTo
      dsimp only
      rw [now, negInf_sub_fin, if_neg (not_lt_negInf _)]
    refine ⟨min n t, min_le_right n t, ?_⟩
    rw [stay, moveTo_of_past now (min_le_left n t)]
  | posInf =>
    rw [review] at due
    exact (not_posInf_le_fin t due).elim
  | nan =>
    rw [review] at due
    exact due.elim

theorem Sound.replan (sound : g.Sound x) : g.replan.Sound x where
  regular := sound.regular.replan sound.proper
  numeric := sound.numeric.of_same (replan_sameSettings g)
  powers := by
    intro p hp
    rcases mem_replan sound.regular sound.proper hp with old | ⟨w, power, -⟩
    · exact sound.powers p old
    · rw [power]
      exact isFinite_fin w
  balanced := sound.balanced.replan sound.regular sound.proper

theorem Sound.moveTo (sound : g.Sound x) (t : K) : (g.moveTo (fin t)).Sound x := by
  obtain ⟨n, l, c, ρ, stands⟩ := sound.regular.stands
  have schedule := moveTo_schedule g (fin t)
  refine ⟨⟨?_, ?_, ?_⟩, sound.numeric.of_same (moveTo_sameSettings g _), ?_, ?_⟩
  · rw [schedule]
    exact sound.regular.sorted
  · rw [schedule]
    exact sound.regular.times
  · rcases le_or_gt n t with ahead | past
    · exact ⟨t, l, _, ρ, stands.moveTo ahead⟩
    · rw [moveTo_of_past stands.now past.le]
      exact ⟨n, l, c, ρ, stands⟩
  · rw [schedule]
    exact sound.powers
  · exact sound.balanced.moveTo stands.now stands.rate sound.numeric.envelope.rampUp
      sound.numeric.envelope.rampDown sound.numeric.reserve.requested t

theorem Sound.leg (sound : g.Sound x) {t : K} (due : g.review ≤ fin t) : g.leg.Sound x := by
  obtain ⟨n, l, c, ρ, stands⟩ := sound.regular.stands
  obtain ⟨r, -, leg⟩ := leg_of_due stands.now due
  rw [leg]
  exact (sound.moveTo r).replan

theorem Sound.legsTo (t : K) (fuel : Nat) (sound : g.Sound x) :
    (legsTo (fin t) fuel g).Sound x :=
  legsTo_induction (fun _ due still => still.leg due) fuel sound

theorem Sound.advance (sound : g.Sound x) (t : K) : (g.advance (fin t)).Sound x := by
  unfold Generator.advance
  split
  · exact sound
  · exact (sound.legsTo t g.legBound).moveTo t

theorem Sound.start (sound : g.Sound x) (t : K) : (g.start (fin t)).Sound x := by
  have planned := (sound.restart t).replan
  obtain ⟨n, l, c, ρ, stands⟩ := planned.regular.stands
  exact planned.reschedule ⟨rfl, rfl, rfl, rfl, rfl, rfl⟩ ⟨rfl, rfl, rfl⟩ planned.regular.sorted
    (fun p hp => ⟨planned.regular.times p hp, planned.powers p hp⟩) stands.now stands.last
    stands.rate

theorem Sound.add (sound : g.Sound x) {t p : Exact K} (time : isFinite t = true)
    (power : isFinite p = true) : (g.add t p).Sound x :=
  add_induction (sound.queue (q := ⟨t, p, false⟩) time power) (fun _ still => still.replan)

theorem Sound.addAll (sound : g.Sound x) {times powers : List (Exact K)}
    (finite : ∀ p ∈ times.zip powers, isFinite p.1 = true ∧ isFinite p.2 = true) :
    (g.addAll times powers).Sound x :=
  addAll_induction (fun _ p hp still => still.add (finite p hp).1 (finite p hp).2) sound

/-- Every action with numbers. -/
theorem Sound.act (sound : g.Sound x) {a : Action (Exact K)} (given : a.Numeric) :
    (g.act a).Sound x := by
  have effect := act_effect g a
  generalize g.act a = h at effect ⊢
  have times := given.times
  have powers := given.powers
  cases effect with
  | @start time named =>
    obtain ⟨t, rfl⟩ := isFinite_iff.mp (times time named)
    exact sound.start t
  | @advance time named =>
    subst named
    obtain ⟨t, rfl⟩ := isFinite_iff.mp (times time List.mem_cons_self)
    exact sound.advance t
  | add named asked =>
    refine sound.addAll ?_
    intro p hp
    refine ⟨?_, powers _ (asked p hp)⟩
    rcases named p hp with now | named
    · obtain ⟨n, l, c, ρ, stands⟩ := sound.regular.stands
      rw [now, stands.now]
      exact isFinite_fin n
    · exact times _ named
  | replace named asked =>
    exact sound.clear.addAll fun p hp => ⟨times _ (named p hp), powers _ (asked p hp)⟩
  | configure change =>
    exact (sound.resettle (sound.numeric.configure given change)
      (configure_sameState change)).replan
  | register dispatcher =>
    exact sound.resettle (sound.numeric.of_same ⟨rfl, rfl, rfl, rfl, rfl, rfl⟩)
      ⟨rfl, rfl, rfl, rfl, rfl, rfl, rfl, rfl⟩

theorem Sound.run_numeric (sound : g.Sound x) {as : List (Action (Exact K))}
    (given : ∀ a ∈ as, a.Numeric) : (g.run as).Sound x := by
  induction as generalizing g with
  | nil => exact sound
  | cons a as ih =>
    refine ih (sound.act (given a List.mem_cons_self)) ?_
    intro b hb
    exact given b (List.mem_cons_of_mem a hb)

theorem Sound.run (sound : g.Sound x) {as : List (Action (Exact K))}
    (finite : ∀ a ∈ as, ∀ v ∈ a.values, isFinite v = true) : (g.run as).Sound x :=
  sound.run_numeric fun a ha => .of_finite (finite a ha)

end Kept

end Generator

end UnitDispatch
