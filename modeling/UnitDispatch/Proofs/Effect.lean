import UnitDispatch.Generator.Action
import UnitDispatch.Proofs.Condition

/-! # What an action comes to

`act_effect` sums up `Generator.act`: an action makes ready, advances, queues setpoints, after the
schedule was dropped or not, or changes settings and revises the plan. What every action keeps is
proved by going through these.
-/

namespace UnitDispatch

open Quantity

/-- The numbers in a message. -/
def Message.values {α : Type} : Message α → List α
  | .addTargets times powers | .updateTargets times powers => times ++ powers
  | .updateReserves value | .useReserve value | .updateRegulationTarget value => [value]
  | .clearTargets | .shutdown | .startup | .registerDispatcher _ => []

/-- The power asked for by setting a value: a target asks for one. -/
def GeneratorSetting.asked {α : Type} (value : α) : GeneratorSetting → List α
  | .target => [value]
  | _ => []

namespace Generator

variable {α : Type}

/-! ## What an action names -/

/-- The times an action names. -/
def Action.times : Action α → List α
  | .start time | .add time _ | .advance time => [time]
  | .addAll times powers | .receive (.addTargets times powers)
  | .receive (.updateTargets times powers) => (times.zip powers).map Prod.fst
  | _ => []

/-- The powers an action asks for. -/
def Action.powers : Action α → List α
  | .add _ power | .addNow power => [power]
  | .addAll times powers | .receive (.addTargets times powers)
  | .receive (.updateTargets times powers) => (times.zip powers).map Prod.snd
  | .set setting value => setting.asked value
  | .setKey key value => (GeneratorSetting.ofKey? key).toOption.elim [] (·.asked value)
  | _ => []

/-- The numbers an action comes with. -/
def Action.values : Action α → List α
  | .start value | .advance value | .addNow value | .callReserve value | .holdReserve value
  | .set _ value | .setKey _ value => [value]
  | .add first second | .setRampLimits first second | .setPowerLimits first second =>
    [first, second]
  | .addAll times powers => times ++ powers
  | .receive message => message.values
  | .clear | .setMode _ | .setText _ _ => []

/-- A time that an action names is one of its numbers. -/
theorem Action.times_subset (a : Action α) : a.times ⊆ a.values := by
  have front (times powers : List α) : (times.zip powers).map Prod.fst ⊆ times ++ powers := by
    intro x hx
    obtain ⟨p, hp, rfl⟩ := List.mem_map.mp hx
    exact List.mem_append_left _ (List.of_mem_zip hp).1
  cases a with
  | add time power => exact List.cons_subset.mpr ⟨List.mem_cons_self, List.nil_subset _⟩
  | addAll times powers => exact front times powers
  | receive message =>
    cases message with
    | addTargets times powers | updateTargets times powers => exact front times powers
    | _ => exact List.nil_subset _
  | start | advance => exact List.Subset.refl _
  | _ => exact List.nil_subset _

/-- A power that an action asks for is one of its numbers. -/
theorem Action.powers_subset (a : Action α) : a.powers ⊆ a.values := by
  have back (times powers : List α) : (times.zip powers).map Prod.snd ⊆ times ++ powers := by
    intro x hx
    obtain ⟨p, hp, rfl⟩ := List.mem_map.mp hx
    exact List.mem_append_right _ (List.of_mem_zip hp).2
  have asked (value : α) (setting : GeneratorSetting) : setting.asked value ⊆ [value] := by
    cases setting with
    | target => exact List.Subset.refl _
    | _ => exact List.nil_subset _
  cases a with
  | add time power => exact List.subset_cons_self time [power]
  | addAll times powers => exact back times powers
  | receive message =>
    cases message with
    | addTargets times powers | updateTargets times powers => exact back times powers
    | _ => exact List.nil_subset _
  | addNow => exact List.Subset.refl _
  | set setting value => exact asked value setting
  | setKey key value =>
    show (GeneratorSetting.ofKey? key).toOption.elim [] (·.asked value) ⊆ [value]
    cases (GeneratorSetting.ofKey? key).toOption with
    | none => exact List.nil_subset _
    | some setting => exact asked value setting
  | _ => exact List.nil_subset _

variable [Quantity α]

/-- The generator with a setting changed, if the setting is one. -/
def reassign (g : Generator α) (value : α) : GeneratorSetting → Option (Generator α)
  | .target => none
  | setting => some (g.assign setting value)

/-- The generator in the mode a text names, if the text is about the mode and names one. -/
def reword (g : Generator α) (key value : String) : Option (Generator α) :=
  if key == RampMode.key then (RampMode.ofName? value).toOption.map fun mode => { g with mode }
  else none

/-- The generator with its settings changed as an action wants them, if it is about settings. -/
def configure (g : Generator α) : Action α → Option (Generator α)
  | .callReserve level | .receive (.useReserve level) =>
    some { g with reserve := g.reserve.call level }
  | .holdReserve available | .receive (.updateReserves available) =>
    some { g with reserve := g.reserve.hold available }
  | .set setting value => g.reassign value setting
  | .setKey key value => (GeneratorSetting.ofKey? key).toOption.bind (g.reassign value)
  | .setMode mode => some { g with mode }
  | .setText key value => g.reword key value
  | .setRampLimits up down =>
    some { g with envelope := { g.envelope with rampUp := up, rampDown := magnitude down } }
  | .setPowerLimits min max =>
    some { g with envelope := { g.envelope with powerMin := min, powerMax := max } }
  | _ => none

/-- Two generators are in one state, whatever their settings. -/
structure SameState (g h : Generator α) : Prop where
  schedule : h.schedule = g.schedule
  committed : h.committed = g.committed
  output : h.output = g.output
  realized : h.reserve.realized = g.reserve.realized
  rate : h.rate = g.rate
  now : h.now = g.now
  review : h.review = g.review
  last : h.last = g.last

omit [Quantity α] in
theorem SameState.samePower {g h : Generator α} (same : SameState g h) : SamePower g h :=
  ⟨same.committed, same.output, same.realized⟩

theorem assign_sameState (g : Generator α) (setting : GeneratorSetting) (value : α) :
    SameState g (g.assign setting value) := by
  cases setting <;> exact ⟨rfl, rfl, rfl, rfl, rfl, rfl, rfl, rfl⟩

theorem reassign_sameState {g h : Generator α} {value : α} {setting : GeneratorSetting}
    (change : g.reassign value setting = some h) : SameState g h := by
  cases setting <;> cases change <;> exact assign_sameState g _ value

omit [Quantity α] in
theorem reword_eq_some {g h : Generator α} {key value : String}
    (change : g.reword key value = some h) : ∃ mode, h = { g with mode } := by
  unfold reword at change
  split at change
  · obtain ⟨mode, -, rfl⟩ := Option.map_eq_some_iff.mp change
    exact ⟨mode, rfl⟩
  · cases change

/-- Settings change, the state does not. -/
theorem configure_sameState {g h : Generator α} {a : Action α} (change : g.configure a = some h) :
    SameState g h := by
  cases a with
  | set setting value => exact reassign_sameState change
  | setKey key value =>
    obtain ⟨setting, -, change⟩ := Option.bind_eq_some_iff.mp change
    exact reassign_sameState change
  | setText key value =>
    obtain ⟨mode, rfl⟩ := reword_eq_some change
    exact ⟨rfl, rfl, rfl, rfl, rfl, rfl, rfl, rfl⟩
  | receive message =>
    cases message <;> cases change <;> exact ⟨rfl, rfl, rfl, rfl, rfl, rfl, rfl, rfl⟩
  | _ => cases change <;> exact ⟨rfl, rfl, rfl, rfl, rfl, rfl, rfl, rfl⟩

/-! ## What an action does -/

/-- What an action can make of a generator. -/
inductive Effect (g : Generator α) (a : Action α) : Generator α → Prop
  | start {time : α} (named : time ∈ a.times) : Effect g a (g.start time)
  | advance {time : α} (named : a = .advance time) : Effect g a (g.advance time)
  | add {times powers : List α} (named : ∀ p ∈ times.zip powers, p.1 = g.now ∨ p.1 ∈ a.times)
      (asked : ∀ p ∈ times.zip powers, p.2 ∈ a.powers) : Effect g a (g.addAll times powers)
  | replace {times powers : List α} (named : ∀ p ∈ times.zip powers, p.1 ∈ a.times)
      (asked : ∀ p ∈ times.zip powers, p.2 ∈ a.powers) : Effect g a (g.clear.addAll times powers)
  | configure {h : Generator α} (change : g.configure a = some h) : Effect g a h.replan
  /-- Nothing but the dispatcher changes, if anything does. -/
  | register (dispatcher : Option Nat) : Effect g a { g with dispatcher }

/-- Setpoints queued as they were given. -/
theorem addAll_effect {g : Generator α} {a : Action α} {times powers : List α}
    (named : a.times = (times.zip powers).map Prod.fst)
    (asked : a.powers = (times.zip powers).map Prod.snd) :
    Effect g a (g.addAll times powers) := by
  refine .add ?_ ?_
  · intro p hp
    rw [named]
    exact .inr (List.mem_map_of_mem hp)
  · intro p hp
    rw [asked]
    exact List.mem_map_of_mem hp

/-- A setpoint due at once. -/
theorem addNow_effect {g : Generator α} {a : Action α} {power : α} (asked : power ∈ a.powers) :
    Effect g a (g.addNow power) := by
  show Effect g a (g.addAll [g.now] [power])
  refine .add ?_ ?_
  · intro p hp
    obtain rfl := List.mem_singleton.mp hp
    exact .inl rfl
  · intro p hp
    obtain rfl := List.mem_singleton.mp hp
    exact asked

/-- Setting a value either queues a setpoint due at once or changes the setting. -/
theorem set_effect {g : Generator α} {a : Action α} {setting : GeneratorSetting} {value : α}
    (asked : setting = .target → value ∈ a.powers)
    (change : g.configure a = g.reassign value setting) : Effect g a (g.set setting value) := by
  cases setting with
  | target => exact addNow_effect (asked rfl)
  | _ => exact .configure change

/-- The list is complete. -/
theorem act_effect (g : Generator α) (a : Action α) : Effect g a (g.act a) := by
  cases a with
  | start time => exact .start List.mem_cons_self
  | advance time => exact .advance rfl
  | add time power =>
    show Effect g _ (g.addAll [time] [power])
    exact addAll_effect rfl rfl
  | addNow power => exact addNow_effect List.mem_cons_self
  | addAll times powers => exact addAll_effect rfl rfl
  | clear =>
    show Effect g _ (g.clear.addAll [] [])
    exact .replace nofun nofun
  | set setting value =>
    refine set_effect ?_ rfl
    rintro rfl
    exact List.mem_cons_self
  | setKey key value =>
    show Effect g _ ((g.setKey key value).toOption.getD g)
    unfold setKey
    cases found : GeneratorSetting.ofKey? key with
    | error e => exact .register g.dispatcher
    | ok setting =>
      refine set_effect ?_ ?_
      · rintro rfl
        simp [Action.powers, GeneratorSetting.asked, found, Except.toOption]
      · simp [configure, found, Except.toOption]
  | setText key value =>
    show Effect g _ ((g.setText key value).toOption.getD g)
    unfold setText
    by_cases named : (key == RampMode.key) = true
    · rw [if_pos named]
      cases found : RampMode.ofName? value with
      | error e => exact .register g.dispatcher
      | ok mode =>
        refine .configure (h := { g with mode }) ?_
        show g.reword key value = _
        unfold reword
        rw [if_pos named, found]
        rfl
    · rw [if_neg named]
      exact .register g.dispatcher
  | receive message =>
    cases message with
    | clearTargets =>
      show Effect g _ (g.clear.addAll [] [])
      exact .replace nofun nofun
    | shutdown | startup => exact .register g.dispatcher
    | updateRegulationTarget level => exact .register g.dispatcher
    | addTargets times powers => exact addAll_effect rfl rfl
    | updateTargets times powers =>
      refine .replace ?_ ?_ <;> intro p hp <;> exact List.mem_map_of_mem hp
    | updateReserves available => exact .configure rfl
    | useReserve level => exact .configure rfl
    | registerDispatcher source => exact .register (some source)
  | callReserve | holdReserve | setMode | setRampLimits | setPowerLimits => exact .configure rfl

/-! ## What an action does to the clock -/

theorem start_now (g : Generator α) (time : α) : (g.start time).now = time :=
  (replan_samePlant _).now

theorem add_now (g : Generator α) (time power : α) : (g.add time power).now = g.now :=
  add_induction (P := fun h => h.now = g.now) (fun _ => rfl)
    fun _ same => (replan_samePlant _).now.trans same

theorem addAll_now (g : Generator α) (times powers : List α) :
    (g.addAll times powers).now = g.now :=
  addAll_induction (P := fun h => h.now = g.now)
    (fun h p _ same => (add_now h p.1 p.2).trans same) rfl

/-- An action that names no time leaves the clock alone. -/
theorem act_now_of_timeless {g : Generator α} {a : Action α} (timeless : a.times = []) :
    (g.act a).now = g.now := by
  have effect := act_effect g a
  generalize g.act a = h at effect ⊢
  cases effect with
  | start named => exact absurd named (timeless ▸ List.not_mem_nil)
  | advance named =>
    subst named
    cases timeless
  | add | replace => exact addAll_now _ _ _
  | configure change => exact (replan_samePlant _).now.trans (configure_sameState change).now
  | register => rfl

end Generator

end UnitDispatch
