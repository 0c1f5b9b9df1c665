import UnitDispatch.Proofs.PowerBalance

/-! # What an action on a unit comes to

`act_effect` sums up `RegulatedUnit.act`: an action is passed on to the generator, commands a level
of regulation, makes ready with one, advances, or changes what the generator's envelope is derived
from and hands it down anew. An action on a generator, in turn, either changes its settings or
leaves them alone.
-/

namespace UnitDispatch

open Quantity

namespace Generator

variable {α : Type} [Quantity α]

/-! ## What leaves the settings of a generator alone -/

theorem leg_sameSettings (g : Generator α) : SameSettings g g.leg :=
  (moveTo_sameSettings g g.review).trans (replan_sameSettings _)

theorem legsTo_sameSettings (time : α) (fuel : Nat) (g : Generator α) :
    SameSettings g (legsTo time fuel g) :=
  legsTo_induction (P := SameSettings g) (fun h _ same => same.trans (leg_sameSettings h)) fuel
    (.refl g)

theorem advance_sameSettings (g : Generator α) (time : α) : SameSettings g (g.advance time) := by
  unfold advance
  split
  · exact .refl g
  · exact (legsTo_sameSettings time g.legBound g).trans (moveTo_sameSettings _ time)

theorem start_sameSettings (g : Generator α) (time : α) : SameSettings g (g.start time) := by
  let h := { g with schedule := g.schedule.dropBefore time, now := time, last := time }
  have dropped : SameSettings g h := ⟨rfl, rfl, rfl, rfl, rfl, rfl⟩
  exact (dropped.trans (replan_sameSettings h)).trans ⟨rfl, rfl, rfl, rfl, rfl, rfl⟩

theorem add_sameSettings (g : Generator α) (time power : α) :
    SameSettings g (g.add time power) :=
  add_induction (P := SameSettings g) (fun _ => ⟨rfl, rfl, rfl, rfl, rfl, rfl⟩)
    (fun h same => same.trans (replan_sameSettings h))

theorem addAll_sameSettings (g : Generator α) (times powers : List α) :
    SameSettings g (g.addAll times powers) :=
  addAll_induction (P := SameSettings g) (fun h p _ same => same.trans (add_sameSettings h p.1 p.2))
    (.refl g)

/-- An action that changes settings revises the plan with them; any other leaves them alone. -/
theorem act_settings (g : Generator α) (a : Action α) :
    SameSettings g (g.act a) ∨ ∃ h, g.configure a = some h ∧ g.act a = h.replan := by
  have effect := act_effect g a
  generalize g.act a = g' at effect ⊢
  cases effect with
  | start => exact .inl (start_sameSettings g _)
  | advance => exact .inl (advance_sameSettings g _)
  | add => exact .inl (addAll_sameSettings g _ _)
  | replace =>
    have cleared : SameSettings g g.clear := ⟨rfl, rfl, rfl, rfl, rfl, rfl⟩
    exact .inl (cleared.trans (addAll_sameSettings g.clear _ _))
  | configure change => exact .inr ⟨_, change, rfl⟩
  | register => exact .inl ⟨rfl, rfl, rfl, rfl, rfl, rfl⟩

end Generator

/-! ## What leaves the envelope of a generator alone -/

/-- Whether a setting is a limit of the envelope. -/
def GeneratorSetting.isLimit : GeneratorSetting → Bool
  | ramp | rampUp | rampDown | min | max => true
  | _ => false

namespace Generator

variable {α : Type}

/-- An action that sets no limit of the envelope. -/
def Action.SparesLimits : Action α → Prop
  | .set setting _ => setting.isLimit = false
  | .setKey key _ => ∀ setting, GeneratorSetting.ofKey? key = .ok setting → setting.isLimit = false
  | .setRampLimits _ _ | .setPowerLimits _ _ => False
  | _ => True

variable [Quantity α]

theorem reassign_envelope {g h : Generator α} {setting : GeneratorSetting} {value : α}
    (spares : setting.isLimit = false) (change : g.reassign value setting = some h) :
    h.envelope = g.envelope := by
  cases setting <;> cases spares <;> cases change <;> rfl

theorem configure_envelope {g h : Generator α} {a : Action α} (spares : a.SparesLimits)
    (change : g.configure a = some h) : h.envelope = g.envelope := by
  cases a with
  | set setting value => exact reassign_envelope spares change
  | setKey key value =>
    obtain ⟨setting, found, change⟩ := Option.bind_eq_some_iff.mp change
    refine reassign_envelope (spares setting ?_) change
    cases named : GeneratorSetting.ofKey? key <;> rw [named] at found <;> cases found
    rfl
  | setText key value =>
    obtain ⟨mode, rfl⟩ := reword_eq_some change
    rfl
  | setRampLimits | setPowerLimits => exact spares.elim
  | receive message => cases message <;> cases change <;> rfl
  | _ => cases change <;> rfl

theorem act_envelope (g : Generator α) {a : Action α} (spares : a.SparesLimits) :
    (g.act a).envelope = g.envelope := by
  rcases act_settings g a with same | ⟨h, change, planned⟩
  · exact same.envelope
  · rw [planned, (replan_sameSettings h).envelope, configure_envelope spares change]

end Generator

/-! ## What an action does to a unit -/

namespace RegulatedUnit

variable {α : Type}

/-- The action on the generator that a unit passes an action on as, if it does. -/
def Action.passedOn : Action α → Option (Generator.Action α)
  | .start time => some (.start time)
  | .teardown | .clear => some .clear
  | .add time power => some (.add time power)
  | .addNow power => some (.addNow power)
  | .addAll times powers => some (.addAll times powers)
  | .callReserve level => some (.callReserve level)
  | .set (.generator setting) value => some (.set setting value)
  | .setKey key value =>
    match UnitSetting.ofKey? key with
    | .ok (.generator setting) => some (.set setting value)
    | _ => none
  | .setMode mode => some (.setMode mode)
  | .setText key value => some (.setText key value)
  | .receive (.updateRegulationTarget _) => none
  | .receive message => some (.receive message)
  | _ => none

variable [Quantity α]

/-- A unit with other limits or another part in regulation; a fraction that changes is clamped. -/
structure Refits (u : RegulatedUnit α) (values : List α) (v : RegulatedUnit α) : Prop where
  generator : v.generator = u.generator
  current : v.current = u.current
  commanded : v.commanded = u.commanded
  upFraction : v.upFraction = u.upFraction ∨ ∃ x ∈ u.upFraction :: values,
    v.upFraction = clamp 0 1 x
  downFraction : v.downFraction = u.downFraction ∨ ∃ x ∈ u.downFraction :: values,
    v.downFraction = clamp 0 1 x

/-- What an action can make of a unit. -/
inductive Effect (u : RegulatedUnit α) (a : Action α) : RegulatedUnit α → Prop
  | pass {b : Generator.Action α} (passed : a.passedOn = some b) :
    Effect u a { u with generator := u.generator.act b }
  | regulate {level : α} (given : level ∈ a.values) : Effect u a (u.regulate level)
  | startWith {time level : α} (named : a = .startWith time level) :
    Effect u a (u.startWith time level)
  | advance {time : α} (named : a = .advance time) : Effect u a (u.advance time)
  | refit {v : RegulatedUnit α} (refits : u.Refits a.values v) : Effect u a v.applyEnvelope
  | refused : Effect u a u

theorem participate_effect {u : RegulatedUnit α} {a : Action α} (active : Bool)
    {up down : Option α} (hup : ∀ x ∈ up, x ∈ a.values)
    (hdown : ∀ x ∈ down, x = u.downFraction ∨ x ∈ a.values) :
    Effect u a (u.participate active up down) := by
  let fit (up down : α) : RegulatedUnit α :=
    { u with upFraction := up, downFraction := down, enabled := active }
  have given {x : α} (hx : x = u.downFraction ∨ x ∈ a.values) :
      ∃ y ∈ u.downFraction :: a.values, clamp 0 1 x = clamp 0 1 y :=
    ⟨x, List.mem_cons.mpr hx, rfl⟩
  cases up with
  | none =>
    cases down with
    | none =>
      exact .refit (v := fit u.upFraction u.downFraction) ⟨rfl, rfl, rfl, .inl rfl, .inl rfl⟩
    | some down =>
      exact .refit (v := fit u.upFraction (clamp 0 1 down))
        ⟨rfl, rfl, rfl, .inl rfl, .inr (given (hdown down rfl))⟩
  | some up =>
    have raised : ∃ y ∈ u.upFraction :: a.values, clamp 0 1 up = clamp 0 1 y :=
      ⟨up, List.mem_cons_of_mem _ (hup up rfl), rfl⟩
    cases down with
    | none =>
      exact .refit (v := fit (clamp 0 1 up) (clamp 0 1 up))
        ⟨rfl, rfl, rfl, .inr raised, .inr (given (.inr (hup up rfl)))⟩
    | some down =>
      exact .refit (v := fit (clamp 0 1 up) (clamp 0 1 down))
        ⟨rfl, rfl, rfl, .inr raised, .inr (given (hdown down rfl))⟩

theorem set_effect {u : RegulatedUnit α} {a : Action α} {setting : UnitSetting} {value : α}
    (given : value ∈ a.values)
    (passed : ∀ s, setting = .generator s → a.passedOn = some (.set s value)) :
    Effect u a (u.set setting value) := by
  have asked : ∀ x ∈ some value, x ∈ a.values := by
    intro x hx
    obtain rfl := Option.mem_some_iff.mp hx
    exact given
  cases setting with
  | generator setting => exact .pass (passed setting rfl)
  | fraction =>
    show Effect u a (u.participate u.enabled (some value) none)
    exact participate_effect u.enabled asked nofun
  | upFraction =>
    show Effect u a (u.participate u.enabled (some value) (some u.downFraction))
    refine participate_effect u.enabled asked ?_
    intro x hx
    exact .inl (Option.mem_some_iff.mp hx).symm
  | downFraction =>
    show Effect u a (u.participate u.enabled none (some value))
    exact participate_effect u.enabled nofun fun x hx => .inr (asked x hx)
  | enabled =>
    show Effect u a (u.participate (decide (0 < value)) none none)
    exact participate_effect (decide (0 < value)) nofun nofun
  | rating => exact .refit (v := { u with rating := value }) ⟨rfl, rfl, rfl, .inl rfl, .inl rfl⟩
  | max | min | ramp | rampUp | rampDown =>
    exact .refit (v := { u with physical := _ }) ⟨rfl, rfl, rfl, .inl rfl, .inl rfl⟩

/-- An action that is passed on does nothing else. -/
theorem act_of_passedOn (u : RegulatedUnit α) {a : Action α} {b : Generator.Action α}
    (passed : a.passedOn = some b) : u.act a = { u with generator := u.generator.act b } := by
  cases a with
  | set setting value =>
    cases setting <;> cases passed
    rfl
  | setKey key value =>
    show (u.setKey key value).toOption.getD u = _
    unfold RegulatedUnit.setKey
    dsimp only [Action.passedOn] at passed
    cases found : UnitSetting.ofKey? key with
    | error e =>
      rw [found] at passed
      cases passed
    | ok setting =>
      rw [found] at passed
      cases setting <;> cases passed
      rfl
  | setText key value =>
    cases passed
    show (u.setText key value).toOption.getD u =
      { u with generator := (u.generator.setText key value).toOption.getD u.generator }
    unfold RegulatedUnit.setText
    cases u.generator.setText key value <;> rfl
  | receive message => cases message <;> cases passed <;> rfl
  | _ => cases passed <;> rfl

/-- The list is complete. -/
theorem act_effect (u : RegulatedUnit α) (a : Action α) : Effect u a (u.act a) := by
  cases passed : a.passedOn with
  | some b =>
    rw [act_of_passedOn u passed]
    exact .pass passed
  | none =>
    cases a with
    | startWith time level => exact .startWith rfl
    | advance time => exact .advance rfl
    | regulate level => exact .regulate List.mem_cons_self
    | participate active up down =>
      refine participate_effect active ?_ ?_
      · intro x hx
        exact List.mem_append_left _ (Option.mem_toList.mpr hx)
      · intro x hx
        exact .inr (List.mem_append_right _ (Option.mem_toList.mpr hx))
    | set setting value =>
      refine set_effect List.mem_cons_self ?_
      rintro s rfl
      rfl
    | setKey key value =>
      show Effect u _ ((u.setKey key value).toOption.getD u)
      unfold RegulatedUnit.setKey
      cases found : UnitSetting.ofKey? key with
      | error e => exact .refused
      | ok setting =>
        refine set_effect List.mem_cons_self ?_
        rintro s rfl
        simp [Action.passedOn, found]
    | receive message =>
      cases message with
      | updateRegulationTarget level => exact .regulate List.mem_cons_self
      | _ => cases passed
    | _ => cases passed

end RegulatedUnit

end UnitDispatch
