import UnitDispatch.Proofs.StepSize
import UnitDispatch.Proofs.UnitEffect

/-! # Dispatch apart from regulation

A regulated unit writes the output it arrives at back into its generator, which goes on from there.
The output and how it last moved are all that regulation reaches: whatever is done to two generators
that differ in these alone, they go on differing in these alone. So two units that are told the same
but for their levels of regulation dispatch alike, to the last bit of a double.
-/

namespace UnitDispatch

open Quantity Exact

namespace Generator

variable {α : Type}

/-- The generator with another output, and another rate at which that last moved. -/
def withOutput (g : Generator α) (output slope : α) : Generator α := { g with output, slope }

/-- Two generators differ in nothing but their output and how it last moved. -/
def SameDispatch (g h : Generator α) : Prop := ∃ output slope, h = g.withOutput output slope

namespace SameDispatch

theorem refl (g : Generator α) : SameDispatch g g := ⟨g.output, g.slope, rfl⟩

variable {g h : Generator α}

theorem course (same : SameDispatch g h) : SameCourse g h := by
  obtain ⟨output, slope, rfl⟩ := same
  exact ⟨⟨rfl, rfl, rfl, rfl, rfl, rfl⟩, rfl, rfl, rfl, rfl, rfl, rfl, rfl⟩

theorem base [Quantity α] (same : SameDispatch g h) : h.base = g.base := by
  obtain ⟨output, slope, rfl⟩ := same
  rfl

/-- Whatever else is written into both keeps them alike. -/
theorem withOutput (same : SameDispatch g h) (a b c d : α) :
    SameDispatch (g.withOutput a b) (h.withOutput c d) := by
  obtain ⟨output, slope, rfl⟩ := same
  exact ⟨c, d, rfl⟩

theorem withOutput_right (same : SameDispatch g h) (output slope : α) :
    SameDispatch g (h.withOutput output slope) := by
  obtain ⟨_, _, rfl⟩ := same
  exact ⟨output, slope, rfl⟩

variable [Quantity α]

/-! ## Revisions -/

omit [Quantity α] in
theorem follow (same : SameDispatch g h) (leg : Leg α) :
    SameDispatch (g.follow leg) (h.follow leg) := by
  obtain ⟨output, slope, rfl⟩ := same
  exact ⟨output, slope, rfl⟩

theorem planNext (same : SameDispatch g h) : SameDispatch g.planNext h.planNext := by
  unfold Generator.planNext
  rw [same.course.nextLeg]
  exact same.follow _

theorem carry (same : SameDispatch g h) (power : α) (leg : Leg α) :
    SameDispatch (g.carry power leg) (h.carry power leg) := by
  obtain ⟨output, slope, rfl⟩ := same
  exact ⟨output, slope, rfl⟩

theorem jump (same : SameDispatch g h) (lack : α) : SameDispatch (g.jump lack) (h.jump lack) := by
  obtain ⟨output, slope, rfl⟩ := same
  exact ⟨output + lack, slope, rfl⟩

theorem settle (same : SameDispatch g h) (wanted : α) :
    SameDispatch (g.settle wanted) (h.settle wanted) := by
  have course := same.course
  unfold Generator.settle
  dsimp only
  rw [course.holdTarget, course.lack, course.catchup, course.now, course.schedule]
  split
  · exact same.planNext
  · split
    · split
      · exact same.planNext
      · exact same.carry _ _
    · exact (same.jump _).planNext
    · exact same.planNext

theorem takeDue (same : SameDispatch g h) : SameDispatch g.takeDue h.takeDue := by
  obtain ⟨output, slope, rfl⟩ := same
  exact ⟨output, slope, rfl⟩

/-- A revision does not look at the output: a jump shifts it by what it adds to the power. -/
theorem replan (same : SameDispatch g h) : SameDispatch g.replan h.replan := by
  unfold Generator.replan
  rw [same.course.schedule, same.course.now]
  split
  · exact same.planNext
  · exact same.takeDue.settle _

/-! ## Advances -/

theorem moveTo (same : SameDispatch g h) (time : α) :
    SameDispatch (g.moveTo time) (h.moveTo time) := by
  obtain ⟨output, slope, rfl⟩ := same
  unfold Generator.moveTo
  show SameDispatch (if 0 < time - g.now then _ else g)
    (if 0 < time - g.now then _ else g.withOutput output slope)
  split
  · exact ⟨_, _, rfl⟩
  · exact ⟨output, slope, rfl⟩

theorem leg (same : SameDispatch g h) : SameDispatch g.leg h.leg := by
  unfold Generator.leg
  rw [same.course.review]
  exact (same.moveTo _).replan

theorem legsTo (same : SameDispatch g h) (time : α) (fuel : Nat) :
    SameDispatch (Generator.legsTo time fuel g) (Generator.legsTo time fuel h) := by
  induction fuel generalizing g h with
  | zero => exact same
  | succ fuel ih =>
    unfold Generator.legsTo
    dsimp only
    rw [same.course.review, same.leg.course.review, same.leg.course.now]
    split
    · split
      · exact same.leg
      · exact ih same.leg
    · exact same

theorem advance (same : SameDispatch g h) (time : α) :
    SameDispatch (g.advance time) (h.advance time) := by
  unfold Generator.advance Generator.legBound
  rw [same.course.now, same.course.schedule]
  split
  · exact same
  · exact (same.legsTo time _).moveTo time

theorem start (same : SameDispatch g h) (time : α) :
    SameDispatch (g.start time) (h.start time) := by
  let ready (k : Generator α) : Generator α :=
    { k with schedule := k.schedule.dropBefore time, now := time, last := time }
  have readied : SameDispatch (ready g) (ready h) := by
    obtain ⟨output, slope, rfl⟩ := same
    exact ⟨output, slope, rfl⟩
  exact readied.replan.withOutput _ (ready g).replan.rate _ (ready h).replan.rate

/-! ## Actions on a generator -/

theorem add (same : SameDispatch g h) (time power : α) :
    SameDispatch (g.add time power) (h.add time power) := by
  let queued (k : Generator α) (review : α) : Generator α :=
    { k with schedule := k.schedule.insert ⟨time, power, false⟩, review }
  have queue (review : α) : SameDispatch (queued g review) (queued h review) := by
    obtain ⟨output, slope, rfl⟩ := same
    exact ⟨output, slope, rfl⟩
  unfold Generator.add
  dsimp only
  rw [same.course.review]
  split <;> split
  · exact (queue time).replan
  · exact queue time
  · exact (queue g.review).replan
  · exact queue g.review

theorem addNow (same : SameDispatch g h) (power : α) :
    SameDispatch (g.addNow power) (h.addNow power) := by
  unfold Generator.addNow
  rw [same.course.now]
  exact same.add _ _

theorem addAll (same : SameDispatch g h) (times powers : List α) :
    SameDispatch (g.addAll times powers) (h.addAll times powers) := by
  unfold Generator.addAll
  generalize times.zip powers = list
  induction list generalizing g h with
  | nil => exact same
  | cons p rest ih => exact ih (same.add p.1 p.2)

theorem clear (same : SameDispatch g h) : SameDispatch g.clear h.clear := by
  obtain ⟨output, slope, rfl⟩ := same
  exact ⟨output, slope, rfl⟩

/-- A change of settings that passes the output by keeps generators alike. -/
theorem change (same : SameDispatch g h) (f : Generator α → Generator α)
    (passes : ∀ k output slope, f (k.withOutput output slope) = (f k).withOutput output slope) :
    SameDispatch (f g).replan (f h).replan := by
  obtain ⟨output, slope, rfl⟩ := same
  exact replan ⟨output, slope, passes g output slope⟩

theorem set (same : SameDispatch g h) (setting : GeneratorSetting) (value : α) :
    SameDispatch (g.set setting value) (h.set setting value) := by
  cases setting with
  | target => exact same.addNow value
  | _ => exact same.change (·.assign _ value) fun _ _ _ => rfl

theorem setMode (same : SameDispatch g h) (mode : RampMode) :
    SameDispatch (g.setMode mode) (h.setMode mode) :=
  same.change ({ · with mode }) fun _ _ _ => rfl

theorem callReserve (same : SameDispatch g h) (level : α) :
    SameDispatch (g.callReserve level) (h.callReserve level) :=
  same.change (fun k => { k with reserve := k.reserve.call level }) fun _ _ _ => rfl

theorem holdReserve (same : SameDispatch g h) (available : α) :
    SameDispatch (g.holdReserve available) (h.holdReserve available) :=
  same.change (fun k => { k with reserve := k.reserve.hold available }) fun _ _ _ => rfl

theorem receive (same : SameDispatch g h) (message : Message α) :
    SameDispatch (g.receive message).1 (h.receive message).1 := by
  cases message with
  | clearTargets => exact same.clear
  | shutdown | startup | updateRegulationTarget => exact same
  | addTargets times powers => exact same.addAll times powers
  | updateTargets times powers => exact same.clear.addAll times powers
  | updateReserves available => exact same.holdReserve available
  | useReserve level => exact same.callReserve level
  | registerDispatcher source =>
    obtain ⟨output, slope, rfl⟩ := same
    exact ⟨output, slope, rfl⟩

/-- Generators that differ in nothing but their output go on so, whatever is done to both. -/
theorem act (same : SameDispatch g h) (a : Action α) : SameDispatch (g.act a) (h.act a) := by
  cases a with
  | start time => exact same.start time
  | add time power => exact same.add time power
  | addNow power => exact same.addNow power
  | addAll times powers => exact same.addAll times powers
  | clear => exact same.clear
  | callReserve level => exact same.callReserve level
  | holdReserve available => exact same.holdReserve available
  | advance time => exact same.advance time
  | set setting value => exact same.set setting value
  | setKey key value =>
    show SameDispatch ((g.setKey key value).toOption.getD g) ((h.setKey key value).toOption.getD h)
    unfold Generator.setKey
    cases GeneratorSetting.ofKey? key with
    | error => exact same
    | ok setting => exact same.set setting value
  | setMode mode => exact same.setMode mode
  | setText key value =>
    show SameDispatch ((g.setText key value).toOption.getD g)
      ((h.setText key value).toOption.getD h)
    unfold Generator.setText
    split
    · cases RampMode.ofName? value with
      | error => exact same
      | ok mode => exact same.setMode mode
    · exact same
  | setRampLimits up down =>
    exact same.change (fun k =>
      { k with envelope := { k.envelope with rampUp := up, rampDown := magnitude down } })
      fun _ _ _ => rfl
  | setPowerLimits min max =>
    exact same.change (fun k =>
      { k with envelope := { k.envelope with powerMin := min, powerMax := max } })
      fun _ _ _ => rfl
  | receive message => exact same.receive message

end SameDispatch

end Generator

namespace RegulatedUnit

variable {α : Type}

/-- Two actions are the same but for the level of regulation they come with. -/
inductive Action.SameButLevel : Action α → Action α → Prop
  | refl (a : Action α) : SameButLevel a a
  | regulate (x y : α) : SameButLevel (.regulate x) (.regulate y)
  | message (x y : α) :
    SameButLevel (.receive (.updateRegulationTarget x)) (.receive (.updateRegulationTarget y))
  | startWith (time x y : α) : SameButLevel (.startWith time x) (.startWith time y)

/-- Two units differ in nothing but their output and their regulation. -/
structure SameDispatch (u v : RegulatedUnit α) : Prop where
  generator : u.generator.SameDispatch v.generator
  physical : v.physical = u.physical
  upFraction : v.upFraction = u.upFraction
  downFraction : v.downFraction = u.downFraction
  enabled : v.enabled = u.enabled
  rating : v.rating = u.rating

namespace SameDispatch

theorem refl (u : RegulatedUnit α) : SameDispatch u u := ⟨.refl _, rfl, rfl, rfl, rfl, rfl⟩

variable [Quantity α] {u v : RegulatedUnit α}

theorem dispatchEnvelope (same : SameDispatch u v) : v.dispatchEnvelope = u.dispatchEnvelope := by
  unfold RegulatedUnit.dispatchEnvelope RegulatedUnit.regulationBase
  rw [same.enabled, same.physical, same.upFraction, same.downFraction, same.rating]

theorem applyEnvelope (same : SameDispatch u v) :
    SameDispatch u.applyEnvelope v.applyEnvelope := by
  refine ⟨?_, same.physical, same.upFraction, same.downFraction, same.enabled, same.rating⟩
  unfold RegulatedUnit.applyEnvelope
  dsimp only
  rw [same.dispatchEnvelope]
  exact same.generator.change ({ · with envelope := u.dispatchEnvelope }) fun _ _ _ => rfl

theorem participate (same : SameDispatch u v) (active : Bool) (up down : Option α) :
    SameDispatch (u.participate active up down) (v.participate active up down) := by
  unfold RegulatedUnit.participate
  rw [same.upFraction, same.downFraction]
  exact applyEnvelope ⟨same.generator, same.physical, rfl, rfl, rfl, same.rating⟩

theorem set (same : SameDispatch u v) (setting : UnitSetting) (value : α) :
    SameDispatch (u.set setting value) (v.set setting value) := by
  have generator := same.generator
  have fit (physical : Envelope α) :
      SameDispatch { u with physical }.applyEnvelope { v with physical }.applyEnvelope :=
    applyEnvelope ⟨generator, rfl, same.upFraction, same.downFraction, same.enabled, same.rating⟩
  cases setting with
  | max | min | ramp | rampUp | rampDown =>
    unfold RegulatedUnit.set
    dsimp only
    rw [same.physical]
    exact fit _
  | rating =>
    exact applyEnvelope (v := { v with rating := value })
      ⟨generator, same.physical, same.upFraction, same.downFraction, same.enabled, rfl⟩
  | generator setting =>
    exact ⟨generator.set setting value, same.physical, same.upFraction, same.downFraction,
      same.enabled, same.rating⟩
  | fraction | upFraction | downFraction | enabled =>
    simp only [RegulatedUnit.set, same.enabled, same.downFraction]
    exact same.participate _ _ _

theorem startWith (same : SameDispatch u v) (time x y : α) :
    SameDispatch (u.startWith time x) (v.startWith time y) :=
  ⟨(same.generator.start time).withOutput _ (u.generator.start time).slope _
      (v.generator.start time).slope,
    same.physical, same.upFraction, same.downFraction, same.enabled, same.rating⟩

theorem advance (same : SameDispatch u v) (time : α) :
    SameDispatch (u.advance time) (v.advance time) := by
  have moved := same.generator.advance time
  unfold RegulatedUnit.advance
  rw [same.generator.course.now]
  dsimp only
  split
  · exact ⟨moved.withOutput _ _ _ _, same.physical, same.upFraction, same.downFraction,
      same.enabled, same.rating⟩
  · exact same

/-- Units that differ in nothing but their output and regulation go on so, whatever is done to both
and whatever levels of regulation they are told. -/
theorem act (same : SameDispatch u v) {a b : Action α} (like : a.SameButLevel b) :
    SameDispatch (u.act a) (v.act b) := by
  have level (x y : α) : SameDispatch (u.regulate x) (v.regulate y) :=
    ⟨same.generator, same.physical, same.upFraction, same.downFraction, same.enabled, same.rating⟩
  cases like with
  | regulate x y | message x y => exact level x y
  | startWith time x y => exact same.startWith time x y
  | refl a =>
    cases passed : a.passedOn with
    | some b =>
      rw [act_of_passedOn u passed, act_of_passedOn v passed]
      exact ⟨same.generator.act b, same.physical, same.upFraction, same.downFraction,
        same.enabled, same.rating⟩
    | none =>
      cases a with
      | startWith time level => exact same.startWith time level level
      | advance time => exact same.advance time
      | regulate x => exact level x x
      | participate active up down => exact same.participate active up down
      | set setting value => exact same.set setting value
      | setKey key value =>
        show SameDispatch ((u.setKey key value).toOption.getD u)
          ((v.setKey key value).toOption.getD v)
        unfold RegulatedUnit.setKey
        cases UnitSetting.ofKey? key with
        | error => exact same
        | ok setting => exact same.set setting value
      | receive message =>
        cases message with
        | updateRegulationTarget x => exact level x x
        | _ => cases passed
      | _ => cases passed

/-- Along two runs that are told different levels of regulation, dispatch stays the same. -/
theorem run (same : SameDispatch u v) {as bs : List (Action α)}
    (like : List.Forall₂ Action.SameButLevel as bs) : SameDispatch (u.run as) (v.run bs) := by
  induction like generalizing u v with
  | nil => exact same
  | cons first _ ih => exact ih (same.act first)

end SameDispatch

/-- Regulation never disturbs dispatch: of two units in one state that are told the same, but for the
levels of regulation, the generators differ after every action in nothing but their output and how
it last moved. -/
theorem regulation_spares_dispatch [Quantity α] (u : RegulatedUnit α) {as bs : List (Action α)}
    (like : List.Forall₂ Action.SameButLevel as bs) (n : Nat) :
    (u.run (as.take n)).generator.SameDispatch (u.run (bs.take n)).generator :=
  ((SameDispatch.refl u).run (List.forall₂_take n like)).generator

/-- Regulation up in one unit and down in the other sets their outputs apart, while a ramp is late
and the reserve is called on. -/
theorem regulation_spares_dispatch_apart :
    let u := (idle (fin (50 : ℚ))).run [.setKey "ramp" (fin (1 / 10)),
      .participate true (some (fin (1 / 10))) none, .receive (.updateReserves 20)]
    let up : List (Action (Exact ℚ)) := [.startWith 0 8, .add 200 90, .regulate 10,
      .receive (.useReserve 15), .advance 300]
    let down : List (Action (Exact ℚ)) := [.startWith 0 (-8), .add 200 90, .regulate (-10),
      .receive (.useReserve 15), .advance 300]
    List.Forall₂ Action.SameButLevel up down ∧
      (u.run up).generator.SameDispatch (u.run down).generator ∧
      (u.run up).generator.output = 85 ∧
      (u.run down).generator.output = 65 := by
  intro u up down
  have like : List.Forall₂ Action.SameButLevel up down :=
    .cons (.startWith 0 8 (-8)) (.cons (.refl _) (.cons (.regulate 10 (-10))
      (.cons (.refl _) (.cons (.refl _) .nil))))
  exact ⟨like, regulation_spares_dispatch u like 5, by decide +kernel, by decide +kernel⟩

end RegulatedUnit

end UnitDispatch
