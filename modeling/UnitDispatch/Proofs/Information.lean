import UnitDispatch.Proofs.Resumption
import UnitDispatch.Proofs.StepSize

/-! # Settings for information

The ten- and thirty-minute ramp capabilities are read by nothing, but setting one revises the plan as
every setting does. `Drawn` says where the leg in progress was planned; a plan made anew where that
leg is resumed is the plan in progress, and then such a setting changes nothing else:
`Reaches.set_informs`.
-/

namespace UnitDispatch

open Quantity Exact

/-- Whether a setting is for information only. -/
def GeneratorSetting.informs : GeneratorSetting → Bool
  | ramp10 | ramp10Up | ramp10Down | ramp30 | ramp30Up | ramp30Down => true
  | _ => false

namespace Generator

variable {K : Type} [Field K] [LinearOrder K] {g h : Generator (Exact K)} {n l c ρ : K}

/-! ## The same delivery -/

/-- Two generators differ in nothing that dispatch looks at. -/
structure SameDelivery (g h : Generator (Exact K)) : Prop extends SameCourse g h where
  output : h.output = g.output
  realized : h.reserve.realized = g.reserve.realized

theorem sameDelivery_assign {setting : GeneratorSetting} (informs : setting.informs = true)
    (g : Generator (Exact K)) (value : Exact K) : SameDelivery g (g.assign setting value) := by
  cases setting with
  | ramp10 | ramp10Up | ramp10Down | ramp30 | ramp30Up | ramp30Down =>
    exact ⟨⟨⟨rfl, rfl, rfl, rfl, rfl, rfl⟩, rfl, rfl, rfl, rfl, rfl, rfl, rfl⟩, rfl, rfl⟩
  | _ => cases informs

theorem settle_output (same : SameCourse g h) (output : h.output = g.output)
    (wanted : Exact K) : (h.settle wanted).output = (g.settle wanted).output := by
  unfold Generator.settle
  dsimp only
  rw [same.holdTarget, same.lack, same.catchup, same.now, same.schedule]
  split
  · exact output
  · split
    · split <;> exact output
    · exact congrArg (· + _) output
    · exact output

theorem SameDelivery.replan (same : SameDelivery g h) : SameDelivery g.replan h.replan := by
  refine ⟨same.toSameCourse.replan, ?_, ?_⟩
  · unfold Generator.replan
    rw [same.schedule, same.now]
    split
    · exact same.output
    · exact settle_output same.toSameCourse.takeDue same.output _
  · rw [(replan_samePlant g).reserve, (replan_samePlant h).reserve]
    exact same.realized

theorem SameDelivery.moveTo (same : SameDelivery g h) (time : Exact K) :
    SameDelivery (g.moveTo time) (h.moveTo time) := by
  have course := same.toSameCourse
  refine ⟨course.moveTo time, ?_, ?_⟩ <;> unfold Generator.moveTo <;> dsimp only <;>
    rw [same.now, course.reserveAfter same.realized]
  · rw [course.committedAfter]
    split
    · simp only [Generator.overlay, same.output, same.committed, same.realized]
    · exact same.output
  · split
    · rfl
    · exact same.realized

theorem SameDelivery.legsTo (same : SameDelivery g h) (time : Exact K) (fuel : Nat) :
    SameDelivery (Generator.legsTo time fuel g) (Generator.legsTo time fuel h) := by
  induction fuel generalizing g h with
  | zero => exact same
  | succ fuel ih =>
    have leg : SameDelivery g.leg h.leg := by
      unfold Generator.leg
      rw [same.review]
      exact (same.moveTo _).replan
    unfold Generator.legsTo
    dsimp only
    rw [same.review, leg.review, leg.now]
    split
    · split
      · exact leg
      · exact ih leg
    · exact same

/-- What looks the same is advanced alike. -/
theorem SameDelivery.advance (same : SameDelivery g h) (time : Exact K) :
    SameDelivery (g.advance time) (h.advance time) := by
  unfold Generator.advance Generator.legBound
  rw [same.now, same.schedule]
  split
  · exact same
  · exact (same.legsTo time _).moveTo time

theorem SameDelivery.foldl_advance (same : SameDelivery g h) (times : List (Exact K)) :
    SameDelivery (times.foldl Generator.advance g) (times.foldl Generator.advance h) := by
  induction times generalizing g h with
  | nil => exact same
  | cons time times ih => exact ih (same.advance time)

/-! ## Where the leg in progress was planned -/

/-- The leg that would be planned at another time, with another power and at another rate. -/
def legFrom (g : Generator (Exact K)) (now committed rate : Exact K) : Leg (Exact K) :=
  Generator.nextLeg { g with now, committed, rate }

/-- The leg in progress: planned at some time by the mode, or a ramp of the generator's own. -/
inductive DrawnAt (g : Generator (Exact K)) (n l c ρ : K) : Prop
  | planned (n₀ ρ₀ : K) (last : l ≤ n₀) (since : n₀ ≤ n)
      (leg : g.legFrom (fin n₀) (fin (c - ρ * (n - n₀))) (fin ρ₀) = ⟨fin ρ, g.review⟩)
  | own {q : Setpoint (Exact K)} {r w : K} (mem : q ∈ g.schedule.setpoints)
      (carried : q.carried = true) (time : q.time = g.review) (review : g.review = fin r)
      (held : g.holdTarget q.power = fin w) (arrives : ρ * (r - n) = w - c)

/-- Where the generator stands, and where its leg was planned. -/
def Drawn (g : Generator (Exact K)) : Prop := ∃ n l c ρ, g.At n l c ρ ∧ g.DrawnAt n l c ρ

theorem Drawn.drawnAt (drawn : g.Drawn) (stands : g.At n l c ρ) : g.DrawnAt n l c ρ := by
  obtain ⟨n', l', c', ρ', stands', drawn⟩ := drawn
  obtain rfl := fin.inj (stands'.now.symm.trans stands.now)
  obtain rfl := fin.inj (stands'.last.symm.trans stands.last)
  obtain rfl := fin.inj (stands'.committed.symm.trans stands.committed)
  obtain rfl := fin.inj (stands'.rate.symm.trans stands.rate)
  exact drawn

theorem nextLeg_congr (same : SameSettings g h) (first : h.schedule.first? = g.schedule.first?)
    (now : h.now = g.now) (last : h.last = g.last) (committed : h.committed = g.committed)
    (rate : h.rate = g.rate) : h.nextLeg = g.nextLeg := by
  simp only [nextLeg, first, now, last, committed, rate, same.holdTarget, same.rampLimitUp,
    same.mode, same.envelope, same.rampTime]

theorem legFrom_congr (same : SameSettings g h) (first : h.schedule.first? = g.schedule.first?)
    (last : h.last = g.last) (now committed rate : Exact K) :
    h.legFrom now committed rate = g.legFrom now committed rate :=
  nextLeg_congr ⟨same.envelope, same.rampTime, same.mode, same.available, same.requested,
    same.reserveRampTime⟩ first rfl last rfl rfl

theorem drawn_planNext (stands : g.At n l c ρ) (last : l ≤ n) {v : K}
    (rate : g.planNext.rate = fin v) : g.planNext.Drawn := by
  refine ⟨n, l, c, v, ⟨stands.now, stands.last, stands.committed, rate⟩,
    .planned n ρ last le_rfl ?_⟩
  rw [sub_self, mul_zero, sub_zero, ← rate, ← stands.now, ← stands.committed, ← stands.rate]
  rfl

section Ordered

variable [IsStrictOrderedRing K]

/-- A revision draws the leg anew. -/
theorem Orderly.drawn_replan (orderly : g.Orderly n l c ρ) (workable : g.Workable) :
    g.replan.Drawn := by
  have revises := replan_revises orderly.regular workable.proper orderly.stands
  have later := orderly.regular.takeDue_ahead
  obtain ⟨l', taken⟩ := orderly.takeDue
  generalize g.replan = h at revises ⊢
  cases revises with
  | ahead ahead =>
    obtain ⟨v, course⟩ := orderly.planNext workable ahead
    exact drawn_planNext orderly.stands orderly.last course.stands.rate
  | next =>
    obtain ⟨v, course⟩ := taken.planNext workable.takeDue later
    exact drawn_planNext taken.stands taken.last course.stands.rate
  | @carry p w v due held lead rate free =>
    refine ⟨n, l', c, v, (taken.carry later (holdTarget_fin held) lead free).stands,
      .own (q := ⟨fin (n + (w - c) / v), fin w, true⟩) (Schedule.mem_insert.mpr (.inl rfl)) rfl rfl
        rfl (holdTarget_fin held) ?_⟩
    rw [add_sub_cancel_left, mul_div_cancel₀ _ (left_ne_zero_of_mul lead.ne')]
  | @jump p w =>
    have moved := taken.jump (w - c)
    obtain ⟨v, course⟩ := moved.planNext (workable.takeDue.jump _) later
    exact drawn_planNext moved.stands moved.last course.stands.rate

/-- A move along the leg does not draw it anew. -/
theorem Drawn.moveTo (drawn : g.Drawn) (stands : g.At n l c ρ) {t : K} (ht : n ≤ t) :
    (g.moveTo (fin t)).Drawn := by
  have same := moveTo_sameSettings g (fin t)
  have schedule := moveTo_schedule g (fin t)
  have review := moveTo_review g (fin t)
  refine ⟨t, l, _, ρ, stands.moveTo ht, ?_⟩
  cases drawn.drawnAt stands with
  | planned n₀ ρ₀ last since leg =>
    refine .planned n₀ ρ₀ last (since.trans ht) ?_
    rw [legFrom_congr same (by rw [schedule]) (moveTo_last g _), review, ← leg]
    congr 2
    ring
  | @own q r w mem carried time arrival held arrives =>
    refine .own (q := q) (schedule ▸ mem) carried (review ▸ time) (review.trans arrival)
      ((same.holdTarget _).trans held) ?_
    have parts : ρ * (r - n) = ρ * (t - n) + ρ * (r - t) := by ring
    linarith

omit [IsStrictOrderedRing K] in
theorem Drawn.congr (drawn : g.Drawn) (settings : SameSettings g h) (state : SameState g h) :
    h.Drawn := by
  obtain ⟨n, l, c, ρ, stands, drawn⟩ := drawn
  refine ⟨n, l, c, ρ, ⟨state.now.trans stands.now, state.last.trans stands.last,
    state.committed.trans stands.committed, state.rate.trans stands.rate⟩, ?_⟩
  cases drawn with
  | planned n₀ ρ₀ last since leg =>
    refine .planned n₀ ρ₀ last since ?_
    rw [legFrom_congr settings (by rw [state.schedule]) state.last, state.review, leg]
  | @own q r w mem carried time arrival held arrives =>
    exact .own (q := q) (state.schedule ▸ mem) carried (state.review ▸ time)
      (state.review.trans arrival) ((settings.holdTarget _).trans held) arrives

theorem keptByLegs_drawn (g : Generator (Exact K)) (t : K) : KeptByLegs g t Drawn where
  move := fun _ course _ drawn before _ _ => drawn.moveTo course.stands before.le
  replan := fun _ ready workable _ _ => ready.toOrderly.drawn_replan workable

/-! ## What is queued -/

/-- None of what is to be queued falls due after the review and before the first setpoint. -/
def ClearOfLeg (g : Generator (Exact K)) : List (Exact K × Exact K) → Prop
  | [] => True
  | (time, power) :: rest =>
    (time ≤ g.review ∨ ∀ head ∈ g.schedule.first?, head.time ≤ time) ∧
      (g.add time power).ClearOfLeg rest

/-- No setpoint that an action queues falls due after the review and before the first setpoint. -/
def SparesLeg (g : Generator (Exact K)) : Action (Exact K) → Prop
  | .add time power => g.ClearOfLeg [(time, power)]
  | .addAll times powers | .receive (.addTargets times powers) => g.ClearOfLeg (times.zip powers)
  | .receive (.updateTargets times powers) => g.clear.ClearOfLeg (times.zip powers)
  | _ => True

instance decidableClearOfLeg : (g : Generator (Exact K)) → (list : List (Exact K × Exact K)) →
    Decidable (g.ClearOfLeg list)
  | _, [] => isTrue trivial
  | g, (time, power) :: rest =>
    have := decidableClearOfLeg (g.add time power) rest
    inferInstanceAs (Decidable ((time ≤ g.review ∨ ∀ head ∈ g.schedule.first?, head.time ≤ time) ∧
      (g.add time power).ClearOfLeg rest))

instance (g : Generator (Exact K)) : (a : Action (Exact K)) → Decidable (g.SparesLeg a)
  | .add time power => decidableClearOfLeg g [(time, power)]
  | .addAll times powers => decidableClearOfLeg g (times.zip powers)
  | .receive message => match message with
    | .addTargets times powers => decidableClearOfLeg g (times.zip powers)
    | .updateTargets times powers => decidableClearOfLeg g.clear (times.zip powers)
    | .clearTargets | .updateReserves _ | .useReserve _ | .registerDispatcher _ | .shutdown
    | .startup | .updateRegulationTarget _ => isTrue trivial
  | .start _ | .addNow _ | .clear | .callReserve _ | .holdReserve _ | .advance _ | .set _ _
  | .setKey _ _ | .setMode _ | .setText _ _ | .setRampLimits _ _ | .setPowerLimits _ _ =>
    isTrue trivial

omit [IsStrictOrderedRing K] in
theorem Workable.queue (workable : g.Workable) {q : Setpoint (Exact K)}
    (held : isFinite (g.holdTarget q.power) = true) (review : Exact K) :
    Workable { g with schedule := g.schedule.insert q, review } := by
  refine workable.of_same ⟨rfl, rfl, rfl, rfl, rfl, rfl⟩ ?_
  intro x hx
  rcases Schedule.mem_insert.mp hx with rfl | hx
  · exact held
  · exact workable.targets x hx

theorem Drawn.add (drawn : g.Drawn) (course : g.OnCourse n l c ρ) (workable : g.Workable)
    {time power : Exact K} (finite : isFinite time = true)
    (held : isFinite (g.holdTarget power) = true)
    (spares : time ≤ g.review ∨ ∀ head ∈ g.schedule.first?, head.time ≤ time) :
    (g.add time power).Drawn := by
  have revised (review : Exact K) :
      Drawn (replan { g with schedule := g.schedule.insert ⟨time, power, false⟩, review }) :=
    (course.toOrderly.queue (q := ⟨time, power, false⟩) finite review).drawn_replan
      (workable.queue held review)
  obtain ⟨t, rfl⟩ := isFinite_iff.mp finite
  unfold Generator.add
  dsimp only
  by_cases before : fin t < g.review
  · rw [if_pos before, if_pos (by simp)]
    exact revised (fin t)
  · rw [if_neg before]
    split
    · exact revised g.review
    next apart =>
      have first : (g.schedule.insert ⟨fin t, power, false⟩).first? = g.schedule.first? := by
        cases course.heading with
        | rest _ _ review => exact (before (review ▸ fin_lt_posInf t)).elim
        | @leg r w underway =>
          rw [underway.review] at before apart spares
          obtain ⟨head, first⟩ := Option.ne_none_iff_exists'.mp
            (mt Schedule.first?_eq_none_iff.mp underway.nonempty)
          rw [first]
          refine course.sorted.first?_insert first (spares.resolve_left ?_ head first)
          intro le
          exact apart (by simp [le_antisymm (fin_le.mp le) (not_lt.mp before)])
      refine ⟨n, l, c, ρ, (course.toOrderly.queue finite g.review).stands, ?_⟩
      cases drawn.drawnAt course.stands with
      | planned n₀ ρ₀ last since leg =>
        refine .planned n₀ ρ₀ last since ?_
        rw [legFrom_congr (g := g)
          (h := { g with schedule := g.schedule.insert ⟨fin t, power, false⟩ })
          ⟨rfl, rfl, rfl, rfl, rfl, rfl⟩ first rfl, leg]
      | @own q r w mem carried time arrival held arrives =>
        exact .own (q := q) (Schedule.mem_insert.mpr (.inr mem)) carried time arrival held arrives

/-- Setpoints that spare the leg in progress leave it drawn. -/
theorem Drawn.addAll (drawn : g.Drawn) {g₀ : Generator (Exact K)}
    (going : Going g₀ (fun _ => True) g) {list : List (Exact K × Exact K)}
    (suits : ∀ p ∈ list, isFinite p.1 = true ∧ isFinite (g₀.holdTarget p.2) = true)
    (spares : g.ClearOfLeg list) : (list.foldl (fun g p => g.add p.1 p.2) g).Drawn := by
  induction list generalizing g with
  | nil => exact drawn
  | cons p rest ih =>
    obtain ⟨time, held⟩ := suits p List.mem_cons_self
    obtain ⟨here, later⟩ := spares
    obtain ⟨n, l, c, ρ, course⟩ := going.course
    refine ih (drawn.add course going.workable time ?_ here)
      (going.add (keptByPlans_true g₀) time held) ?_ later
    · rwa [going.same.holdTarget]
    · intro q hq
      exact suits q (List.mem_cons_of_mem p hq)

omit [IsStrictOrderedRing K] in
theorem drawn_clear (orderly : g.Orderly n l c ρ) : g.clear.Drawn := by
  refine ⟨n, l, c, 0, orderly.clear.stands, .planned n 0 orderly.last le_rfl ?_⟩
  unfold legFrom
  rw [nextLeg_idle (Schedule.setpoints_clear g.schedule), zero_eq]
  rfl

/-! ## Every history -/

section Actions

variable (drawn : g.Drawn) (course : g.OnCourse n l c ρ) (workable : g.Workable)

include drawn course workable

omit drawn in
theorem OnCourse.drawn_start {t : Exact K} (time : isFinite t = true) : (g.start t).Drawn := by
  obtain ⟨t, rfl⟩ := isFinite_iff.mp time
  have settings : SameSettings g
      { g with schedule := g.schedule.dropBefore (fin t), now := fin t, last := fin t } :=
    ⟨rfl, rfl, rfl, rfl, rfl, rfl⟩
  have able := workable.of_same settings fun p hp =>
    workable.targets p (Schedule.mem_of_mem_dropBefore hp)
  exact ((course.toOrderly.restart t).drawn_replan able).congr ⟨rfl, rfl, rfl, rfl, rfl, rfl⟩
    ⟨rfl, rfl, rfl, rfl, rfl, rfl, rfl, rfl⟩

theorem Drawn.advance {t : Exact K} (time : isFinite t = true) : (g.advance t).Drawn := by
  obtain ⟨t, rfl⟩ := isFinite_iff.mp time
  obtain ⟨-, -, -, -, still⟩ := course.advance workable (keptByLegs_drawn g t) drawn
  exact still

theorem Drawn.addNow {power : Exact K} (held : isFinite (g.holdTarget power) = true) :
    (g.addNow power).Drawn := by
  refine drawn.add course workable ?_ held (.inl (le_of_lt course.now_lt_review))
  rw [course.stands.now]
  exact isFinite_fin n

omit drawn workable in
theorem OnCourse.drawn_configure {a : Action (Exact K)} (change : g.configure a = some h)
    (after : h.replan.Workable) : h.replan.Drawn := by
  have state := configure_sameState change
  have ahead : ∀ p ∈ h.schedule.setpoints, h.now < p.time := by
    rw [state.schedule, state.now]
    exact course.ahead
  refine (course.toOrderly.configure change).drawn_replan ?_
  rw [replan_of_ahead ahead] at after
  exact after.of_same ⟨rfl, rfl, rfl, rfl, rfl, rfl⟩ after.targets

theorem Drawn.set {a : Action (Exact K)} {setting : GeneratorSetting} {value : Exact K}
    (held : setting = .target → isFinite (g.holdTarget value) = true)
    (change : g.configure a = g.reassign value setting) (after : (g.set setting value).Workable) :
    (g.set setting value).Drawn := by
  cases setting with
  | target => exact drawn.addNow course workable (held rfl)
  | _ => exact course.drawn_configure change after

theorem Drawn.setKey {key : String} {value : Exact K}
    (held : GeneratorSetting.ofKey? key = .ok .target → isFinite (g.holdTarget value) = true)
    (after : ((g.setKey key value).toOption.getD g).Workable) :
    ((g.setKey key value).toOption.getD g).Drawn := by
  unfold Generator.setKey at after ⊢
  cases found : GeneratorSetting.ofKey? key with
  | error e => exact drawn
  | ok setting =>
    rw [found] at after
    refine drawn.set course workable (a := .set setting value) ?_ rfl after
    rintro rfl
    exact held found

omit workable in
theorem Drawn.setText {key value : String}
    (after : ((g.setText key value).toOption.getD g).Workable) :
    ((g.setText key value).toOption.getD g).Drawn := by
  unfold Generator.setText at after ⊢
  split at after
  next named =>
    rw [if_pos named]
    cases found : RampMode.ofName? value with
    | error e => exact drawn
    | ok mode =>
      rw [found] at after
      exact course.drawn_configure (a := .setMode mode) rfl after
  next other =>
    rw [if_neg other]
    exact drawn

/-- An action that spares the leg in progress leaves a generator with a leg that was drawn. -/
theorem Drawn.act {a : Action (Exact K)} (suits : g.Suits a) (spares : g.SparesLeg a)
    (after : (g.act a).Workable) : (g.act a).Drawn := by
  have going : Going g (fun _ => True) g := ⟨⟨n, l, c, ρ, course⟩, workable, .refl g, trivial⟩
  -- the setpoints of a list are due at times and ask for powers that the action names
  have finite {times powers : List (Exact K)}
      (times_finite : ∀ t ∈ (times.zip powers).map Prod.fst, isFinite t = true)
      (powers_finite : ∀ p ∈ (times.zip powers).map Prod.snd, isFinite (g.holdTarget p) = true) :
      ∀ p ∈ times.zip powers, isFinite p.1 = true ∧ isFinite (g.holdTarget p.2) = true :=
    fun p hp => ⟨times_finite _ (List.mem_map_of_mem hp), powers_finite _ (List.mem_map_of_mem hp)⟩
  cases a with
  | start time => exact course.drawn_start workable (suits.times _ List.mem_cons_self)
  | advance time => exact drawn.advance course workable (suits.times _ List.mem_cons_self)
  | add time power =>
    exact drawn.add course workable (suits.times _ List.mem_cons_self)
      (suits.powers _ List.mem_cons_self) spares.1
  | addNow power => exact drawn.addNow course workable (suits.powers _ List.mem_cons_self)
  | addAll times powers => exact drawn.addAll going (finite suits.times suits.powers) spares
  | clear => exact drawn_clear course.toOrderly
  | set setting value =>
    refine drawn.set course workable (a := .set setting value) ?_ rfl after
    rintro rfl
    exact suits.powers _ List.mem_cons_self
  | setKey key value =>
    refine drawn.setKey course workable (fun found => suits.powers _ ?_) after
    simp [Action.powers, GeneratorSetting.asked, found, Except.toOption]
  | setText key value => exact drawn.setText course after
  | receive message =>
    cases message with
    | clearTargets => exact drawn_clear course.toOrderly
    | addTargets times powers =>
      exact drawn.addAll going (finite suits.times suits.powers) spares
    | updateTargets times powers =>
      exact (drawn_clear course.toOrderly).addAll (going.clear (keptByPlans_true g))
        (finite suits.times suits.powers) spares
    | updateReserves available =>
      exact course.drawn_configure (a := .receive (.updateReserves available)) rfl after
    | useReserve level =>
      exact course.drawn_configure (a := .receive (.useReserve level)) rfl after
    | registerDispatcher source =>
      exact drawn.congr ⟨rfl, rfl, rfl, rfl, rfl, rfl⟩ ⟨rfl, rfl, rfl, rfl, rfl, rfl, rfl, rfl⟩
    | shutdown | startup | updateRegulationTarget level => exact drawn
  | callReserve level => exact course.drawn_configure (a := .callReserve level) rfl after
  | holdReserve available => exact course.drawn_configure (a := .holdReserve available) rfl after
  | setMode mode => exact course.drawn_configure (a := .setMode mode) rfl after
  | setRampLimits up down => exact course.drawn_configure (a := .setRampLimits up down) rfl after
  | setPowerLimits min max =>
    exact course.drawn_configure (a := .setPowerLimits min max) rfl after

end Actions

/-- The leg in progress of every generator with a history that spares its legs was drawn. -/
theorem Reaches.drawn {o : K}
    (reaches : Reaches Workable (fun g a => g.Suits a ∧ g.SparesLeg a) (idle (fin o)) g) :
    g.Drawn ∧ ∃ n l c ρ, g.OnCourse n l c ρ := by
  induction reaches with
  | start =>
    refine ⟨⟨0, 0, o, 0, (idle_onCourse o).stands, .planned 0 0 le_rfl le_rfl ?_⟩,
      0, 0, o, 0, idle_onCourse o⟩
    unfold legFrom
    rw [nextLeg_idle rfl, zero_eq]
    rfl
  | @act g a reaches suits after ih =>
    obtain ⟨drawn, n, l, c, ρ, course⟩ := ih
    have still := course.act reaches.holds suits.1 after (keptByPlans_true g) trivial fun _ => trivial
    exact ⟨drawn.act course reaches.holds suits.1 suits.2 after, still.1⟩

end Ordered

/-! ## Where the leg in progress is resumed -/

/-- The approach to a setpoint from where the generator stands. -/
def approach (g : Generator (Exact K)) (head : Setpoint (Exact K)) : Approach (Exact K) where
  now := g.now
  last := g.last
  due := head.time
  delta := g.holdTarget head.power - g.committed
  rate := g.rate
  limitUp := g.rampLimitUp
  limitDown := g.envelope.rampDown
  rampTime := g.rampTime

/-- A plan made anew is the one in progress, which makes for the setpoint `head`. -/
structure ResumesToward (g : Generator (Exact K)) (head : Setpoint (Exact K)) : Prop where
  /-- What is left within the tolerance is rested on. -/
  apart : g.rate = 0 ∨ ¬ magnitude (g.approach head).delta < tolerance
  /-- A ramp of the generator's own makes for the same power, within the limits, and the mode resumes
  it. -/
  own : ∀ q ∈ g.schedule.setpoints, q.carried = true → q.time = g.review →
    g.holdTarget q.power = g.holdTarget head.power ∧ g.rate ≤ g.rampLimitUp ∧
      (g.approach head).ResumesOwn g.mode
  /-- The mode resumes what it planned. -/
  planned : (∀ q ∈ g.schedule.setpoints, q.carried = true → q.time ≠ g.review) →
    (g.approach head).Resumes g.review g.mode

/-- A plan made anew is the one in progress. -/
def Resumes (g : Generator (Exact K)) : Prop := ∀ head ∈ g.schedule.first?, g.ResumesToward head

instance (g : Generator (Exact K)) (head : Setpoint (Exact K)) :
    Decidable (g.ResumesToward head) :=
  decidable_of_iff
    ((g.rate = 0 ∨ ¬ magnitude (g.approach head).delta < tolerance) ∧
      (∀ q ∈ g.schedule.setpoints, q.carried = true → q.time = g.review →
        g.holdTarget q.power = g.holdTarget head.power ∧ g.rate ≤ g.rampLimitUp ∧
          (g.approach head).ResumesOwn g.mode) ∧
      ((∀ q ∈ g.schedule.setpoints, q.carried = true → q.time ≠ g.review) →
        (g.approach head).Resumes g.review g.mode))
    ⟨fun ⟨a, o, p⟩ => ⟨a, o, p⟩, fun ⟨a, o, p⟩ => ⟨a, o, p⟩⟩

instance (g : Generator (Exact K)) : Decidable g.Resumes :=
  inferInstanceAs (Decidable (∀ head ∈ g.schedule.first?, g.ResumesToward head))

section Ordered

variable [IsStrictOrderedRing K]

omit [IsStrictOrderedRing K] in
theorem approach_eq {head : Setpoint (Exact K)} {d w : K} (stands : g.At n l c ρ)
    (time : head.time = fin d) (held : g.holdTarget head.power = fin w) :
    g.approach head =
      .between n l d (w - c) ρ g.rampLimitUp g.envelope.rampDown g.rampTime := by
  unfold approach
  rw [stands.now, stands.last, time, held, stands.committed, stands.rate, fin_sub]
  rfl

omit [IsStrictOrderedRing K] in
/-- Nothing on the schedule is due before the review. -/
theorem OnCourse.review_le (course : g.OnCourse n l c ρ) {p : Setpoint (Exact K)}
    (mem : p ∈ g.schedule.setpoints) {d r : K} (time : p.time = fin d) (review : g.review = fin r) :
    r ≤ d := by
  cases course.heading with
  | rest empty =>
    rw [empty] at mem
    exact (List.not_mem_nil mem).elim
  | @leg r' w underway =>
    obtain rfl := fin.inj (underway.review.symm.trans review)
    exact fin_le.mp (time ▸ underway.first p mem)

/-- A plan that is made again part of the way is the same plan, where the mode resumes it and what
is left is rested on only by a generator at rest. -/
theorem plan_again (mode : RampMode) {n₀ d w ρ₀ : K} {limitUp limitDown rampTime review : Exact K}
    (hu : 0 ≤ limitUp) (hd : 0 ≤ limitDown) (ht : 0 ≤ rampTime) (last : l ≤ n₀) (since : n₀ ≤ n)
    (later : n < d) (before : fin n < review) (apart : |w - c| < 1 / 10 ^ 4 → ρ = 0)
    (resumes : (Approach.between n l d (w - c) ρ limitUp limitDown rampTime).Resumes review mode)
    (leg : (if |w - (c - ρ * (n - n₀))| < 1 / 10 ^ 4 then ⟨0, fin d⟩
      else mode.leg (.between n₀ l d (w - (c - ρ * (n - n₀))) ρ₀ limitUp limitDown rampTime)) =
        (⟨fin ρ, review⟩ : Leg (Exact K))) :
    (if |w - c| < 1 / 10 ^ 4 then ⟨0, fin d⟩
      else mode.leg (.between n l d (w - c) ρ limitUp limitDown rampTime)) =
        (⟨fin ρ, review⟩ : Leg (Exact K)) := by
  have missing : w - c = w - (c - ρ * (n - n₀)) - ρ * (n - n₀) := by ring
  split at leg
  next near =>
    obtain ⟨still, review⟩ := Leg.mk.inj leg
    obtain rfl : 0 = ρ := fin.inj (zero_eq.symm.trans still)
    rw [zero_mul, sub_zero] at near
    rw [if_pos near, review, zero_eq]
  next far =>
    have moving : ¬ |w - c| < 1 / 10 ^ 4 := by
      intro near
      rw [apart near, zero_mul, sub_zero] at far
      exact far near
    obtain ⟨v, r, leg', kept, -⟩ := mode.leg_kept ρ₀ hu hd ht last (since.trans_lt later)
      (ne_zero_of_apart far)
    obtain ⟨rate, rfl⟩ := Leg.mk.inj (leg.symm.trans leg')
    obtain rfl : ρ = v := fin.inj rate
    rw [if_neg moving]
    rw [missing] at resumes ⊢
    exact mode.leg_resumes hu hd ht last (since.trans_lt later) (ne_zero_of_apart far) leg' since
      (fin_lt.mp before) resumes

/-- Where the leg in progress is resumed, it is the leg that would be planned. -/
theorem OnCourse.nextLeg_resumes (course : g.OnCourse n l c ρ) (drawn : g.DrawnAt n l c ρ)
    (workable : g.Workable) (resumes : g.Resumes) : g.nextLeg = ⟨g.rate, g.review⟩ := by
  have limits := workable.toLimitsNonneg
  cases first : g.schedule.first? with
  | none =>
    have empty := Schedule.first?_eq_none_iff.mp first
    rw [nextLeg_idle empty, zero_eq, course.stands.rate]
    cases course.heading with
    | rest _ still review => rw [still, review]
    | leg underway => exact (underway.nonempty empty).elim
  | some head =>
    have mem := Schedule.mem_of_first? first
    obtain ⟨d, w, time, held, later⟩ :=
      course.regular.head workable.proper course.stands course.ahead first
    obtain ⟨apart, own, planned⟩ := resumes head first
    have apart : |w - c| < 1 / 10 ^ 4 → ρ = 0 := by
      intro near
      rw [approach_eq course.stands time held, course.stands.rate, zero_eq] at apart
      refine fin.inj (apart.resolve_right (not_not_intro ?_))
      rw [tolerance_eq]
      exact fin_lt.mpr near
    -- a ramp of the generator's own that ends at the review ends as the setpoint falls due
    have together {q : Setpoint (Exact K)} (hq : q ∈ g.schedule.setpoints)
        (at_ : q.time = g.review) : g.review = fin d := by
      obtain ⟨r, review⟩ := isFinite_iff.mp (at_ ▸ course.times q hq)
      have le := course.sorted.first?_le first (course.times head mem) hq
      rw [time, at_, review, fin_le] at le
      rw [review, le_antisymm (course.review_le mem time review) le]
    rw [nextLeg_eq course.stands first time held, course.stands.rate]
    cases drawn with
    | planned n₀ ρ₀ last since leg =>
      have stands : At { g with
          now := fin n₀, committed := fin (c - ρ * (n - n₀)), rate := fin ρ₀ } n₀ l
          (c - ρ * (n - n₀)) ρ₀ := ⟨rfl, course.stands.last, rfl, rfl⟩
      unfold legFrom at leg
      rw [nextLeg_eq stands first time held] at leg
      refine plan_again g.mode limits.limitUp limits.rampDown limits.rampTime last since later
        (course.stands.now ▸ course.now_lt_review) apart ?_ leg
      by_cases ends : ∃ q ∈ g.schedule.setpoints, q.carried = true ∧ q.time = g.review
      · obtain ⟨q, hq, -, at_⟩ := ends
        rw [together hq at_]
        exact Approach.resumes_of_due rfl
      · rw [← approach_eq course.stands time held]
        exact planned fun q hq carried at_ => ends ⟨q, hq, carried, at_⟩
    | @own q r w' hq carried at_ review held' arrives =>
      obtain rfl : r = d := fin.inj (review.symm.trans (together hq at_))
      obtain ⟨same, up, resumes⟩ := own q hq carried at_
      obtain rfl : w' = w := fin.inj (held'.symm.trans (same.trans held))
      split
      next near => rw [apart near, review, zero_eq]
      next far =>
        rw [approach_eq course.stands time held, ← arrives] at resumes
        rw [course.stands.rate] at up
        rw [← arrives, review]
        exact g.mode.leg_resumes_own limits.limitUp limits.rampDown limits.rampTime later up
          (course.stands.rate ▸ course.rated.down) resumes

/-- Where the leg in progress is resumed, a revision changes nothing. -/
theorem OnCourse.replan_resumes (course : g.OnCourse n l c ρ) (drawn : g.Drawn)
    (workable : g.Workable) (resumes : g.Resumes) : g.replan = g := by
  rw [replan_of_ahead course.ahead]
  unfold planNext
  rw [course.nextLeg_resumes (drawn.drawnAt course.stands) workable resumes]
  rfl

/-- A setting for information revises the plan and changes nothing else: schedule, power and output
stay, whatever was done before. Where every action spared the leg in progress and that leg is
resumed, rate and review stay too, and every series of advances arrives at the same power and
output. -/
theorem Reaches.set_informs {o : K} (reaches : Reaches Workable Suits (idle (fin o)) g)
    {setting : GeneratorSetting} (informs : setting.informs = true) (value : Exact K) :
    ((g.set setting value).schedule = g.schedule ∧ (g.set setting value).committed = g.committed ∧
      (g.set setting value).output = g.output ∧ (g.set setting value).consumed = g.consumed) ∧
    (Reaches Workable (fun g a => g.Suits a ∧ g.SparesLeg a) (idle (fin o)) g → g.Resumes →
      (g.set setting value).rate = g.rate ∧ (g.set setting value).review = g.review ∧
      ∀ times : List (Exact K),
        (times.foldl Generator.advance (g.set setting value)).committed =
          (times.foldl Generator.advance g).committed ∧
        (times.foldl Generator.advance (g.set setting value)).output =
          (times.foldl Generator.advance g).output) := by
  have same := sameDelivery_assign informs g value
  have set : g.set setting value = (g.assign setting value).replan := by
    cases setting with
    | target => cases informs
    | _ => rfl
  rw [set]
  constructor
  · obtain ⟨n, l, c, ρ, course⟩ := reaches.onCourse
    have ahead : ∀ p ∈ (g.assign setting value).schedule.setpoints,
        (g.assign setting value).now < p.time := by
      rw [same.schedule, same.now]
      exact course.ahead
    rw [replan_of_ahead ahead]
    exact ⟨same.schedule, same.committed, same.output, same.consumed⟩
  · intro spares resumes
    obtain ⟨drawn, n, l, c, ρ, course⟩ := spares.drawn
    have still := same.replan
    rw [course.replan_resumes drawn reaches.holds resumes] at still
    exact ⟨still.rate, still.review, fun times =>
      ⟨(still.foldl_advance times).committed, (still.foldl_advance times).output⟩⟩

/-- In the middle of a delayed ramp that the ramp time does not stretch. -/
theorem set_informs_unstretched :
    let g := (idle (fin (0 : ℚ))).run [.setRampLimits (fin 1) (fin 1), .setMode .delayed,
      .set .rampTime (fin 20), .add (fin 100) (fin 40), .advance (fin 10)]
    (g.set .ramp10Up (fin 5)).rate = fin 1 ∧ (g.set .ramp10Up (fin 5)).review = fin 40 ∧
      ((g.set .ramp10Up (fin 5)).advance (fin 30)).output = (g.advance (fin 30)).output := by
  intro g
  have workable : (idle (fin (0 : ℚ))).Workable := by decide +kernel
  have reaches : Reaches Workable Suits (idle (fin (0 : ℚ))) g :=
    (Reaches.start workable).run (by decide +kernel)
  have spares : Reaches Workable (fun g a => g.Suits a ∧ g.SparesLeg a) (idle (fin (0 : ℚ))) g :=
    (Reaches.start workable).run (by decide +kernel)
  have resumes : g.Resumes := by
    decide +kernel
  have informs : GeneratorSetting.ramp10Up.informs = true := rfl
  obtain ⟨-, still⟩ := reaches.set_informs informs (fin 5)
  obtain ⟨rate, review, alike⟩ := still spares resumes
  exact ⟨rate.trans (by decide +kernel), review.trans (by decide +kernel), (alike [fin 30]).2⟩

/-- In the middle of one that the ramp time stretches, the rest of the ramp is stretched anew: rate,
review and the power delivered change. -/
theorem set_informs_stretched :
    let g := (idle (fin (0 : ℚ))).run [.setRampLimits (fin 1) (fin 1), .setMode .delayed,
      .set .rampTime (fin 60), .add (fin 100) (fin 30), .advance (fin 10)]
    Reaches Workable (fun g a => g.Suits a ∧ g.SparesLeg a) (idle (fin (0 : ℚ))) g ∧
      g.rate = fin (1 / 2) ∧ (g.set .ramp10 (fin 5)).rate = fin (5 / 12) ∧
      g.review = fin 60 ∧ (g.set .ramp10 (fin 5)).review = fin 70 ∧
      (g.advance (fin 60)).committed = fin 30 ∧
      ((g.set .ramp10 (fin 5)).advance (fin 60)).committed = fin (155 / 6) := by
  intro g
  have start : Reaches Workable (fun g a => g.Suits a ∧ g.SparesLeg a) (idle (fin (0 : ℚ)))
      (idle (fin 0)) := .start (by decide +kernel)
  exact ⟨start.run (by decide +kernel), by decide +kernel⟩

end Ordered

end Generator

end UnitDispatch
