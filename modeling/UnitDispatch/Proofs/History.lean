import UnitDispatch.Proofs.Effect
import UnitDispatch.Proofs.Reserve
import UnitDispatch.Proofs.Reviews

/-! # Histories

`Reaches` is what a generator can come to, one action after another. `OnCourse.act` takes a
generator that is on course through one action, together with whatever planning and advancing keep,
and `Reaches.onCourse` says that every generator with a history is on course.
-/

namespace UnitDispatch

open Quantity Exact

namespace Generator

section Histories

variable {α : Type} [Quantity α]

/-- The times an action names are numbers, and so are the powers it asks for, once held. -/
structure Suits (g : Generator α) (a : Action α) : Prop where
  times : ∀ t ∈ a.times, isFinite t = true
  powers : ∀ p ∈ a.powers, isFinite (g.holdTarget p) = true

instance (g : Generator α) (a : Action α) : Decidable (g.Suits a) :=
  decidable_of_iff ((∀ t ∈ a.times, isFinite t = true) ∧
      ∀ p ∈ a.powers, isFinite (g.holdTarget p) = true)
    ⟨fun ⟨t, p⟩ => ⟨t, p⟩, fun ⟨t, p⟩ => ⟨t, p⟩⟩

/-- What can be reached from a generator by actions that `S` admits, with `P` holding all the
while. -/
inductive Reaches (P : Generator α → Prop) (S : Generator α → Action α → Prop)
    (g₀ : Generator α) : Generator α → Prop
  | start (holds : P g₀) : Reaches P S g₀ g₀
  | act {g : Generator α} {a : Action α} (reaches : Reaches P S g₀ g) (suits : S g a)
      (holds : P (g.act a)) : Reaches P S g₀ (g.act a)

variable {P : Generator α → Prop} {S : Generator α → Action α → Prop} {g₀ g : Generator α}

theorem Reaches.holds (reaches : Reaches P S g₀ g) : P g := by
  cases reaches <;> assumption

/-- Each of the actions is admitted when its turn comes, and leaves `P` true. -/
def Admits (P : Generator α → Prop) (S : Generator α → Action α → Prop) :
    Generator α → List (Action α) → Prop
  | _, [] => True
  | g, a :: as => S g a ∧ P (g.act a) ∧ Admits P S (g.act a) as

instance decidableAdmits [DecidablePred P] [∀ g a, Decidable (S g a)] :
    (g : Generator α) → (as : List (Action α)) → Decidable (Admits P S g as)
  | _, [] => isTrue trivial
  | g, a :: as =>
    have := decidableAdmits (g.act a) as
    inferInstanceAs (Decidable (S g a ∧ P (g.act a) ∧ Admits P S (g.act a) as))

/-- A run of admitted actions is a history. -/
theorem Reaches.run (reaches : Reaches P S g₀ g) {as : List (Action α)} (admits : Admits P S g as) :
    Reaches P S g₀ (g.run as) := by
  induction as generalizing g with
  | nil => exact reaches
  | cons a as ih =>
    obtain ⟨suits, holds, rest⟩ := admits
    exact ih (.act reaches suits holds) rest

end Histories

section Called

variable {α : Type} [Quantity α] [Signed α] {g h : Generator α}

/-- No change of settings has more called for than is available. -/
theorem configure_called {a : Action α} (called : g.reserve.Called)
    (change : g.configure a = some h) : h.reserve.Called := by
  have assign (setting : GeneratorSetting) (value : α) :
      (g.assign setting value).reserve.Called := by
    cases setting with
    | reserve => exact called.hold value
    | reserveRampTime => exact ⟨called.nonneg, called.le_available⟩
    | _ => exact called
  have reassign {setting : GeneratorSetting} {value : α}
      (change : g.reassign value setting = some h) : h.reserve.Called := by
    cases setting <;> cases change <;> exact assign _ value
  cases a with
  | set setting value => exact reassign change
  | setKey key value =>
    obtain ⟨setting, -, change⟩ := Option.bind_eq_some_iff.mp change
    exact reassign change
  | setText key value =>
    obtain ⟨mode, rfl⟩ := reword_eq_some change
    exact called
  | callReserve level =>
    cases change
    exact called.call level
  | holdReserve available =>
    cases change
    exact called.hold available
  | receive message =>
    cases message with
    | updateReserves available =>
      cases change
      exact called.hold available
    | useReserve level =>
      cases change
      exact called.call level
    | _ => cases change
  | _ => cases change <;> exact called

end Called

variable {K : Type} [Field K] [LinearOrder K] {g g₀ h : Generator (Exact K)} {n l c ρ : K}

/-! ## What revisions keep -/

/-- A property of committed power, output and reserve that a revision of the plan keeps while the
settings are those of `g₀`. -/
structure KeptByPlans (g₀ : Generator (Exact K)) (P : Generator (Exact K) → Prop) : Prop where
  stable : ∀ {g h}, SamePower g h → P g → P h
  replan : ∀ {h n l c ρ}, SameSettings g₀ h → Ready h n l c ρ → h.Workable → P h → P h.replan

theorem keptByPlans_true (g₀ : Generator (Exact K)) : KeptByPlans g₀ fun _ => True :=
  ⟨fun _ _ => trivial, fun _ _ _ _ => trivial⟩

/-- On course with the settings of `g₀`, and with a property. -/
structure Going (g₀ : Generator (Exact K)) (P : Generator (Exact K) → Prop)
    (g : Generator (Exact K)) : Prop where
  course : ∃ n l c ρ, g.OnCourse n l c ρ
  workable : g.Workable
  same : SameSettings g₀ g
  holds : P g

theorem Plotted.congr (plotted : g.Plotted n l c ρ) (settings : SameSettings g h)
    (state : SameState g h) : h.Plotted n l c ρ where
  sorted := by rw [state.schedule]; exact plotted.sorted
  times := by rw [state.schedule]; exact plotted.times
  stands := ⟨state.now.trans plotted.stands.now, state.last.trans plotted.stands.last,
    state.committed.trans plotted.stands.committed, state.rate.trans plotted.stands.rate⟩
  last := plotted.last
  called := settings.called plotted.called
  ahead := by rw [state.schedule, state.now]; exact plotted.ahead
  heading := by
    cases plotted.heading with
    | rest empty rate review =>
      exact .rest (state.schedule ▸ empty) rate (state.review.trans review)
    | @leg r w underway =>
      refine .leg (r := r) (w := w) ⟨state.review.trans underway.review, underway.before, ?_, ?_,
        ?_, underway.short⟩
      · rw [state.schedule]
        exact underway.nonempty
      · rw [state.schedule]
        exact underway.first
      · rw [settings.holdTarget]
        exact underway.held

theorem OnCourse.congr (course : g.OnCourse n l c ρ) (settings : SameSettings g h)
    (state : SameState g h) : h.OnCourse n l c ρ :=
  (course.plotted.congr settings state).onCourse (course.rated.of_same settings state.rate)

theorem Going.congr {P : Generator (Exact K) → Prop} (kept : KeptByPlans g₀ P)
    (going : Going g₀ P g) (settings : SameSettings g h) (state : SameState g h) :
    Going g₀ P h where
  course := by
    obtain ⟨n, l, c, ρ, course⟩ := going.course
    exact ⟨n, l, c, ρ, course.congr settings state⟩
  workable := going.workable.of_same settings (state.schedule ▸ going.workable.targets)
  same := going.same.trans settings
  holds := kept.stable state.samePower going.holds

theorem Orderly.queue (orderly : g.Orderly n l c ρ) {q : Setpoint (Exact K)}
    (time : isFinite q.time = true) (review : Exact K) :
    Orderly { g with schedule := g.schedule.insert q, review } n l c ρ := by
  refine ⟨orderly.sorted.insert orderly.times time, ?_, ?_, orderly.last, orderly.called⟩
  · intro x hx
    rcases Schedule.mem_insert.mp hx with rfl | hx
    · exact time
    · exact orderly.times x hx
  · exact ⟨orderly.stands.now, orderly.stands.last, orderly.stands.committed, orderly.stands.rate⟩

/-- With older setpoints dropped, a generator may begin anew at any time. -/
theorem Orderly.restart (orderly : g.Orderly n l c ρ) (t : K) :
    Orderly { g with schedule := g.schedule.dropBefore (fin t), now := fin t, last := fin t }
      t t c ρ := by
  refine ⟨orderly.sorted.dropBefore, ?_, ?_, le_rfl, orderly.called⟩
  · intro p hp
    exact orderly.times p (Schedule.mem_of_mem_dropBefore hp)
  · exact ⟨rfl, rfl, orderly.stands.committed, orderly.stands.rate⟩

theorem Orderly.clear (orderly : g.Orderly n l c ρ) : g.clear.Plotted n l c 0 :=
  ⟨⟨List.Pairwise.nil, nofun,
    ⟨orderly.stands.now, orderly.stands.last, orderly.stands.committed, zero_eq⟩, orderly.last,
    orderly.called⟩, nofun, .rest rfl rfl rfl⟩

/-- A setpoint that is due no earlier than the review does not disturb the leg in progress. -/
theorem Plotted.queue (plotted : g.Plotted n l c ρ) {q : Setpoint (Exact K)}
    (time : isFinite q.time = true) (later : ¬ q.time < g.review) :
    Plotted { g with schedule := g.schedule.insert q } n l c ρ := by
  obtain ⟨t, ht⟩ := isFinite_iff.mp time
  cases plotted.heading with
  | rest _ _ review =>
    rw [ht, review] at later
    exact (later (fin_lt_posInf t)).elim
  | @leg r w underway =>
    rw [ht, underway.review, fin_lt, not_lt] at later
    refine ⟨plotted.toOrderly.queue time g.review, ?_, .leg (r := r) (w := w)
      ⟨underway.review, underway.before, Schedule.insert_nonempty _ _, ?_, underway.held,
        underway.short⟩⟩
    · intro x hx
      rcases Schedule.mem_insert.mp hx with rfl | hx
      · rw [ht]
        show g.now < fin t
        rw [plotted.stands.now]
        exact fin_lt.mpr (underway.before.trans_le later)
      · exact plotted.ahead x hx
    · intro x hx
      rcases Schedule.mem_insert.mp hx with rfl | hx
      · rw [ht]
        exact fin_le.mpr later
      · exact underway.first x hx

theorem OnCourse.queue (course : g.OnCourse n l c ρ) {q : Setpoint (Exact K)}
    (time : isFinite q.time = true) (later : ¬ q.time < g.review) :
    OnCourse { g with schedule := g.schedule.insert q } n l c ρ :=
  (course.plotted.queue time later).onCourse
    (course.rated.of_same ⟨rfl, rfl, rfl, rfl, rfl, rfl⟩ rfl)

/-- A change of settings leaves schedule and clock in order. -/
theorem Orderly.configure [IsStrictOrderedRing K] {a : Action (Exact K)}
    (orderly : g.Orderly n l c ρ) (change : g.configure a = some h) : h.Orderly n l c ρ := by
  have state := configure_sameState change
  refine ⟨?_, ?_, ?_, orderly.last, configure_called orderly.called change⟩
  · rw [state.schedule]
    exact orderly.sorted
  · rw [state.schedule]
    exact orderly.times
  · exact ⟨state.now.trans orderly.stands.now, state.last.trans orderly.stands.last,
      state.committed.trans orderly.stands.committed, state.rate.trans orderly.stands.rate⟩

section Actions

variable [IsStrictOrderedRing K] {P : Generator (Exact K) → Prop}

theorem Ready.going (kept : KeptByPlans g₀ P) (ready : h.Ready n l c ρ) (workable : h.Workable)
    (same : SameSettings g₀ h) (holds : P h) : Going g₀ P h.replan where
  course := by
    obtain ⟨l', c', v, course⟩ := ready.replan workable
    exact ⟨n, l', c', v, course⟩
  workable := workable.replan ready.regular
  same := same.trans (replan_sameSettings h)
  holds := kept.replan same ready workable holds

theorem Going.start (kept : KeptByPlans g₀ P) (going : Going g₀ P g) {t : Exact K}
    (time : isFinite t = true) : Going g₀ P (g.start t) := by
  obtain ⟨t, rfl⟩ := isFinite_iff.mp time
  obtain ⟨n, l, c, ρ, course⟩ := going.course
  let h := { g with schedule := g.schedule.dropBefore (fin t), now := fin t, last := fin t }
  have settings : SameSettings g h := ⟨rfl, rfl, rfl, rfl, rfl, rfl⟩
  have ready : h.Ready t t c ρ :=
    ⟨course.toOrderly.restart t, .inr (course.rated.of_same settings rfl)⟩
  have workable : h.Workable := by
    refine going.workable.of_same settings ?_
    intro p hp
    exact going.workable.targets p (Schedule.mem_of_mem_dropBefore hp)
  have planned := ready.going kept workable (going.same.trans settings)
    (kept.stable (g := g) ⟨rfl, rfl, rfl⟩ going.holds)
  exact planned.congr kept ⟨rfl, rfl, rfl, rfl, rfl, rfl⟩ ⟨rfl, rfl, rfl, rfl, rfl, rfl, rfl, rfl⟩

theorem Going.add (kept : KeptByPlans g₀ P) (going : Going g₀ P g) {t p : Exact K}
    (time : isFinite t = true) (held : isFinite (g₀.holdTarget p) = true) :
    Going g₀ P (g.add t p) := by
  obtain ⟨n, l, c, ρ, course⟩ := going.course
  let q : Setpoint (Exact K) := ⟨t, p, false⟩
  have targets : ∀ x ∈ (g.schedule.insert q).setpoints, isFinite (g.holdTarget x.power) = true := by
    intro x hx
    rcases Schedule.mem_insert.mp hx with rfl | hx
    · rw [going.same.holdTarget]
      exact held
    · exact going.workable.targets x hx
  -- with the setpoint queued, the plan may be revised, whatever the review is
  have revised (review : Exact K) :
      Going g₀ P { g with schedule := g.schedule.insert q, review }.replan := by
    have settings : SameSettings g { g with schedule := g.schedule.insert q, review } :=
      ⟨rfl, rfl, rfl, rfl, rfl, rfl⟩
    have ready : Ready { g with schedule := g.schedule.insert q, review } n l c ρ :=
      ⟨course.toOrderly.queue time review, .inr (course.rated.of_same settings rfl)⟩
    exact ready.going kept (going.workable.of_same settings targets) (going.same.trans settings)
      (kept.stable (g := g) ⟨rfl, rfl, rfl⟩ going.holds)
  unfold Generator.add
  dsimp only
  by_cases before : t < g.review
  · rw [if_pos before]
    split
    · exact revised t
    next differs =>
      obtain ⟨x, rfl⟩ := isFinite_iff.mp time
      exact (differs (by simp)).elim
  · rw [if_neg before]
    split
    · exact revised g.review
    · have settings : SameSettings g { g with schedule := g.schedule.insert q } :=
        ⟨rfl, rfl, rfl, rfl, rfl, rfl⟩
      exact ⟨⟨n, l, c, ρ, course.queue time before⟩, going.workable.of_same settings targets,
        going.same.trans settings, kept.stable (g := g) ⟨rfl, rfl, rfl⟩ going.holds⟩

theorem Going.addAll (kept : KeptByPlans g₀ P) (going : Going g₀ P g)
    {times powers : List (Exact K)} (suits : ∀ p ∈ times.zip powers,
      isFinite p.1 = true ∧ isFinite (g₀.holdTarget p.2) = true) :
    Going g₀ P (g.addAll times powers) :=
  addAll_induction (fun _ p hp still => still.add kept (suits p hp).1 (suits p hp).2) going

theorem Going.clear (kept : KeptByPlans g₀ P) (going : Going g₀ P g) : Going g₀ P g.clear := by
  obtain ⟨n, l, c, ρ, course⟩ := going.course
  have settings : SameSettings g g.clear := ⟨rfl, rfl, rfl, rfl, rfl, rfl⟩
  have cleared := course.toOrderly.clear
  have rated : g.clear.Rated := by
    refine ⟨?_, ?_⟩ <;> rw [cleared.stands.rate]
    · exact neg_le_of_nonneg going.workable.rampDown le_rfl
    · rw [← zero_eq]
      exact going.workable.rampUp
  exact ⟨⟨n, l, c, 0, cleared.onCourse rated⟩, going.workable.of_same settings nofun,
    going.same.trans settings, kept.stable (g := g) ⟨rfl, rfl, rfl⟩ going.holds⟩

/-! ## Every action -/

theorem OnCourse.configure {a : Action (Exact K)} (course : g.OnCourse n l c ρ)
    (change : g.configure a = some h) (workable : h.replan.Workable) :
    (∃ v, h.replan.OnCourse n l c v) ∧ SamePower g h.replan := by
  have state := configure_sameState change
  have ahead : ∀ p ∈ h.schedule.setpoints, h.now < p.time := by
    rw [state.schedule, state.now]
    exact course.ahead
  have orderly := course.toOrderly.configure change
  rw [replan_of_ahead ahead] at workable ⊢
  refine ⟨orderly.planNext ?_ ahead, state.committed, state.output, state.realized⟩
  exact workable.of_same ⟨rfl, rfl, rfl, rfl, rfl, rfl⟩ workable.targets

/-- An action that neither advances nor changes settings goes on, and keeps what planning keeps. -/
theorem Going.act (kept : KeptByPlans g P) (going : Going g P g) {a : Action (Exact K)}
    (suits : g.Suits a) :
    Going g P (g.act a) ∨ (∃ t, a = .advance t ∧ g.act a = g.advance t) ∨
      ∃ h, g.configure a = some h ∧ g.act a = h.replan := by
  obtain ⟨n, l, c, ρ, course⟩ := going.course
  have effect := act_effect g a
  generalize g.act a = g' at effect ⊢
  cases effect with
  | start named => exact .inl (going.start kept (suits.times _ named))
  | @advance t named => exact .inr (.inl ⟨t, named, rfl⟩)
  | add named asked =>
    refine .inl (going.addAll kept ?_)
    intro p hp
    refine ⟨?_, suits.powers _ (asked p hp)⟩
    rcases named p hp with now | named
    · rw [now, course.stands.now]
      exact isFinite_fin n
    · exact suits.times _ named
  | replace named asked =>
    exact .inl ((going.clear kept).addAll kept fun p hp =>
      ⟨suits.times _ (named p hp), suits.powers _ (asked p hp)⟩)
  | @configure h change => exact .inr (.inr ⟨h, change, rfl⟩)
  | register dispatcher =>
    exact .inl (going.congr kept (h := { g with dispatcher }) ⟨rfl, rfl, rfl, rfl, rfl, rfl⟩
      ⟨rfl, rfl, rfl, rfl, rfl, rfl, rfl, rfl⟩)

/-- An action leaves a generator on course. A property that planning keeps holds on, provided that
it outlasts advances. -/
theorem OnCourse.act {a : Action (Exact K)} (course : g.OnCourse n l c ρ) (workable : g.Workable)
    (suits : g.Suits a) (after : (g.act a).Workable) (kept : KeptByPlans g P) (holds : P g)
    (advance : ∀ {t}, a = .advance t → P (g.advance t)) :
    (∃ n l c ρ, (g.act a).OnCourse n l c ρ) ∧ P (g.act a) := by
  have going : Going g P g := ⟨⟨n, l, c, ρ, course⟩, workable, .refl g, holds⟩
  rcases going.act kept suits with still | ⟨t, rfl, -⟩ | ⟨h, change, planned⟩
  · exact ⟨still.course, still.holds⟩
  · obtain ⟨t, rfl⟩ := isFinite_iff.mp (suits.times _ List.mem_cons_self)
    obtain ⟨l', c', v, still, -⟩ := course.advance workable (keptByLegs_true g t) trivial
    exact ⟨⟨_, l', c', v, still⟩, advance rfl⟩
  · rw [planned] at after ⊢
    obtain ⟨⟨v, still⟩, power⟩ := course.configure change after
    exact ⟨⟨n, l, c, v, still⟩, kept.stable power holds⟩

/-- As long as powers are held as before, a generator whose limits are not negative can go on
working. -/
theorem OnCourse.act_workable {a : Action (Exact K)} (course : g.OnCourse n l c ρ)
    (workable : g.Workable) (suits : g.Suits a) (limits : (g.act a).LimitsNonneg)
    (held : ∀ p, (g.act a).holdTarget p = g.holdTarget p) : (g.act a).Workable := by
  have going : Going g (fun _ => True) g := ⟨⟨n, l, c, ρ, course⟩, workable, .refl g, trivial⟩
  rcases going.act (keptByPlans_true g) suits with still | ⟨t, rfl, -⟩ | ⟨h, change, planned⟩
  · exact still.workable
  · obtain ⟨t, rfl⟩ := isFinite_iff.mp (suits.times _ List.mem_cons_self)
    have kept : KeptByLegs g t Workable :=
      ⟨fun _ _ able _ _ _ _ => able.moveTo _, fun _ ready able _ _ => able.replan ready.regular⟩
    obtain ⟨_, _, _, -, able⟩ := course.advance workable kept workable
    exact able
  · refine ⟨limits, ?_⟩
    have state := configure_sameState change
    have ahead : ∀ p ∈ h.schedule.setpoints, h.now < p.time := by
      rw [state.schedule, state.now]
      exact course.ahead
    have schedule : (g.act a).schedule = g.schedule := by
      rw [planned, replan_of_ahead ahead]
      exact state.schedule
    intro p hp
    rw [schedule] at hp
    rw [held]
    exact workable.targets p hp

/-! ## Every history -/

omit [IsStrictOrderedRing K] in
theorem idle_onCourse (o : K) : (idle (fin o)).OnCourse 0 0 o 0 where
  sorted := List.Pairwise.nil
  times := nofun
  stands := ⟨zero_eq, zero_eq, rfl, zero_eq⟩
  last := le_rfl
  called := by
    refine ⟨?_, ?_⟩ <;> simp [idle, Reserve.empty]
  ahead := nofun
  rated := by
    refine ⟨?_, ?_⟩ <;> simp [idle, Envelope.boundless]
  heading := .rest rfl rfl rfl

/-- Every generator with a history is on course. -/
theorem Reaches.onCourse {o : K} (reaches : Reaches Workable Suits (idle (fin o)) g) :
    ∃ n l c ρ, g.OnCourse n l c ρ := by
  induction reaches with
  | start => exact ⟨0, 0, o, 0, idle_onCourse o⟩
  | @act g a reaches suits after ih =>
    obtain ⟨n, l, c, ρ, course⟩ := ih
    exact (course.act reaches.holds suits after (keptByPlans_true g) trivial fun _ => trivial).1

end Actions

end Generator

end UnitDispatch
