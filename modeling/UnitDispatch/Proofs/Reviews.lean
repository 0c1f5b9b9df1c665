import UnitDispatch.Proofs.Course

/-! # Reviews come to an end

A generator on course meets only so many reviews before its schedule is empty and it rests:
`Plotted.settlesIn` counts at most six for each setpoint and six more. So an advance never runs out
of them: it `Passes` every review on the way, and `OnCourse.advance` says that it arrives at its
time on course.
-/

namespace UnitDispatch

open Quantity Exact

namespace Generator

/-- At most so many reviews are left before the generator rests. -/
def SettlesIn {α : Type} [Quantity α] : Nat → Generator α → Prop
  | 0, g => g.review = unbounded
  | k + 1, g => g.review = unbounded ∨ SettlesIn k g.leg

theorem SettlesIn.of_rest {α : Type} [Quantity α] {g : Generator α} (rest : g.review = unbounded)
    (k : Nat) : g.SettlesIn k := by
  cases k with
  | zero => exact rest
  | succ k => exact .inl rest

theorem SettlesIn.mono {α : Type} [Quantity α] {g : Generator α} {j k : Nat}
    (settles : SettlesIn j g) (h : j ≤ k) : g.SettlesIn k := by
  induction j generalizing g k with
  | zero => exact .of_rest settles k
  | succ j ih =>
    obtain ⟨k, rfl⟩ := Nat.exists_eq_succ_of_ne_zero (Nat.ne_of_gt (Nat.zero_lt_of_lt h))
    rcases settles with rest | settles
    · exact .inl rest
    · exact .inr (ih settles (Nat.le_of_succ_le_succ h))

theorem SettlesIn.of_review {α : Type} [Quantity α] {g : Generator α} {r : α} {k : Nat}
    (review : g.review = r) (settles : (g.moveTo r).replan.SettlesIn k) : g.SettlesIn (k + 1) := by
  subst review
  exact .inr settles

/-- Goes through the reviews up to `t`, one leg after another. -/
inductive Passes {α : Type} [Quantity α] (t : α) : Generator α → Generator α → Prop
  | arrived {g : Generator α} (later : ¬ g.review ≤ t) : Passes t g g
  | leg {g h : Generator α} (due : g.review ≤ t) (rest : Passes t g.leg h) : Passes t g h

theorem Passes.unique {α : Type} [Quantity α] {t : α} {g h k : Generator α} (one : Passes t g h)
    (other : Passes t g k) : h = k := by
  induction one with
  | arrived later =>
    cases other with
    | arrived => rfl
    | leg due => exact (later due).elim
  | leg due rest ih =>
    cases other with
    | arrived later => exact (later due).elim
    | leg _ rest' => exact ih rest'

variable {K : Type} [Field K] [LinearOrder K] [IsStrictOrderedRing K] {g : Generator (Exact K)}
  {n l c ρ : K}

/-! ## Plans settle -/

/-- A generator that sets out on a plan with at most `m` setpoints ahead comes to rest. -/
def PlansSettle (K : Type) [Field K] [LinearOrder K] (m : Nat) : Prop :=
  ∀ (g : Generator (Exact K)) (n l c ρ : K), g.Orderly n l c ρ → g.Workable →
    (∀ p ∈ g.schedule.setpoints, g.now < p.time) → g.schedule.size ≤ m →
      g.planNext.SettlesIn (6 * m + 4)

/-- A ramp of the generator's own ends with one more review, in which nothing is left to catch up
with. -/
theorem PlansSettle.carry {m : Nat} (plans : PlansSettle K m) (workable : g.Workable)
    (sorted : g.schedule.Sorted) (times : ∀ p ∈ g.schedule.setpoints, isFinite p.time = true)
    (small : g.schedule.size ≤ m) {w v : K} (held : g.holdTarget (fin w) = fin w)
    (lead : 0 < v * (w - c))
    (carried : (g.carry (fin w) ⟨fin v, fin (n + (w - c) / v)⟩).Orderly n l c v) :
    SettlesIn (6 * m + 5) (g.carry (fin w) ⟨fin v, fin (n + (w - c) / v)⟩) := by
  let p : Setpoint (Exact K) := ⟨fin (n + (w - c) / v), fin w, true⟩
  let h := (g.carry (fin w) ⟨fin v, fin (n + (w - c) / v)⟩).moveTo (fin (n + (w - c) / v))
  have same : SameSettings g h :=
    (carry_samePlant g _ _).sameSettings.trans (moveTo_sameSettings _ _)
  have schedule : h.schedule = g.schedule.insert p := moveTo_schedule _ _
  have orderly := carried.moveTo (le_add_of_nonneg_right (div_pos_of_lead lead).le)
  have arrived : c + v * (n + (w - c) / v - n) = w := by
    rw [add_sub_cancel_left, mul_div_cancel₀ _ (left_ne_zero_of_mul lead.ne'), add_sub_cancel]
  rw [arrived] at orderly
  -- the setpoint that ends the ramp is the last one due
  have last : (h.schedule.due h.now).getLast? = some p := by
    rw [schedule, orderly.stands.now]
    exact sorted.due_insert times (isFinite_fin _)
  obtain ⟨l', taken⟩ := orderly.takeDue
  have replan : h.replan = h.takeDue.planNext := by
    unfold Generator.replan
    rw [last]
    exact settle_of_delivered taken.stands ((same.holdTarget _).trans held)
  refine .of_review rfl ?_
  show SettlesIn _ h.replan
  rw [replan]
  have due : h.schedule.due h.now ≠ [] := List.ne_nil_of_mem (List.mem_of_getLast? last)
  refine plans _ _ _ _ _ taken ?_ (fun q => orderly.sorted.lt_of_mem_afterDue) ?_
  · refine workable.of_same (same.trans ⟨rfl, rfl, rfl, rfl, rfl, rfl⟩) ?_
    intro q hq
    have mem := Schedule.mem_of_mem_afterDue hq
    rw [schedule] at mem
    rcases Schedule.mem_insert.mp mem with rfl | mem
    · rw [held]
      exact isFinite_fin w
    · exact workable.targets q mem
  · have fewer := Schedule.size_afterDue_lt due
    rw [schedule, Schedule.size_insert] at fewer
    show (h.schedule.afterDue h.now).size ≤ m
    rw [schedule]
    omega

/-- A revision that sees to a due setpoint is followed by at most one more review for it. -/
theorem PlansSettle.replan {m : Nat} (plans : PlansSettle K m) (orderly : g.Orderly n l c ρ)
    (workable : g.Workable) (due : g.schedule.due g.now ≠ [])
    (small : g.takeDue.schedule.size ≤ m) : g.replan.SettlesIn (6 * m + 5) := by
  have revises := replan_revises orderly.regular workable.proper orderly.stands
  have later := orderly.regular.takeDue_ahead
  obtain ⟨l', taken⟩ := orderly.takeDue
  generalize g.replan = h at revises ⊢
  cases revises with
  | ahead ahead => exact (due (Schedule.due_eq_nil ahead)).elim
  | next => exact (plans _ _ _ _ _ taken workable.takeDue later small).mono (Nat.le_succ _)
  | @carry p w v _ held lead rate free =>
    exact plans.carry workable.takeDue taken.sorted taken.times small (holdTarget_fin held) lead
      (taken.carry later (holdTarget_fin held) lead free).toOrderly
  | @jump p w =>
    exact (plans _ _ _ _ _ (taken.jump (w - c)) (workable.takeDue.jump _) later small).mono
      (Nat.le_succ _)

/-- Until a setpoint is due, each review leaves fewer to come. -/
theorem PlansSettle.planNext {m : Nat} (plans : PlansSettle K m) (s : Nat) :
    ∀ (g : Generator (Exact K)) (n l c ρ : K), g.Orderly n l c ρ → g.Workable →
      (∀ p ∈ g.schedule.setpoints, g.now < p.time) → g.schedule.size ≤ m + 1 → g.stage = s →
        g.planNext.SettlesIn (6 * (m + 1) + s) := by
  induction s using Nat.strong_induction_on with
  | h s ih =>
    intro g n l c ρ orderly workable ahead small stage
    cases first : g.schedule.first? with
    | none =>
      have idle := nextLeg_idle (Schedule.first?_eq_none_iff.mp first)
      exact .of_rest (congrArg Leg.review idle) _
    | some head =>
      have mem := Schedule.mem_of_first? first
      obtain ⟨d, w, time, held, later⟩ :=
        orderly.regular.head workable.proper orderly.stands ahead first
      obtain ⟨v, r, leg, kept, early⟩ :=
        nextLeg_kept workable.toLimitsNonneg orderly first time held later
      obtain ⟨v', course⟩ := orderly.planNext workable ahead
      obtain rfl : v' = v := by simpa using course.stands.rate.symm.trans (congrArg Leg.rate leg)
      have review : g.planNext.review = fin r := congrArg Leg.review leg
      let h := g.planNext.moveTo (fin r)
      have schedule : h.schedule = g.schedule := moveTo_schedule _ _
      have moved : h.Orderly r l (c + v' * (r - n)) v' := course.toOrderly.moveTo kept.ahead.le
      have able : h.Workable := workable.planNext.moveTo _
      suffices h.replan.SettlesIn (6 * m + 5 + s) from
        (SettlesIn.of_review review this).mono (by omega)
      -- the leg ends with the setpoint due, and the schedule gets shorter, or at a smaller stage
      rcases kept.inTime.eq_or_lt with rfl | short
      · have due : h.schedule.due h.now ≠ [] := by
          intro undue
          have := moved.regular.ahead_of_due_eq_nil undue head (schedule ▸ mem)
          rw [moved.stands.now, time] at this
          exact lt_irrefl r (fin_lt.mp this)
        have fewer := Schedule.size_afterDue_lt due
        have left : h.takeDue.schedule.size ≤ m := by
          show (h.schedule.afterDue h.now).size ≤ m
          rw [schedule] at fewer ⊢
          omega
        exact (plans.replan moved able due left).mono (by omega)
      · have ahead' : ∀ p ∈ h.schedule.setpoints, h.now < p.time := by
          intro p hp
          rw [schedule] at hp
          have le := orderly.sorted.first?_le first (orderly.times head mem) hp
          rw [time] at le
          rw [moved.stands.now]
          exact lt_of_lt_of_le (fin_lt.mpr short) le
        have fewer : h.stage < s := stage ▸ early.resolve_left short.ne h v' moved.stands schedule
          ((follow_samePlant g g.nextLeg).sameSettings.trans (moveTo_sameSettings _ _))
        rw [replan_of_ahead ahead']
        exact (ih h.stage fewer h _ _ _ _ moved able ahead' (schedule ▸ small) rfl).mono
          (by omega)

/-- Plans settle, setpoint by setpoint. -/
theorem plansSettle (m : Nat) : PlansSettle K m := by
  induction m with
  | zero =>
    intro g n l c ρ _ _ _ small
    have idle := nextLeg_idle (g := g) (List.length_eq_zero_iff.mp (Nat.le_zero.mp small))
    exact .of_rest (congrArg Leg.review idle) _
  | succ m ih =>
    intro g n l c ρ orderly workable ahead small
    exact (ih.planNext g.stage g n l c ρ orderly workable ahead small rfl).mono
      (Nat.add_le_add_left g.stage_le _)

/-- A generator whose plan suits its schedule comes to rest after at most six reviews for each
setpoint and six more. -/
theorem Plotted.settlesIn (plotted : g.Plotted n l c ρ) (workable : g.Workable) :
    g.SettlesIn (6 * (g.schedule.size + 1)) := by
  cases plotted.heading with
  | rest _ _ review => exact .of_rest review _
  | @leg r w underway =>
    have plans : PlansSettle K g.schedule.size := plansSettle _
    let h := g.moveTo (fin r)
    have schedule : h.schedule = g.schedule := moveTo_schedule _ _
    have moved : h.Orderly r l (c + ρ * (r - n)) ρ := plotted.toOrderly.moveTo underway.before.le
    have able : h.Workable := workable.moveTo _
    suffices h.replan.SettlesIn (6 * g.schedule.size + 5) from .of_review underway.review this
    by_cases undue : h.schedule.due h.now = []
    · have ahead := moved.regular.ahead_of_due_eq_nil undue
      rw [replan_of_ahead ahead]
      exact (plans h _ _ _ _ moved able ahead (schedule ▸ le_rfl)).mono (Nat.le_succ _)
    · have fewer := Schedule.size_afterDue_lt undue
      rw [schedule] at fewer
      refine plans.replan moved able undue ?_
      show (h.schedule.afterDue h.now).size ≤ _
      rw [schedule]
      exact fewer.le

/-! ## Advances -/

section Advance

/-- A property that a move along a leg keeps, and the revision at its end, with the settings of `g₀`
and up to the time `t`. -/
structure KeptByLegs (g₀ : Generator (Exact K)) (t : K) (P : Generator (Exact K) → Prop) :
    Prop where
  move : ∀ {h n l c ρ s}, SameSettings g₀ h → OnCourse h n l c ρ → h.Workable → P h → n < s →
    fin s ≤ h.review → s ≤ t → P (h.moveTo (fin s))
  replan : ∀ {h n l c ρ}, SameSettings g₀ h → Ready h n l c ρ → h.Workable → n ≤ t → P h →
    P h.replan

variable {g₀ : Generator (Exact K)} {t : K} {P : Generator (Exact K) → Prop}

/-- One leg, up to the review and through it. -/
theorem OnCourse.leg (course : g.OnCourse n l c ρ) (workable : g.Workable)
    (same : SameSettings g₀ g) (kept : KeptByLegs g₀ t P) (holds : P g) (due : g.review ≤ fin t) :
    ∃ r l' c' v, g.leg.OnCourse r l' c' v ∧ g.leg.Workable ∧ SameSettings g₀ g.leg ∧ P g.leg ∧
      r ≤ t := by
  cases course.heading with
  | rest _ _ review =>
    rw [review, unbounded_eq] at due
    exact (not_posInf_le_fin t due).elim
  | @leg r w underway =>
    rw [underway.review, fin_le] at due
    have ready := course.moveTo_ready underway.before.le
    have able := workable.moveTo (fin r)
    have settings := same.trans (moveTo_sameSettings g (fin r))
    have moved := kept.move same course workable holds underway.before
      (underway.review ▸ fin_le.mpr le_rfl) due
    obtain ⟨l', c', v, next⟩ := ready.replan able
    refine ⟨r, l', c', v, ?_⟩
    unfold Generator.leg
    rw [underway.review]
    exact ⟨next, able.replan ready.regular, settings.trans (replan_sameSettings _),
      kept.replan settings ready able due moved, due⟩

omit [IsStrictOrderedRing K] in
theorem keptByLegs_true (g₀ : Generator (Exact K)) (t : K) : KeptByLegs g₀ t fun _ => True :=
  ⟨fun _ _ _ _ _ _ _ => trivial, fun _ _ _ _ _ => trivial⟩

/-- One leg, whatever its rate. -/
theorem Plotted.leg (plotted : g.Plotted n l c ρ) (workable : g.Workable)
    (due : g.review ≤ fin t) :
    ∃ r l' c' v, g.leg.Plotted r l' c' v ∧ g.leg.Workable ∧ r ≤ t := by
  cases plotted.heading with
  | rest _ _ review =>
    rw [review, unbounded_eq] at due
    exact (not_posInf_le_fin t due).elim
  | @leg r w underway =>
    rw [underway.review, fin_le] at due
    have moved := plotted.toOrderly.moveTo underway.before.le
    have able := workable.moveTo (fin r)
    obtain ⟨l', c', v, next, -⟩ := moved.replan able
    refine ⟨r, l', c', v, ?_⟩
    unfold Generator.leg
    rw [underway.review]
    exact ⟨next, able.replan moved.regular, due⟩

omit [IsStrictOrderedRing K] in
/-- The reviews up to an earlier time come first. -/
theorem Passes.trans {h k : Generator (Exact K)} {s t : K} (hst : s ≤ t)
    (first : Passes (fin s) g k) (second : Passes (fin t) k h) : Passes (fin t) g h := by
  induction first with
  | arrived => exact second
  | leg due rest ih => exact .leg (le_trans due (fin_le.mpr hst)) (ih second)

/-- With fuel for every review there is, all those up to `t` are gone through. -/
theorem Plotted.passes {k fuel : Nat} (enough : k ≤ fuel) (plotted : g.Plotted n l c ρ)
    (workable : g.Workable) (settles : g.SettlesIn k) :
    Passes (fin t) g (legsTo (fin t) fuel g) := by
  induction fuel generalizing k g n l c ρ with
  | zero =>
    -- with no reviews left to come, the generator is at rest
    obtain rfl := Nat.le_zero.mp enough
    exact .arrived (settles ▸ not_posInf_le_fin t)
  | succ fuel ih =>
    unfold Generator.legsTo
    by_cases due : g.review ≤ fin t
    · have moving : g.review ≠ unbounded := by
        intro rest
        rw [rest] at due
        exact not_posInf_le_fin t due
      obtain ⟨r, l', c', v, next, able, -⟩ := plotted.leg workable due
      rw [if_pos due, if_neg (not_le_of_lt next.now_lt_review)]
      cases k with
      | zero => exact (moving settles).elim
      | succ k =>
        exact .leg due
          (ih (Nat.le_of_succ_le_succ enough) next able (settles.resolve_left moving))
    · rw [if_neg due]
      exact .arrived due

/-- Going through reviews leaves a generator on course, with none left up to `t`, and keeps what
legs and revisions keep. -/
theorem Passes.onCourse {h : Generator (Exact K)} (passes : Passes (fin t) g h)
    (kept : KeptByLegs g₀ t P) (course : g.OnCourse n l c ρ) (workable : g.Workable)
    (same : SameSettings g₀ g) (holds : P g) (ht : n ≤ t) :
    ∃ n' l' c' v, h.OnCourse n' l' c' v ∧ h.Workable ∧ SameSettings g₀ h ∧ P h ∧ n' ≤ t ∧
      fin t < h.review := by
  induction passes generalizing n l c ρ with
  | arrived later =>
    exact ⟨n, l, c, ρ, course, workable, same, holds, ht,
      course.plotted.lt_review_of_not_le later⟩
  | leg due rest ih =>
    obtain ⟨r, l', c', v, next, able, same', still, hr⟩ := course.leg workable same kept holds due
    exact ih next able same' still hr

theorem Passes.plotted {h : Generator (Exact K)} (passes : Passes (fin t) g h)
    (plotted : g.Plotted n l c ρ) (workable : g.Workable) (ht : n ≤ t) :
    ∃ n' l' c' v, h.Plotted n' l' c' v ∧ n' ≤ t ∧ fin t < h.review := by
  induction passes generalizing n l c ρ with
  | arrived later => exact ⟨n, l, c, ρ, plotted, ht, plotted.lt_review_of_not_le later⟩
  | leg due rest ih =>
    obtain ⟨r, l', c', v, next, able, hr⟩ := plotted.leg workable due
    exact ih next able hr

/-- An advance goes through the reviews on the way, and moves on along the last leg. -/
theorem Plotted.advance_eq (plotted : g.Plotted n l c ρ) (workable : g.Workable) (ahead : n < t) :
    ∃ h, Passes (fin t) g h ∧ g.advance (fin t) = h.moveTo (fin t) := by
  have bound : 6 * (g.schedule.size + 1) ≤ g.legBound := Nat.le_add_left _ _
  refine ⟨_, plotted.passes bound workable (plotted.settlesIn workable), ?_⟩
  unfold Generator.advance
  rw [if_neg (by simpa [plotted.stands.now] using ahead)]

theorem OnCourse.advance_eq (course : g.OnCourse n l c ρ) (workable : g.Workable) (ahead : n < t) :
    ∃ h, Passes (fin t) g h ∧ g.advance (fin t) = h.moveTo (fin t) :=
  course.plotted.advance_eq workable ahead

omit [IsStrictOrderedRing K] in
theorem Plotted.advance_of_past (plotted : g.Plotted n l c ρ) (past : t ≤ n) :
    g.advance (fin t) = g := by
  unfold Generator.advance
  rw [if_pos (.inr (by rw [plotted.stands.now]; exact fin_le.mpr past))]

/-- After an advance the plan suits the schedule still. -/
theorem Plotted.advance (plotted : g.Plotted n l c ρ) (workable : g.Workable) (t : K) :
    ∃ n' l' c' v, (g.advance (fin t)).Plotted n' l' c' v := by
  rcases le_or_gt t n with past | ht
  · rw [plotted.advance_of_past past]
    exact ⟨n, l, c, ρ, plotted⟩
  · obtain ⟨h, passes, arrives⟩ := plotted.advance_eq workable ht
    obtain ⟨n', l', c', v, still, hn, review⟩ := passes.plotted plotted workable ht.le
    rw [arrives]
    exact ⟨t, l', _, v, still.moveTo hn review⟩

/-- An advance arrives at its time on course, if that lies ahead, and keeps what legs and revisions
keep. -/
theorem OnCourse.advance (course : g.OnCourse n l c ρ) (workable : g.Workable)
    (kept : KeptByLegs g t P) (holds : P g) :
    ∃ l' c' v, (g.advance (fin t)).OnCourse (max n t) l' c' v ∧ P (g.advance (fin t)) := by
  rcases le_or_gt t n with past | ht
  · rw [course.plotted.advance_of_past past, max_eq_left past]
    exact ⟨l, c, ρ, course, holds⟩
  · obtain ⟨h, passes, arrives⟩ := course.advance_eq workable ht
    obtain ⟨n', l', c', v, course', able, same, still, hn, review⟩ :=
      passes.onCourse kept course workable (.refl g) holds ht.le
    rw [arrives, max_eq_right ht.le]
    refine ⟨l', _, v, course'.moveTo hn review, ?_⟩
    rcases hn.lt_or_eq with short | rfl
    · exact kept.move same course' able still short (le_of_lt review) le_rfl
    · rw [moveTo_of_past course'.stands.now le_rfl]
      exact still

end Advance

end Generator

end UnitDispatch
