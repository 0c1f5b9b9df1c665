import UnitDispatch.Proofs.History
import UnitDispatch.Proofs.UnitEffect

/-! # What negative limits leave behind

While a limit is negative, a plan may lead anywhere. As soon as none is, a revision puts the plan
right, but for the rate: one that lies beyond the limits is kept if it leads toward a due setpoint.
So whatever has been done to a generator, its plan suits its schedule when its limits are not
negative, and it is on course when its rate keeps to them too.
-/

namespace UnitDispatch

open Quantity Exact

namespace Generator

variable {K : Type} [Field K] [LinearOrder K] {g h : Generator (Exact K)} {n l c ρ x : K}

theorem LimitsNonneg.of_same {α : Type} [Quantity α] {g h : Generator α} (limits : g.LimitsNonneg)
    (same : SameSettings g h) : h.LimitsNonneg where
  rampUp := by rw [same.envelope]; exact limits.rampUp
  rampDown := by rw [same.envelope]; exact limits.rampDown
  limitUp := by rw [same.rampLimitUp]; exact limits.limitUp
  rampTime := by rw [same.rampTime]; exact limits.rampTime

/-- Settings that are numbers let a generator work as soon as no limit is negative. -/
theorem Sound.workable (sound : g.Sound x) (limits : g.LimitsNonneg) : g.Workable :=
  ⟨limits, sound.proper.targets⟩

/-- An idle generator has no limits. -/
theorem idle_limitsNonneg [IsStrictOrderedRing K] (o : K) : (idle (fin o)).LimitsNonneg where
  rampUp := by simp [idle, Envelope.boundless]
  rampDown := by simp [idle, Envelope.boundless]
  limitUp := by
    have whole : (idle (fin o)).rampLimitUp = unbounded := by
      unfold rampLimitUp
      dsimp only
      rw [if_pos (.inl (by simp [idle, Reserve.empty, Reserve.tolerance_eq]))]
      rfl
    simp [whole]
  rampTime := by simp [idle, ofNat_fin]

theorem Orderly.past (orderly : g.Orderly n l c ρ) : g.last ≤ g.now := by
  rw [orderly.stands.last, orderly.stands.now]
  exact fin_le.mpr orderly.last

/-- What any history of numbers leaves: a schedule in order, and a plan that suits it unless a limit
is negative. -/
structure Historic (x : K) (g : Generator (Exact K)) : Prop where
  sound : g.Sound x
  orderly : ∃ n l c ρ, g.Orderly n l c ρ
  plotted : g.LimitsNonneg → ∃ n l c ρ, g.Plotted n l c ρ

/-- Whatever does not count for a plan may change. -/
theorem Historic.congr (historic : g.Historic x) (sound : h.Sound x) (settings : SameSettings g h)
    (state : SameState g h) : h.Historic x where
  sound := sound
  orderly := by
    obtain ⟨n, l, c, ρ, orderly⟩ := historic.orderly
    refine ⟨n, l, c, ρ, ?_, ?_, ?_, orderly.last, settings.called orderly.called⟩
    · rw [state.schedule]
      exact orderly.sorted
    · rw [state.schedule]
      exact orderly.times
    · exact ⟨state.now.trans orderly.stands.now, state.last.trans orderly.stands.last,
        state.committed.trans orderly.stands.committed, state.rate.trans orderly.stands.rate⟩
  plotted := by
    intro limits
    obtain ⟨n, l, c, ρ, plotted⟩ := historic.plotted (limits.of_same settings.symm)
    exact ⟨n, l, c, ρ, plotted.congr settings state⟩

variable [IsStrictOrderedRing K]

/-! ## Order under any limits -/

theorem Sound.replan_orderly (sound : g.Sound x) (orderly : g.Orderly n l c ρ) :
    ∃ n l c ρ, g.replan.Orderly n l c ρ := by
  have revises := replan_revises orderly.regular sound.proper orderly.stands
  have planned := sound.replan.regular
  obtain ⟨n', l', c', v, stands⟩ := planned.stands
  obtain ⟨_, taken⟩ := orderly.takeDue
  have past : g.replan.last ≤ g.replan.now := by
    generalize g.replan = h at revises ⊢
    cases revises with
    | ahead => exact orderly.past
    | next | carry | jump => exact taken.past
  rw [stands.last, stands.now, fin_le] at past
  exact ⟨n', l', c', v, planned.sorted, planned.times, stands, past,
    (replan_sameSettings g).called orderly.called⟩

theorem Orderly.moveTo_any (orderly : g.Orderly n l c ρ) (t : K) :
    ∃ n l c ρ, (g.moveTo (fin t)).Orderly n l c ρ := by
  rcases le_or_gt n t with ahead | past
  · exact ⟨t, l, _, ρ, orderly.moveTo ahead⟩
  · rw [moveTo_of_past orderly.stands.now past.le]
    exact ⟨n, l, c, ρ, orderly⟩

theorem Sound.leg_orderly (sound : g.Sound x) (orderly : g.Orderly n l c ρ) {t : K}
    (due : g.review ≤ fin t) : ∃ n l c ρ, g.leg.Orderly n l c ρ := by
  obtain ⟨r, -, leg⟩ := leg_of_due orderly.stands.now due
  obtain ⟨_, _, _, _, moved⟩ := orderly.moveTo_any r
  rw [leg]
  exact (sound.moveTo r).replan_orderly moved

theorem Sound.legsTo_orderly (sound : g.Sound x) (orderly : g.Orderly n l c ρ) (t : K)
    (fuel : Nat) : ∃ n l c ρ, (Generator.legsTo (fin t) fuel g).Orderly n l c ρ := by
  refine (legsTo_induction (P := fun h => h.Sound x ∧ ∃ n l c ρ, h.Orderly n l c ρ) ?_ fuel
    ⟨sound, n, l, c, ρ, orderly⟩).2
  rintro h due ⟨sound, _, _, _, _, orderly⟩
  exact ⟨sound.leg due, sound.leg_orderly orderly due⟩

theorem Sound.advance_orderly (sound : g.Sound x) (orderly : g.Orderly n l c ρ) (t : K) :
    ∃ n l c ρ, (g.advance (fin t)).Orderly n l c ρ := by
  unfold Generator.advance
  split
  · exact ⟨n, l, c, ρ, orderly⟩
  · obtain ⟨_, _, _, _, still⟩ := sound.legsTo_orderly orderly t g.legBound
    exact still.moveTo_any t

/-! ## Whatever is done -/

/-- A revision puts the plan right, if no limit is negative. -/
theorem Sound.replan_historic (sound : g.Sound x) (orderly : g.Orderly n l c ρ) :
    g.replan.Historic x where
  sound := sound.replan
  orderly := sound.replan_orderly orderly
  plotted := by
    intro limits
    obtain ⟨l', c', v, plotted, -⟩ :=
      orderly.replan (sound.workable (limits.of_same (replan_sameSettings g).symm))
    exact ⟨n, l', c', v, plotted⟩

theorem Historic.start (historic : g.Historic x) (t : K) : (g.start (fin t)).Historic x := by
  obtain ⟨n, l, c, ρ, orderly⟩ := historic.orderly
  exact ((historic.sound.restart t).replan_historic (orderly.restart t)).congr
    (historic.sound.start t) ⟨rfl, rfl, rfl, rfl, rfl, rfl⟩
    ⟨rfl, rfl, rfl, rfl, rfl, rfl, rfl, rfl⟩

theorem Historic.advance (historic : g.Historic x) (t : K) : (g.advance (fin t)).Historic x where
  sound := historic.sound.advance t
  orderly := by
    obtain ⟨n, l, c, ρ, orderly⟩ := historic.orderly
    exact historic.sound.advance_orderly orderly t
  plotted := by
    intro limits
    have before := limits.of_same (advance_sameSettings g (fin t)).symm
    obtain ⟨n, l, c, ρ, plotted⟩ := historic.plotted before
    exact plotted.advance (historic.sound.workable before) t

theorem Historic.add (historic : g.Historic x) {t p : Exact K} (time : isFinite t = true)
    (power : isFinite p = true) : (g.add t p).Historic x := by
  obtain ⟨n, l, c, ρ, orderly⟩ := historic.orderly
  let q : Setpoint (Exact K) := ⟨t, p, false⟩
  have queued := historic.sound.queue (q := q) time power
  have revised (review : Exact K) :=
    (queued review).replan_historic (orderly.queue (q := q) time review)
  unfold Generator.add
  dsimp only
  by_cases before : t < g.review
  · rw [if_pos before]
    split
    · exact revised t
    next differs =>
      obtain ⟨y, rfl⟩ := isFinite_iff.mp time
      exact (differs (by simp)).elim
  · rw [if_neg before]
    split
    · exact revised g.review
    · -- what is due no earlier than the review leaves the plan as it is
      refine ⟨queued g.review, ⟨n, l, c, ρ, orderly.queue (q := q) time g.review⟩, ?_⟩
      intro limits
      obtain ⟨n, l, c, ρ, plotted⟩ :=
        historic.plotted (limits.of_same ⟨rfl, rfl, rfl, rfl, rfl, rfl⟩)
      exact ⟨n, l, c, ρ, plotted.queue (q := q) time before⟩

theorem Historic.addAll (historic : g.Historic x) {times powers : List (Exact K)}
    (finite : ∀ p ∈ times.zip powers, isFinite p.1 = true ∧ isFinite p.2 = true) :
    (g.addAll times powers).Historic x :=
  addAll_induction (fun _ p hp still => still.add (finite p hp).1 (finite p hp).2) historic

omit [IsStrictOrderedRing K] in
theorem Historic.clear (historic : g.Historic x) : g.clear.Historic x := by
  obtain ⟨n, l, c, ρ, orderly⟩ := historic.orderly
  exact ⟨historic.sound.clear, ⟨n, l, c, 0, orderly.clear.toOrderly⟩,
    fun _ => ⟨n, l, c, 0, orderly.clear⟩⟩

theorem Historic.act (historic : g.Historic x) {a : Action (Exact K)} (given : a.Numeric) :
    (g.act a).Historic x := by
  have effect := act_effect g a
  generalize g.act a = h at effect ⊢
  have times := given.times
  have powers := given.powers
  cases effect with
  | @start time named =>
    obtain ⟨t, rfl⟩ := isFinite_iff.mp (times time named)
    exact historic.start t
  | @advance time named =>
    subst named
    obtain ⟨t, rfl⟩ := isFinite_iff.mp (times time List.mem_cons_self)
    exact historic.advance t
  | add named asked =>
    refine historic.addAll ?_
    intro p hp
    refine ⟨?_, powers _ (asked p hp)⟩
    rcases named p hp with now | named
    · obtain ⟨n, l, c, ρ, orderly⟩ := historic.orderly
      rw [now, orderly.stands.now]
      exact isFinite_fin n
    · exact times _ named
  | replace named asked =>
    exact historic.clear.addAll fun p hp => ⟨times _ (named p hp), powers _ (asked p hp)⟩
  | configure change =>
    obtain ⟨n, l, c, ρ, orderly⟩ := historic.orderly
    exact (historic.sound.resettle (historic.sound.numeric.configure given change)
      (configure_sameState change)).replan_historic (orderly.configure change)
  | register dispatcher =>
    exact historic.congr (historic.sound.resettle
      (historic.sound.numeric.of_same ⟨rfl, rfl, rfl, rfl, rfl, rfl⟩)
      ⟨rfl, rfl, rfl, rfl, rfl, rfl, rfl, rfl⟩) ⟨rfl, rfl, rfl, rfl, rfl, rfl⟩
      ⟨rfl, rfl, rfl, rfl, rfl, rfl, rfl, rfl⟩

theorem Historic.run (historic : g.Historic x) {as : List (Action (Exact K))}
    (given : ∀ a ∈ as, a.Numeric) : (g.run as).Historic x := by
  induction as generalizing g with
  | nil => exact historic
  | cons a as ih =>
    refine ih (historic.act (given a List.mem_cons_self)) ?_
    intro b hb
    exact given b (List.mem_cons_of_mem a hb)

omit [IsStrictOrderedRing K] in
theorem idle_historic (o : K) : (idle (fin o)).Historic 0 where
  sound := idle_sound o
  orderly := ⟨0, 0, o, 0, (idle_onCourse o).toOrderly⟩
  plotted := fun _ => ⟨0, 0, o, 0, (idle_onCourse o).plotted⟩

omit [IsStrictOrderedRing K] in
/-- Whatever has been done to a generator, it is on course if no limit is negative now and its rate
keeps to them. -/
theorem Historic.onCourse (historic : g.Historic x) (limits : g.LimitsNonneg) (rated : g.Rated) :
    ∃ n l c ρ, g.OnCourse n l c ρ := by
  obtain ⟨n, l, c, ρ, plotted⟩ := historic.plotted limits
  exact ⟨n, l, c, ρ, plotted.onCourse rated⟩

end Generator

end UnitDispatch
