import UnitDispatch.Proofs.Accounting
import UnitDispatch.Proofs.SimulatedCourse

/-! # Targets are counted when they fall due

Two quantities tell how many targets a row counts. A revision of the plan, and so an advance,
leaves alone how many setpoints asked for are counted or scheduled (`Generator.tally`), and which of
them lie ahead (`Generator.pending`), whatever the generator queues itself. On course all that is
scheduled lies ahead, so an advance counts what falls due on the way and nothing else:
`Scenario.rows_consumed`.
-/

namespace UnitDispatch

open Quantity Exact

/-! ## What is counted and what lies ahead -/

namespace Generator

section

variable {α : Type} [Quantity α]

/-- How many setpoints asked for have been counted or are scheduled. -/
def tally (g : Generator α) : Nat :=
  g.consumed + (commanded (g.schedule.setpoints : Multiset (Setpoint α))).card

/-- The setpoints asked for that lie ahead. -/
def pending (g : Generator α) : Multiset (Setpoint α) :=
  (commanded (g.schedule.setpoints : Multiset (Setpoint α))).filter fun p => g.now < p.time

omit [Quantity α] in
theorem commanded_cons (p : Setpoint α) (s : Multiset (Setpoint α)) :
    commanded (p ::ₘ s) = if p.carried then commanded s else p ::ₘ commanded s := by
  unfold commanded
  rw [Multiset.filter_cons]
  split <;> simp_all

theorem commanded_insert (s : Schedule α) (p : Setpoint α) :
    commanded ((s.insert p).setpoints : Multiset (Setpoint α)) =
      if p.carried then commanded (s.setpoints : Multiset (Setpoint α))
      else p ::ₘ commanded (s.setpoints : Multiset (Setpoint α)) := by
  rw [Multiset.coe_eq_coe.mpr (s.insert_perm p), ← Multiset.cons_coe, commanded_cons]

/-- A revision takes what is due off the schedule, and puts nothing on it that was asked for. -/
theorem commanded_replan (g : Generator α) :
    commanded (g.schedule.setpoints : Multiset (Setpoint α)) =
      commanded (g.schedule.due g.now : Multiset (Setpoint α)) +
        commanded (g.replan.schedule.setpoints : Multiset (Setpoint α)) := by
  have parts := g.schedule.due_append_afterDue g.now
  have kept : commanded (g.replan.schedule.setpoints : Multiset (Setpoint α)) =
      commanded ((g.schedule.afterDue g.now).setpoints : Multiset (Setpoint α)) := by
    unfold replan
    cases last : (g.schedule.due g.now).getLast? with
    | none =>
      rw [List.getLast?_eq_none_iff.mp last, List.nil_append] at parts
      rw [parts]
      rfl
    | some p =>
      dsimp only
      rw [settle_schedule]
      cases own : g.takeDue.carried? p.power with
      | none => rfl
      | some q =>
        rw [Option.elim_some, commanded_insert, if_pos (own_carried own)]
        rfl
  rw [kept, ← commanded_add, Multiset.coe_add, parts]

theorem tally_replan (g : Generator α) : g.replan.tally = g.tally := by
  have counted := (replan_accounts g).consumed
  have served : gather Entry.served g.journalOfReplan = g.schedule.due g.now :=
    congrArg Multiset.ofList (served_replan g)
  unfold tally
  rw [counted, served, commanded_replan g, Multiset.card_add, add_assoc]

/-- Nothing that lies ahead is due. -/
theorem pending_replan (g : Generator α) : g.replan.pending = g.pending := by
  have past : (commanded (g.schedule.due g.now : Multiset (Setpoint α))).filter
      (fun p => g.now < p.time) = 0 := by
    refine Multiset.filter_eq_nil.mpr fun p hp => ?_
    exact Schedule.not_lt_of_mem_due (Multiset.mem_coe.mp (Multiset.mem_of_mem_filter hp))
  unfold pending
  rw [(replan_samePlant g).now, commanded_replan g, Multiset.filter_add, past, zero_add]

/-- A target lies ahead or falls due at once. -/
theorem pending_add (g : Generator α) (t : Target α) :
    (g.add t.time t.power).pending =
      Multiset.filter (fun p => g.now < p.time) {t.setpoint} + g.pending := by
  have queued : (g.enqueue t.setpoint).pending =
      Multiset.filter (fun p => g.now < p.time) {t.setpoint} + g.pending := by
    have whole : commanded ((g.schedule.insert t.setpoint).setpoints : Multiset (Setpoint α)) =
        {t.setpoint} + commanded (g.schedule.setpoints : Multiset (Setpoint α)) := by
      rw [commanded_insert, Multiset.singleton_add]
      rfl
    show Multiset.filter (fun p => g.now < p.time)
      (commanded ((g.schedule.insert t.setpoint).setpoints : Multiset (Setpoint α))) = _
    rw [whole, Multiset.filter_add]
    rfl
  rw [add_eq]
  split
  · exact (pending_replan _).trans queued
  · exact queued

/-- Of the targets a generator is given, those that lie ahead are pending. -/
theorem pending_addAll (g : Generator α) (targets : List (Target α)) :
    let h := g.addAll (targets.map (·.time)) (targets.map (·.power))
    h.pending = Multiset.filter (fun p => g.now < p.time) ↑(targets.map (·.setpoint)) + g.pending ∧
      h.now = g.now := by
  induction targets generalizing g with
  | nil => exact ⟨(zero_add _).symm, rfl⟩
  | cons t rest ih =>
    obtain ⟨pending, now⟩ := ih (g.add t.time t.power)
    refine ⟨?_, now.trans (g.add_now _ _)⟩
    show (Generator.addAll (g.add t.time t.power) _ _).pending = _
    rw [pending, pending_add, add_now, List.map_cons, ← Multiset.cons_coe, ← Multiset.singleton_add,
      Multiset.filter_add]
    ac_rfl

end

variable {K : Type} [Field K] [LinearOrder K] [IsStrictOrderedRing K] {g : Generator (Exact K)}
  {n l c ρ t : K}

omit [IsStrictOrderedRing K] in
/-- What lies ahead of a later time lies ahead of an earlier one. -/
theorem filter_later (hnt : n ≤ t) (s : Multiset (Setpoint (Exact K))) :
    (s.filter fun p => fin n < p.time).filter (fun p => fin t < p.time) =
      s.filter fun p => fin t < p.time := by
  rw [Multiset.filter_filter]
  refine Multiset.filter_congr fun p _ => and_iff_left_of_imp fun later => ?_
  exact Ordered.lt_of_le_of_lt (fin_le.mpr hnt) later

omit [IsStrictOrderedRing K] in
/-- Made ready to advance, a generator has pending what lies ahead of the start. -/
theorem OnCourse.pending_start (course : g.OnCourse n l c ρ) (hnt : n ≤ t) :
    (g.start (fin t)).pending = g.pending.filter fun p => fin t < p.time := by
  have replanned : (g.start (fin t)).pending = (g.dropTo (fin t)).pending :=
    pending_replan (g.dropTo (fin t))
  have parts := List.take_append_drop (g.schedule.countBefore (fin t)) g.schedule.setpoints
  rw [← Schedule.setpoints_dropBefore] at parts
  have past : (commanded (g.schedule.setpoints.take (g.schedule.countBefore (fin t)) :
      Multiset (Setpoint (Exact K)))).filter (fun p => fin t < p.time) = 0 := by
    refine Multiset.filter_eq_nil.mpr fun p hp later => ?_
    have older := course.sorted.lt_of_mem_dropped
      (Multiset.mem_coe.mp (Multiset.mem_of_mem_filter hp))
    exact not_le_of_lt older (le_of_lt later)
  rw [replanned]
  unfold pending
  rw [course.stands.now, filter_later hnt, ← parts, ← Multiset.coe_add, commanded_add,
    Multiset.filter_add, past, zero_add]
  rfl

/-- Of all that was asked for, what lies ahead is pending, and the tally stays what it is. -/
structure Owing (whole : Multiset (Setpoint (Exact K))) (total : Nat) (g : Generator (Exact K)) :
    Prop where
  tally : g.tally = total
  pending : g.pending = whole.filter fun p => g.now < p.time

theorem owing_lasting (whole : Multiset (Setpoint (Exact K))) (total : Nat) :
    Lasting (Owing whole total) where
  call _ owing := ⟨owing.tally, owing.pending⟩
  withOutput _ _ owing := ⟨owing.tally, owing.pending⟩
  move := by
    intro g n l c ρ s course owing ahead _
    refine ⟨?_, ?_⟩
    · unfold Generator.tally
      rw [moveTo_consumed, moveTo_schedule]
      exact owing.tally
    · have before := owing.pending
      unfold Generator.pending at before ⊢
      rw [course.stands.now] at before
      rw [(course.stands.moveTo ahead.le).now, moveTo_schedule, ← filter_later ahead.le, before,
        filter_later ahead.le]
  replan := by
    intro g n l c ρ _ _ owing
    refine ⟨(tally_replan g).trans owing.tally, (pending_replan g).trans ?_⟩
    rw [(replan_samePlant g).now]
    exact owing.pending

end Generator

/-! ## Rows -/

theorem RegulatedUnit.Coursing.consumed_add {K : Type} [Field K] [LinearOrder K]
    [IsStrictOrderedRing K] {whole : Multiset (Setpoint (Exact K))} {total : Nat} {n : K}
    {u : RegulatedUnit (Exact K)} (coursing : u.Coursing (Generator.Owing whole total) n) :
    u.generator.consumed + (whole.filter fun p => fin n < p.time).card = total := by
  obtain ⟨l, c, ρ, course⟩ := coursing.course
  have all : u.generator.pending =
      Generator.commanded (u.generator.schedule.setpoints : Multiset (Setpoint (Exact K))) := by
    refine Multiset.filter_eq_self.mpr fun p hp => ?_
    exact course.ahead p (Multiset.mem_coe.mp (Multiset.mem_of_mem_filter hp))
  have pending := coursing.holds.pending
  rw [all, course.stands.now] at pending
  rw [← pending]
  exact coursing.holds.tally

theorem Report.consumed_ofRows {α : Type} [Quantity α] (rows : List (Row α)) (step : α) :
    (ofRows rows step).consumed = (rows.map (·.consumed)).sum := by
  unfold ofRows
  split
  next none =>
    rw [List.isEmpty_iff.mp none]
    rfl
  next => rw [List.sum_eq_foldl, List.foldl_map]

namespace Scenario

section

variable {α : Type} [Quantity α]

/-- How many targets fall due after `a` and no later than `b`. -/
def dueBetween (s : Scenario α) (a b : α) : Nat :=
  s.targets.countP fun t => decide (a < t.time) && decide (t.time ≤ b)

/-- The setpoints that the targets ask for. -/
def asked (s : Scenario α) : Multiset (Setpoint α) := ↑(s.targets.map (·.setpoint))

theorem card_asked_after (s : Scenario α) (time : α) :
    (s.asked.filter fun p => time < p.time).card =
      s.targets.countP fun t => decide (time < t.time) := by
  unfold asked
  rw [← Multiset.countP_eq_card_filter, Multiset.coe_countP, List.countP_map]
  rfl

end

variable {K : Type} [Field K] [LinearOrder K] [IsStrictOrderedRing K] {s : Scenario (Exact K)}
  {a b c : K}

omit [IsStrictOrderedRing K] in
/-- What lies ahead of `a` falls due by `b` or lies ahead of that as well. -/
theorem card_asked_between (finite : ∀ t ∈ s.targets, isFinite t.time = true) (hab : a ≤ b) :
    (s.asked.filter fun p => fin a < p.time).card =
      s.dueBetween (fin a) (fin b) + (s.asked.filter fun p => fin b < p.time).card := by
  rw [card_asked_after, card_asked_after]
  unfold dueBetween
  generalize s.targets = targets at finite
  induction targets with
  | nil => rfl
  | cons t rest ih =>
    obtain ⟨x, time⟩ := isFinite_iff.mp (finite t List.mem_cons_self)
    have others := ih fun u hu => finite u (List.mem_cons_of_mem t hu)
    simp only [List.countP_cons, time, fin_lt, fin_le, Bool.and_eq_true, decide_eq_true_eq]
    rcases le_or_gt x a with early | late
    · rw [if_neg (not_lt.mpr early), if_neg fun h => not_lt.mpr early h.1,
        if_neg (not_lt.mpr (early.trans hab))]
      exact others
    · rcases le_or_gt x b with due | later
      · rw [if_pos late, if_pos ⟨late, due⟩, if_neg (not_lt.mpr due)]
        omega
      · rw [if_pos late, if_neg fun h => not_le.mpr later h.2, if_pos later]
        omega

omit [IsStrictOrderedRing K] in
theorem dueBetween_trans (finite : ∀ t ∈ s.targets, isFinite t.time = true) (hab : a ≤ b)
    (hbc : b ≤ c) : s.dueBetween (fin a) (fin c) =
      s.dueBetween (fin a) (fin b) + s.dueBetween (fin b) (fin c) := by
  have whole := card_asked_between finite (hab.trans hbc)
  have first := card_asked_between finite hab
  have second := card_asked_between finite hbc
  omega

/-- A row counts the targets that fall due in its step. -/
theorem consumed_of_counts (finite : ∀ t ∈ s.targets, isFinite t.time = true) (hab : a ≤ b)
    {total : Nat} {row : Row (Exact K)}
    (counts : Simulation.Counts (Generator.Owing s.asked total) a b row) :
    row.consumed = s.dueBetween (fin a) (fin b) := by
  obtain ⟨u, v, before, after, consumed⟩ := counts
  have between := card_asked_between finite hab
  have total := before.consumed_add
  have total' := after.consumed_add
  omega

/-- Each target is in one step. -/
theorem sum_dueBetween (finite : ∀ t ∈ s.targets, isFinite t.time = true)
    {start step : K} (positive : 0 < step) (k m : Nat) :
    ((List.range' k m).map fun i : Nat =>
        s.dueBetween (fin (start + i * step)) (fin (start + (i + 1 : Nat) * step))).sum =
      s.dueBetween (fin (start + k * step)) (fin (start + (k + m : Nat) * step)) := by
  induction m generalizing k with
  | zero =>
    have nothing := card_asked_between finite (le_refl (start + k * step))
    rw [List.range'_zero, List.map_nil, List.sum_nil, Nat.add_zero]
    omega
  | succ m ih =>
    have later {i j : Nat} (h : i ≤ j) : start + i * step ≤ start + j * step := by
      have := mul_le_mul_of_nonneg_right (Nat.cast_le.mpr h : (i : K) ≤ j) positive.le
      linarith
    rw [List.range'_succ, List.map_cons, List.sum_cons, ih, ← Nat.add_right_comm,
      ← dueBetween_trans finite (later (Nat.le_succ k)) (later (by omega))]
    rfl

/-- The rows of equal steps count the targets that fall due in them. -/
theorem consumed_of_steps (finite : ∀ t ∈ s.targets, isFinite t.time = true) {start step : K}
    (positive : 0 < step) {total n : Nat} {rows : List (Row (Exact K))}
    (counts : List.Forall₂ (fun i : Nat => Simulation.Counts (Generator.Owing s.asked total)
      (start + i * step) (start + (i + 1 : Nat) * step)) (List.range' 0 n) rows) :
    rows.map (·.consumed) = (List.range n).map fun i : Nat =>
      s.dueBetween (fin (start + i * step)) (fin (start + (i + 1 : Nat) * step)) := by
  rw [List.range_eq_range', ← List.forall₂_eq_eq_eq, List.forall₂_map_left_iff,
    List.forall₂_map_right_iff]
  refine List.Forall₂.flip (counts.imp fun i row counts => ?_)
  have later : start + i * step ≤ start + (i + 1 : Nat) * step := by
    push_cast
    linarith
  exact consumed_of_counts finite later counts

/-- When it is ready, the generator has pending what lies ahead of the start. -/
theorem supplied_pending (finite : ∀ v ∈ s.values, isFinite v = true) (valid : s.faults = [])
    (ramps : s.RampsLeft) (mode : RampMode) {start : K} (started : 0 ≤ start) :
    ((s.supplied mode).start (fin start)).pending =
      s.asked.filter fun p => fin start < p.time := by
  obtain ⟨⟨n, l, c, ρ, course⟩, -⟩ := supplied_going finite valid ramps mode
  obtain ⟨blank, -⟩ := equipped_idle s.unit s.regulation mode
  obtain ⟨pending, now⟩ :=
    (equipped s.unit s.regulation mode).generator.pending_addAll s.targets
  have nothing : (equipped s.unit s.regulation mode).generator.pending = 0 := by
    unfold Generator.pending
    rw [blank.empty]
    rfl
  rw [nothing, add_zero, blank.now, zero_eq] at pending
  obtain rfl : n = 0 :=
    fin.inj (course.stands.now.symm.trans (now.trans (blank.now.trans zero_eq)))
  have same : (s.supplied mode).pending = s.asked.filter fun p => fin 0 < p.time := pending
  rw [course.pending_start started, same, Generator.filter_later started]

/-- In a scenario with finite numbers and no faults, from a start that is not negative, with ramp
limits that cover regulation and reserve: whatever commands the unit is given, each row counts the
targets that fall due in its step, and the report those that fall due in the run. -/
theorem rows_consumed {σ : Type} [CommandSource σ (Exact K)]
    (finite : ∀ v ∈ s.values, isFinite v = true) (valid : s.faults = [])
    (started : 0 ≤ s.timing.start) (ramps : s.RampsLeft) (source : σ) :
    ∃ sim, s.simulation source = .ok sim ∧
      sim.run.1.map (·.consumed) = (List.range s.timing.steps).map (fun k =>
        s.dueBetween (s.timing.after k) (s.timing.after (k + 1))) ∧
      (Report.ofRows sim.run.1 s.timing.step).consumed =
        s.dueBetween s.timing.start (s.timing.after s.timing.steps) := by
  obtain ⟨mode, known⟩ := rampMode?_of_faults_eq_nil valid
  obtain ⟨start, step, begins, positive, after⟩ := after_of_valid finite valid
  rw [begins, zero_eq, fin_le] at started
  have times : ∀ t ∈ s.targets, isFinite t.time = true := fun t ht => (target_isFinite finite ht).1
  obtain ⟨total, counted⟩ : ∃ total, ((s.supplied mode).start s.timing.start).tally = total :=
    ⟨_, rfl⟩
  have lasting := Generator.owing_lasting s.asked total
  obtain ⟨sim, built, length, steps⟩ :=
    simulation_steps lasting finite valid ramps begins positive after
      (fun other known' => by
        obtain rfl : other = mode := by
          rw [known] at known'
          exact (Except.ok.inj known').symm
        refine ⟨counted, ?_⟩
        rw [Generator.start_now, begins]
        exact supplied_pending finite valid ramps other started) source
  obtain ⟨counts, -⟩ := steps _ le_rfl
  rw [← length, List.take_length, length] at counts
  have rows : sim.run.1.map (·.consumed) = (List.range s.timing.steps).map fun k =>
      s.dueBetween (s.timing.after k) (s.timing.after (k + 1)) := by
    simp only [after]
    exact consumed_of_steps times positive counts
  refine ⟨sim, built, rows, ?_⟩
  rw [Report.consumed_ofRows, rows, List.range_eq_range']
  simp only [after]
  rw [sum_dueBetween times positive]
  simp [begins]

/-- Stale targets and one at the start, four in the first step, among them two at one time and one
at its end, one that is out of reach when it falls due, and one past the end. -/
theorem rows_consumed_out_of_reach :
    let s : Scenario (Exact ℚ) :=
      { timing := { (Timing.standard : Timing (Exact ℚ)) with start := 100, steps := 3 }
        unit := { (UnitPlan.standard : UnitPlan (Exact ℚ)) with
          mode := "midpoint", reserveAvailable := 9 }
        regulation := { (RegulationPlan.standard : RegulationPlan (Exact ℚ)) with
          enabled := true, upFraction := 0.1, downFraction := 0.1, rating := 60 }
        targets := [⟨-50, 10⟩, ⟨50, 80⟩, ⟨100, 20⟩, ⟨130, 90⟩, ⟨150, 10⟩, ⟨150, 95⟩, ⟨160, 40⟩,
          ⟨200, 100⟩, ⟨1000, 30⟩]
        reserveCalls := [⟨120, 5, false⟩] }
    let source : Recording (Exact ℚ) := ⟨[0.5, -1, 1]⟩
    ∃ sim, s.simulation source = .ok sim ∧ sim.run.1.map (·.consumed) = [4, 1, 0] ∧
      (Report.ofRows sim.run.1 s.timing.step).consumed = 5 := by
  intro s source
  have rows : (List.range s.timing.steps).map (fun k =>
      s.dueBetween (s.timing.after k) (s.timing.after (k + 1))) = [4, 1, 0] := by decide +kernel
  have report : s.dueBetween s.timing.start (s.timing.after s.timing.steps) = 5 := by
    decide +kernel
  rw [← rows, ← report]
  exact rows_consumed (by decide +kernel) (by decide +kernel) (by decide +kernel)
    (by decide +kernel) source

end Scenario

end UnitDispatch
