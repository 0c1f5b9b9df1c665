import UnitDispatch.Proofs.Journal
import UnitDispatch.Proofs.Revision

/-! # Where a generator comes to rest

Under finite ramp limits a generator whose schedule has run empty rests at the power of the setpoint
it took from the schedule last. That is the last one it was given, unless one of its own was taken
with it or stayed behind on the schedule. Nothing is asked of the times and powers of setpoints;
they need not even be numbers. -/

namespace UnitDispatch

open Quantity Exact

namespace Generator

/-! ## The last setpoint acted on -/

section ActedOn

variable {α : Type} {l l' : List (Entry α)} {p : Setpoint α}

/-- No setpoint was taken on command after `p` was, `p` was acted on, and nothing of the generator's
own was left on the schedule behind it. -/
def ActedOn (log : List (Entry α)) (p : Setpoint α) : Prop :=
  ∃ before now due left after, log = before ++ .taken now (due ++ [p]) left :: after ∧
    p.carried = false ∧ (∀ q ∈ left, q.carried = false) ∧
    ∀ q ∈ after.flatMap Entry.served, q.carried = true

theorem ActedOn.mem_served (acted : ActedOn l p) : p ∈ l.flatMap Entry.served := by
  obtain ⟨before, now, due, left, after, rfl, -⟩ := acted
  simp [Entry.served]

theorem ActedOn.append_cases (acted : ActedOn (l ++ l') p) :
    ActedOn l' p ∨ ActedOn l p ∧ ∀ q ∈ l'.flatMap Entry.served, q.carried = true := by
  obtain ⟨before, now, due, left, after, parts, command, clear, own⟩ := acted
  rcases List.append_eq_append_iff.mp parts with ⟨mid, -, rest⟩ | ⟨mid, first, rest⟩
  · exact .inl ⟨mid, now, due, left, after, rest, command, clear, own⟩
  · cases mid with
    | nil => exact .inl ⟨[], now, due, left, after, rest.symm, command, clear, own⟩
    | cons e mid =>
      rw [List.cons_append] at rest
      obtain ⟨rfl, rfl⟩ := List.cons_eq_cons.mp rest
      rw [List.flatMap_append, List.forall_mem_append] at own
      exact .inr ⟨⟨before, now, due, left, mid, first, command, clear, own.1⟩, own.2⟩

variable [Quantity α]

theorem ActedOn.of_replan {g : Generator α} (acted : ActedOn g.journalOfReplan p) :
    (g.schedule.due g.now).getLast? = some p ∧
      ∀ q ∈ g.takeDue.schedule.setpoints, q.carried = false := by
  obtain ⟨before, now, due, left, after, parts, -, clear, -⟩ := acted
  have entry : .taken now (due ++ [p]) left ∈ g.journalOfReplan :=
    parts ▸ List.mem_append_right before List.mem_cons_self
  rcases mem_journalOfReplan entry with taken | ⟨q, queued⟩
  · obtain ⟨-, last, rfl⟩ := Entry.taken.inj taken
    rw [← last]
    exact ⟨List.getLast?_concat, clear⟩
  · cases queued

end ActedOn

/-! ## Steering -/

variable {K : Type} [Field K] [LinearOrder K] {g h k : Generator (Exact K)}
  {p : Setpoint (Exact K)}

/-- The ramp limits are finite and let the generator move, some power limit is defined, no reserve
is held, and clock, power and rate are numbers. -/
structure Steerable (g : Generator (Exact K)) : Prop where
  up : ∃ u, 0 < u ∧ g.envelope.rampUp = fin u
  down : ∃ d, 0 < d ∧ g.envelope.rampDown = fin d
  limits : isNaN g.envelope.powerMin = false ∨ isNaN g.envelope.powerMax = false
  free : g.reserve.available = 0
  stands : ∃ n c ρ, g.now = fin n ∧ g.committed = fin c ∧ g.rate = fin ρ

/-- The committed power is as good as what `p` asks for. -/
def Reached (g : Generator (Exact K)) (p : Setpoint (Exact K)) : Prop :=
  magnitude (g.holdTarget p.power - g.committed) < tolerance

theorem Reached.of_same (reached : g.Reached p) (same : SameSettings g h)
    (committed : h.committed = g.committed) : h.Reached p := by
  unfold Reached
  rwa [same.holdTarget, committed]

theorem Steerable.of_same (steerable : g.Steerable) (same : SameSettings g h)
    (stands : ∃ n c ρ, h.now = fin n ∧ h.committed = fin c ∧ h.rate = fin ρ) : h.Steerable where
  up := by rw [same.envelope]; exact steerable.up
  down := by rw [same.envelope]; exact steerable.down
  limits := by rw [same.envelope]; exact steerable.limits
  free := same.available.trans steerable.free
  stands := stands

theorem Steerable.takeDue (steerable : g.Steerable) : g.takeDue.Steerable :=
  steerable.of_same ⟨rfl, rfl, rfl, rfl, rfl, rfl⟩ steerable.stands

theorem Steerable.holdTarget_defined (steerable : g.Steerable) (power : Exact K) :
    isNaN (g.holdTarget power) = false := by
  refine isNaN_limit ?_ power
  rcases steerable.limits with low | high
  · exact .inl low
  · refine .inr ?_
    rw [steerable.free, zero_eq]
    cases limit : g.envelope.powerMax with
    | fin x => exact isNaN_fin (x + -0)
    | posInf => exact isNaN_posInf
    | negInf => exact isNaN_negInf
    | nan =>
      rw [limit] at high
      exact high

/-! ## Revising the plan -/

section Ordered

variable [IsStrictOrderedRing K]

theorem Steerable.rampLimitUp (steerable : g.Steerable) : g.rampLimitUp = g.envelope.rampUp := by
  have none : g.reserve.available < Reserve.tolerance := by
    rw [steerable.free, zero_eq]
    exact fin_lt.mpr (by positivity : (0 : K) < (1 : ℕ) / 10 ^ 3)
  unfold Generator.rampLimitUp
  dsimp only
  rw [if_pos (.inl none)]

theorem Steerable.nextLeg_rate (steerable : g.Steerable) : ∃ v, g.nextLeg.rate = fin v := by
  obtain ⟨u, u0, up⟩ := steerable.up
  obtain ⟨d, d0, down⟩ := steerable.down
  unfold nextLeg
  split
  · exact ⟨0, zero_eq⟩
  · dsimp only
    split
    · exact ⟨0, zero_eq⟩
    · rw [steerable.rampLimitUp, up, down]
      rcases RampMode.leg_rate g.mode (α := Exact K) _ with rest | ⟨x, held⟩
      · exact ⟨0, rest.trans zero_eq⟩
      · have room : -d ≤ u := by linarith
        obtain ⟨v, rate, -⟩ := limit_mem_Icc room x
        exact ⟨v, held.trans rate⟩

theorem Steerable.planNext (steerable : g.Steerable) : g.planNext.Steerable := by
  obtain ⟨n, c, -, now, committed, -⟩ := steerable.stands
  obtain ⟨v, rate⟩ := steerable.nextLeg_rate
  exact steerable.of_same (follow_samePlant _ _).sameSettings ⟨n, c, v, now, committed, rate⟩

/-- If nothing counts as missing, the power is as good as reached; else what is missing has a
direction. -/
theorem lack_spec {c : K} {power : Exact K} (committed : g.committed = fin c)
    (defined : isNaN power = false) :
    ((g.lack power == 0) = true → magnitude (power - g.committed) < tolerance) ∧
      ((g.lack power == 0) = false → 0 < g.lack power ∨ g.lack power < 0) := by
  unfold lack
  dsimp only
  split
  next near => exact ⟨fun _ => near, fun some => by simp at some⟩
  next apart =>
    rw [committed] at apart ⊢
    cases power with
    | fin w =>
      rw [fin_sub, magnitude_fin, tolerance_eq, fin_lt] at apart
      have nonzero := ne_zero_of_apart apart
      rw [fin_sub, zero_eq, fin_beq, fin_lt, fin_lt]
      exact ⟨fun none => (nonzero (of_decide_eq_true none)).elim,
        fun _ => (lt_or_gt_of_ne nonzero).symm⟩
    | posInf => exact ⟨nofun, fun _ => .inl (by rw [zero_eq]; exact fin_lt_posInf 0)⟩
    | negInf => exact ⟨nofun, fun _ => .inr (by rw [zero_eq]; exact negInf_lt_fin 0)⟩
    | nan => cases defined

/-- What has a direction can be made up at a finite rate. -/
theorem Steerable.catchup_ramp (steerable : g.Steerable) {lack : Exact K}
    (direction : 0 < lack ∨ lack < 0) : ∃ v, g.catchup lack = .ramp (fin v) := by
  obtain ⟨u, u0, up⟩ := steerable.up
  obtain ⟨d, d0, down⟩ := steerable.down
  obtain ⟨n, c, ρ, now, committed, rate⟩ := steerable.stands
  have leads : ∃ v, g.catchupRate lack = fin v ∧ 0 < fin v * lack := by
    unfold catchupRate
    rw [rate]
    split
    next onTheWay => exact ⟨ρ, rfl, onTheWay⟩
    next =>
      split
      next above =>
        rw [steerable.rampLimitUp, up, if_pos (by rw [zero_eq]; exact fin_lt.mpr u0)]
        exact ⟨u, rfl, fin_mul_pos (.inl ⟨u0, above⟩)⟩
      next notAbove =>
        have below := direction.resolve_left notAbove
        rw [down]
        exact ⟨-d, rfl, fin_mul_pos (.inr ⟨neg_lt_zero.mpr d0, below⟩)⟩
  obtain ⟨v, toward, leads⟩ := leads
  refine ⟨v, ?_⟩
  unfold catchup
  dsimp only
  rw [toward, isInfinite_fin, if_neg Bool.false_ne_true, if_pos leads]

/-- What a revision of the plan can make of a steerable generator. -/
inductive Plans (g : Generator (Exact K)) : Generator (Exact K) → Prop
  /-- Nothing is due. -/
  | ahead (undue : g.schedule.due g.now = []) : Plans g g.planNext
  /-- What is due is reached, or something else falls due before it could be. -/
  | next {p : Setpoint (Exact K)} (last : (g.schedule.due g.now).getLast? = some p)
      (reached : g.takeDue.schedule.setpoints = [] → g.Reached p) : Plans g g.takeDue.planNext
  /-- What is due takes a ramp of the generator's own. -/
  | carry {p : Setpoint (Exact K)} {v : K} {finish : Exact K}
      (last : (g.schedule.due g.now).getLast? = some p) :
      Plans g (g.takeDue.carry (g.holdTarget p.power) ⟨fin v, finish⟩)

theorem Steerable.replan_plans (steerable : g.Steerable) : g.Plans g.replan := by
  unfold Generator.replan
  cases last : (g.schedule.due g.now).getLast? with
  | none => exact .ahead (List.getLast?_eq_none_iff.mp last)
  | some p =>
    obtain ⟨n, c, ρ, now, committed, rate⟩ := steerable.stands
    obtain ⟨reached, direction⟩ :=
      lack_spec (g := g.takeDue) committed (steerable.holdTarget_defined p.power)
    have settles := g.takeDue.settle_settles p.power
    dsimp only
    generalize g.takeDue.settle p.power = h at settles
    cases settles with
    | delivered none => exact .next last fun _ => reached none
    | overtaken _ _ early =>
      refine .next last ?_
      intro empty
      unfold Schedule.precedes at early
      rw [Schedule.first?_eq_none_iff.mpr empty] at early
      cases early
    | carry some ramp =>
      obtain ⟨v, way⟩ := steerable.takeDue.catchup_ramp (direction some)
      obtain rfl := Catchup.ramp.inj (ramp.symm.trans way)
      exact .carry last
    | jump some other | stuck some other =>
      obtain ⟨v, way⟩ := steerable.takeDue.catchup_ramp (direction some)
      cases other.symm.trans way

theorem Steerable.replan (steerable : g.Steerable) : g.replan.Steerable := by
  have plans := steerable.replan_plans
  generalize g.replan = h at plans
  cases plans with
  | ahead => exact steerable.planNext
  | next => exact steerable.takeDue.planNext
  | @carry p v finish =>
    obtain ⟨n, c, -, now, committed, -⟩ := steerable.stands
    exact steerable.takeDue.of_same (carry_samePlant _ _ _).sameSettings
      ⟨n, c, v, now, committed, rfl⟩

end Ordered

theorem Steerable.moveTo_cases (steerable : g.Steerable) {time : Exact K} (ends : time ≠ posInf) :
    g.moveTo time = g ∨ ∃ t dt, (g.moveTo time).now = fin t ∧
      (g.moveTo time).committed = g.committed + g.rate * fin dt ∧
      (g.moveTo time).rate = g.rate := by
  obtain ⟨n, c, ρ, now, committed, rate⟩ := steerable.stands
  unfold Generator.moveTo
  dsimp only
  split
  next later =>
    rw [now, zero_eq] at later
    rw [now]
    cases time with
    | fin t => exact .inr ⟨t, t - n, rfl, by rw [fin_sub]; rfl, rfl⟩
    | posInf => exact (ends rfl).elim
    | negInf => exact (not_lt_negInf _ later).elim
    | nan => exact (not_lt_nan _ later).elim
  next => exact .inl rfl

theorem Steerable.moveTo (steerable : g.Steerable) {time : Exact K} (ends : time ≠ posInf) :
    (g.moveTo time).Steerable := by
  rcases steerable.moveTo_cases ends with stays | ⟨t, dt, now, committed, rate⟩
  · rwa [stays]
  · obtain ⟨n, c, ρ, -, before, rateBefore⟩ := steerable.stands
    refine steerable.of_same (moveTo_sameSettings g time) ⟨t, c + ρ * dt, ρ, now, ?_, ?_⟩
    · rw [committed, before, rateBefore, fin_mul, fin_add]
    · rw [rate, rateBefore]

/-! ## Rest -/

/-- When the schedule is empty, the generator rests at the power of `p`. -/
def RestsAt (g : Generator (Exact K)) (p : Setpoint (Exact K)) : Prop :=
  g.schedule.setpoints = [] → g.rate = 0 ∧ g.Reached p

/-- Whatever the generator has queued itself is as good as `p`. -/
structure BoundFor (g : Generator (Exact K)) (p : Setpoint (Exact K)) : Prop where
  rests : g.RestsAt p
  own : ∀ q ∈ g.schedule.setpoints, q.carried = true →
    g.holdTarget q.power = g.holdTarget p.power

theorem RestsAt.congr {q : Setpoint (Exact K)} (rests : g.RestsAt p)
    (same : g.holdTarget p.power = g.holdTarget q.power) : g.RestsAt q := by
  intro empty
  obtain ⟨still, reached⟩ := rests empty
  unfold Reached at reached ⊢
  rw [same] at reached
  exact ⟨still, reached⟩

theorem restsAt_planNext (reached : g.schedule.setpoints = [] → g.Reached p) :
    g.planNext.RestsAt p := by
  intro empty
  refine ⟨?_, (reached empty).of_same (follow_samePlant _ _).sameSettings rfl⟩
  show g.nextLeg.rate = 0
  rw [nextLeg_idle (g := g) empty]

theorem restsAt_of_nonempty (nonempty : g.schedule.setpoints ≠ []) : g.RestsAt p :=
  fun empty => (nonempty empty).elim

/-- Moving does not disturb a generator at rest. -/
theorem RestsAt.moveTo (rests : g.RestsAt p) (steerable : g.Steerable) {time : Exact K}
    (ends : time ≠ posInf) : (g.moveTo time).RestsAt p := by
  rcases steerable.moveTo_cases ends with stays | ⟨t, dt, -, committed, rate⟩
  · rwa [stays]
  · intro empty
    rw [moveTo_schedule] at empty
    obtain ⟨still, reached⟩ := rests empty
    obtain ⟨-, c, -, -, before, -⟩ := steerable.stands
    refine ⟨rate.trans still, reached.of_same (moveTo_sameSettings g time) ?_⟩
    rw [committed, still, before, zero_eq, fin_mul, fin_add, zero_mul, add_zero]

section Replan

variable [IsStrictOrderedRing K]

theorem RestsAt.replan (rests : g.RestsAt p) (steerable : g.Steerable)
    (undue : g.schedule.due g.now = []) : g.replan.RestsAt p := by
  have plans := steerable.replan_plans
  generalize g.replan = h at plans
  cases plans with
  | ahead => exact restsAt_planNext fun empty => (rests empty).2
  | next last | carry last =>
    rw [undue] at last
    cases last

theorem restsAt_replan (steerable : g.Steerable)
    (last : (g.schedule.due g.now).getLast? = some p) : g.replan.RestsAt p := by
  have plans := steerable.replan_plans
  generalize g.replan = h at plans
  cases plans with
  | ahead undue =>
    rw [undue] at last
    cases last
  | next last' reached =>
    obtain rfl := Option.some.inj (last.symm.trans last')
    refine restsAt_planNext ?_
    intro empty
    exact (reached empty).of_same ⟨rfl, rfl, rfl, rfl, rfl, rfl⟩ rfl
  | carry => exact restsAt_of_nonempty (Schedule.insert_nonempty _ _)

/-- What a revision leaves on the schedule of the generator's own was there before, or is as good as
what was due last. -/
theorem own_of_mem_replan (steerable : g.Steerable) {q : Setpoint (Exact K)}
    (hq : q ∈ g.replan.schedule.setpoints) :
    q ∈ g.takeDue.schedule.setpoints ∨ ∃ p, (g.schedule.due g.now).getLast? = some p ∧
      g.holdTarget q.power = g.holdTarget p.power := by
  have plans := steerable.replan_plans
  generalize g.replan = h at plans hq
  cases plans with
  | ahead undue =>
    have parts := Schedule.due_append_afterDue g.schedule g.now
    rw [undue, List.nil_append] at parts
    left
    show q ∈ (g.schedule.afterDue g.now).setpoints
    rwa [parts]
  | next => exact .inl hq
  | carry last =>
    rcases Schedule.mem_insert.mp hq with rfl | hq
    · exact .inr ⟨_, last, holdTarget_holdTarget _ _⟩
    · exact .inl hq

theorem boundFor_replan (steerable : g.Steerable)
    (last : (g.schedule.due g.now).getLast? = some p)
    (clear : ∀ q ∈ g.takeDue.schedule.setpoints, q.carried = false) : g.replan.BoundFor p := by
  refine ⟨restsAt_replan steerable last, ?_⟩
  intro q hq own
  have same := (replan_sameSettings g).holdTarget
  rw [same, same]
  rcases own_of_mem_replan steerable hq with old | ⟨p', last', held⟩
  · rw [clear q old] at own
    cases own
  · obtain rfl := Option.some.inj (last.symm.trans last')
    exact held

/-- A revision that takes only the generator's own setpoints does not change what it is bound for. -/
theorem BoundFor.replan (bound : g.BoundFor p) (steerable : g.Steerable)
    (carried : ∀ q ∈ g.schedule.due g.now, q.carried = true) : g.replan.BoundFor p := by
  have same := (replan_sameSettings g).holdTarget
  have due (q : Setpoint (Exact K)) (last : (g.schedule.due g.now).getLast? = some q) :
      g.holdTarget q.power = g.holdTarget p.power := by
    have mem := List.mem_of_getLast? last
    exact bound.own q (Schedule.mem_of_mem_due mem) (carried q mem)
  refine ⟨?_, ?_⟩
  · cases last : (g.schedule.due g.now).getLast? with
    | none => exact bound.rests.replan steerable (List.getLast?_eq_none_iff.mp last)
    | some q =>
      refine (restsAt_replan steerable last).congr ?_
      rw [same, same]
      exact due q last
  · intro q hq own
    rw [same, same]
    rcases own_of_mem_replan steerable hq with old | ⟨p', last, held⟩
    · exact bound.own q (Schedule.mem_of_mem_afterDue old) own
    · exact held.trans (due p' last)

end Replan

/-! ## Runs -/

/-- Having been through what the journal says, a generator rests at what it took last, or at what it
was given last if that was acted on. -/
structure Arrives (log : List (Entry (Exact K))) (g h : Generator (Exact K)) : Prop where
  steerable : h.Steerable
  last : ∀ p, (log.flatMap Entry.served).getLast? = some p → h.RestsAt p
  rests : log.flatMap Entry.served = [] → ∀ p, g.RestsAt p → h.RestsAt p
  acted : ∀ p, ActedOn log p → h.BoundFor p
  bound : (∀ q ∈ log.flatMap Entry.served, q.carried = true) → ∀ p, g.BoundFor p → h.BoundFor p

/-- Where nothing is taken, it is enough that rest and direction are kept. -/
theorem Arrives.of_untaken {log : List (Entry (Exact K))} (steerable : h.Steerable)
    (untaken : log.flatMap Entry.served = [])
    (rests : ∀ p, g.RestsAt p → h.RestsAt p)
    (own : ∀ p, g.BoundFor p → ∀ q ∈ h.schedule.setpoints, q.carried = true →
      h.holdTarget q.power = h.holdTarget p.power) : Arrives log g h where
  steerable := steerable
  last := by
    intro p taken
    rw [untaken] at taken
    cases taken
  rests := fun _ => rests
  acted := by
    intro p acted
    have taken := acted.mem_served
    rw [untaken] at taken
    cases taken
  bound := by
    intro _ p bound
    exact ⟨rests p bound.rests, own p bound⟩

theorem Arrives.append {l l' : List (Entry (Exact K))} (one : Arrives l g h)
    (two : Arrives l' h k) : Arrives (l ++ l') g k where
  steerable := two.steerable
  last := by
    intro p last
    rw [List.flatMap_append, List.getLast?_append] at last
    cases tail : (l'.flatMap Entry.served).getLast? with
    | none =>
      rw [tail, Option.none_or] at last
      exact two.rests (List.getLast?_eq_none_iff.mp tail) p (one.last p last)
    | some q =>
      rw [tail, Option.some_or] at last
      exact two.last p (tail.trans last)
  rests := by
    intro untaken p rests
    rw [List.flatMap_append, List.append_eq_nil_iff] at untaken
    exact two.rests untaken.2 p (one.rests untaken.1 p rests)
  acted := by
    intro p acted
    rcases acted.append_cases with acted | ⟨acted, own⟩
    · exact two.acted p acted
    · exact two.bound own p (one.acted p acted)
  bound := by
    intro own p bound
    rw [List.flatMap_append, List.forall_mem_append] at own
    exact two.bound own.2 p (one.bound own.1 p bound)

variable [IsStrictOrderedRing K]

theorem Steerable.arrives_replan (steerable : g.Steerable) :
    Arrives g.journalOfReplan g g.replan where
  steerable := steerable.replan
  last := by
    intro p last
    rw [served_replan] at last
    exact restsAt_replan steerable last
  rests := by
    intro untaken p rests
    rw [served_replan] at untaken
    exact rests.replan steerable untaken
  acted := by
    intro p acted
    obtain ⟨last, clear⟩ := acted.of_replan
    exact boundFor_replan steerable last clear
  bound := by
    intro carried p bound
    rw [served_replan] at carried
    exact bound.replan steerable carried

theorem arrives_feedRelation :
    FeedRelation (fun time : Exact K => time ≠ posInf)
      fun log g h => g.Steerable → Arrives log g h where
  below := by
    rintro a b le bounded rfl
    cases b with
    | posInf => exact bounded rfl
    | fin x => exact not_posInf_le_fin x le
    | negInf => exact not_posInf_le_negInf le
    | nan => exact not_le_nan _ le
  nil g := by
    intro steerable
    refine .of_untaken steerable rfl (fun _ => id) ?_
    intro p bound
    exact bound.own
  append one two := by
    intro steerable
    have first := one steerable
    exact first.append (two first.steerable)
  moveTo g time ends := by
    intro steerable
    refine .of_untaken (steerable.moveTo ends) rfl ?_ ?_
    · intro p rests
      exact rests.moveTo steerable ends
    · intro p bound
      have same := (moveTo_sameSettings g time).holdTarget
      simp only [moveTo_schedule, same]
      exact bound.own
  replan g steerable := steerable.arrives_replan
  enqueue g q command := by
    intro steerable
    refine .of_untaken ?_ rfl ?_ ?_
    · exact steerable.of_same ⟨rfl, rfl, rfl, rfl, rfl, rfl⟩ steerable.stands
    · intro p _
      exact restsAt_of_nonempty (Schedule.insert_nonempty _ _)
    · intro p bound q' hq' own
      rcases Schedule.mem_insert.mp hq' with rfl | old
      · rw [command] at own
        cases own
      · exact bound.own q' old own

/-- Whatever setpoints a generator was given, at whatever times, once its schedule is empty it has
reached the power of the one it took last, its own included; and the power of the last one it took
on command, if it acted on that and had nothing of its own left behind it. -/
theorem run_arrives {as : List (Action (Exact K))} (steerable : g.Steerable)
    (feeds : ∀ a ∈ as, a.Feeds fun time => time ≠ posInf)
    (empty : (g.run as).schedule.setpoints = []) :
    (∀ p, ((g.journal as).flatMap Entry.served).getLast? = some p → (g.run as).Reached p) ∧
      ∀ p, ActedOn (g.journal as) p → (g.run as).Reached p := by
  have arrives := arrives_feedRelation.run g feeds steerable
  refine ⟨?_, ?_⟩
  · intro p last
    exact (arrives.last p last empty).2
  · intro p acted
    exact ((arrives.acted p acted).rests empty).2

/-- An idle generator can be steered once its ramp limits are set. -/
theorem steerable_setRampLimits (o : K) {u d : K} (hu : 0 < u) (hd : 0 < d) :
    ((idle (fin o)).setRampLimits (fin u) (fin d)).Steerable := by
  refine Steerable.replan ⟨⟨u, hu, rfl⟩, ⟨|d|, abs_pos.mpr hd.ne', rfl⟩, .inl isNaN_negInf, rfl, ?_⟩
  exact ⟨0, o, 0, zero_eq, rfl, zero_eq⟩

/-- A power given at once, and one given ahead of its time: the generator ends on the latter. -/
theorem run_arrives_at_next :
    let g : Generator (Exact ℚ) := (idle (fin 0)).setRampLimits (fin 1) (fin 1)
    let as : List (Action (Exact ℚ)) := [.addNow (fin 10), .add (fin 20) (fin 4),
      .advance (fin 5), .advance (fin 100)]
    (g.run as).schedule.setpoints = [] ∧ ActedOn (g.journal as) ⟨fin 20, fin 4, false⟩ ∧
      (g.run as).Reached ⟨fin 20, fin 4, false⟩ := by
  intro g as
  have empty : (g.run as).schedule.setpoints = [] := by decide +kernel
  have acted : ActedOn (g.journal as) ⟨fin 20, fin 4, false⟩ :=
    ⟨(g.journal as).dropLast, fin 20, [], [], [], by decide +kernel, rfl, nofun, nofun⟩
  refine ⟨empty, acted, (run_arrives ?_ ?_ empty).2 _ acted⟩
  · exact steerable_setRampLimits 0 one_pos one_pos
  · simp [as, Action.Feeds]

/-- The generator's own setpoint outlasts a command that came later, and the generator ends on it. -/
theorem own_outlasts_command :
    let g : Generator (Exact ℚ) := (idle (fin 0)).setRampLimits (fin 1) (fin 1)
    let as : List (Action (Exact ℚ)) := [.addNow (fin 10), .advance (fin 1), .addNow (fin (-10)),
      .advance (fin 100)]
    let taken := (g.journal as).flatMap Entry.served
    (g.run as).schedule.setpoints = [] ∧
      (taken.filter fun p => !p.carried).getLast? = some ⟨fin 1, fin (-10), false⟩ ∧
      (g.run as).committed = fin 10 ∧ ¬ (g.run as).Reached ⟨fin 1, fin (-10), false⟩ := by
  intro g as taken
  refine ⟨by decide +kernel, by decide +kernel, by decide +kernel, ?_⟩
  unfold Reached
  decide +kernel

end Generator

end UnitDispatch
