import UnitDispatch.Proofs.Following
import UnitDispatch.Proofs.Ramp

/-! # The legs of a ramp

A generator that takes a ramp to a lone setpoint goes through a few legs, of which `Phase` is the
list, and at the end of each its plan is revised from where it then stands. A move along a leg stays
in it, each review leaves fewer to come, and in every leg committed power is within the tolerance of
the ramp: `Phase.committed`. So a generator that tracks a ramp goes on tracking it, whatever times
it is advanced to.
-/

namespace UnitDispatch

open Quantity Exact

variable {K : Type} [Field K] [LinearOrder K]

namespace Generator

variable {g h : Generator (Exact K)} {r : Ramp K} {queue : List (Setpoint (Exact K))}
  {stop : Exact K} {d n l c ρ m s t v : K} {k : Nat}

/-! ## What a ramp needs -/

/-- The generator can take a ramp: its goal is a power that is held as it is and more than the
tolerance away, and its rate leads there within the limits. -/
structure Takes (g : Generator (Exact K)) (r : Ramp K) : Prop where
  held : g.holdTarget (fin r.goal) = fin r.goal
  apart : ¬ |r.goal - r.source| < 1 / 10 ^ 4
  leads : r.Leads
  down : -g.envelope.rampDown ≤ fin r.rate
  up : fin r.rate ≤ g.rampLimitUp

/-- The ramp sets out when a window of the ramp time `m` opens, which closes before `d`. -/
structure Windowed (g : Generator (Exact K)) (r : Ramp K) (l d m : K) : Prop where
  mode : g.mode = .midpoint
  rampTime : g.rampTime = fin m
  positive : 0 < m
  opens : Approach.opens l d m = r.outset
  closes : r.outset + m < d
  pace : limit (-g.envelope.rampDown) g.rampLimitUp (fin ((r.goal - r.source) / m)) = fin r.rate
  short : r.outset + m ≤ r.arrival

theorem Takes.of_same (takes : g.Takes r) (same : SameSettings g h) : h.Takes r where
  held := (same.holdTarget _).trans takes.held
  apart := takes.apart
  leads := takes.leads
  down := same.envelope ▸ takes.down
  up := same.rampLimitUp ▸ takes.up

theorem Windowed.of_same (window : g.Windowed r l d m) (same : SameSettings g h) :
    h.Windowed r l d m where
  mode := same.mode.trans window.mode
  rampTime := same.rampTime.trans window.rampTime
  positive := window.positive
  opens := window.opens
  closes := window.closes
  pace := by rw [same.envelope, same.rampLimitUp, window.pace]
  short := window.short

/-! ## Stances -/

/-- Where a generator stands, and what is on its schedule. -/
structure Stance (g : Generator (Exact K)) (queue : List (Setpoint (Exact K))) (n l c ρ : K) :
    Prop extends g.At n l c ρ where
  queued : g.schedule.setpoints = queue

/-- A stance on the way to a review that lies ahead. -/
structure Heads (g : Generator (Exact K)) (queue : List (Setpoint (Exact K))) (stop : Exact K)
    (n l c ρ : K) : Prop extends g.Stance queue n l c ρ where
  review : g.review = stop
  before : fin n < stop

theorem Stance.planNext (stance : g.Stance queue n l c ρ) (leg : g.nextLeg = ⟨fin v, stop⟩)
    (before : fin n < stop) : g.planNext.Heads queue stop n l c v where
  now := stance.now
  last := stance.last
  committed := stance.committed
  rate := congrArg Leg.rate leg
  queued := stance.queued
  review := congrArg Leg.review leg
  before := before

/-- With nothing on the schedule, a generator rests. -/
theorem Stance.rest (stance : g.Stance [] n l c ρ) : g.planNext.Heads [] posInf n l c 0 := by
  refine stance.planNext ?_ (fin_lt_posInf n)
  rw [nextLeg_idle stance.queued, zero_eq]
  rfl

theorem Stance.replan_of_ahead (stance : g.Stance queue n l c ρ)
    (ahead : ∀ p ∈ queue, fin n < p.time) : g.replan = g.planNext := by
  refine Generator.replan_of_ahead ?_
  rwa [stance.queued, stance.now]

/-- A lone setpoint that falls due is seen to with nothing left on the schedule. -/
theorem Stance.replan_of_due {w : K} {carried : Bool}
    (stance : g.Stance [⟨fin n, fin w, carried⟩] n l c ρ) :
    g.replan = g.takeDue.settle (fin w) ∧ g.takeDue.Stance [] n n c ρ := by
  have isDue : ¬ g.now < (fin n : Exact K) := by
    rw [stance.now]
    exact fun lt => lt_irrefl n (fin_lt.mp lt)
  obtain ⟨due, left⟩ := Schedule.due_of_cons stance.queued isDue nofun
  refine ⟨?_, ⟨⟨stance.now, ?_, stance.committed, stance.rate⟩, left⟩⟩
  · unfold Generator.replan
    rw [due]
    rfl
  · unfold Generator.takeDue
    rw [due]
    rfl

/-- The leg toward a lone setpoint. -/
theorem Stance.nextLeg {w : K} (stance : g.Stance [setpointOf (d, w)] n l c ρ)
    (held : g.holdTarget (fin w) = fin w) :
    g.nextLeg = if |w - c| < 1 / 10 ^ 4 then ⟨fin 0, fin d⟩
      else g.mode.leg
        (.between n l d (w - c) ρ g.rampLimitUp g.envelope.rampDown g.rampTime) := by
  have first : g.schedule.first? = some (setpointOf (d, w)) := by
    unfold Schedule.first?
    rw [stance.queued]
    rfl
  rw [nextLeg_eq stance.toAt first rfl held, zero_eq]

section Move

variable [IsStrictOrderedRing K]

theorem Stance.moveTo (stance : g.Stance queue n l c ρ) (ht : n ≤ t) :
    (g.moveTo (fin t)).Stance queue t l (c + ρ * (t - n)) ρ :=
  ⟨stance.toAt.moveTo ht, (moveTo_schedule g _ ▸ stance.queued)⟩

theorem Heads.moveTo (heads : g.Heads queue stop n l c ρ) (ht : n ≤ t)
    (short : fin t < g.review) : (g.moveTo (fin t)).Heads queue stop t l (c + ρ * (t - n)) ρ :=
  ⟨heads.toStance.moveTo ht, (moveTo_review g _).trans heads.review, heads.review ▸ short⟩

/-- At rest, the power stays. -/
theorem Heads.moveTo_rest (heads : g.Heads queue stop n l c 0) (ht : n ≤ t)
    (short : fin t < g.review) : (g.moveTo (fin t)).Heads queue stop t l c 0 := by
  have moved := heads.moveTo ht short
  rwa [zero_mul, add_zero] at moved

theorem Heads.moveTo_along (heads : g.Heads queue stop n l (r.along n) r.rate) (ht : n ≤ t)
    (short : fin t < g.review) : (g.moveTo (fin t)).Heads queue stop t l (r.along t) r.rate := by
  have moved := heads.moveTo ht short
  rwa [Ramp.along_add] at moved

/-- A review that is due ends a leg, and the plan is revised from where it has led. -/
theorem Heads.leg (heads : g.Heads queue (fin s) n l c ρ) (due : g.review ≤ fin t) :
    n ≤ s ∧ s ≤ t ∧ g.leg = (g.moveTo (fin s)).replan ∧
      (g.moveTo (fin s)).Stance queue s l (c + ρ * (s - n)) ρ := by
  have before := (fin_lt.mp heads.before).le
  unfold Generator.leg
  rw [heads.review] at due ⊢
  exact ⟨before, fin_le.mp due, rfl, heads.toStance.moveTo before⟩

theorem Heads.leg_rest (heads : g.Heads queue (fin s) n l c 0) (due : g.review ≤ fin t) :
    n ≤ s ∧ s ≤ t ∧ g.leg = (g.moveTo (fin s)).replan ∧
      (g.moveTo (fin s)).Stance queue s l c 0 := by
  have ends := heads.leg due
  rwa [zero_mul, add_zero] at ends

theorem Heads.leg_along (heads : g.Heads queue (fin s) n l (r.along n) r.rate)
    (due : g.review ≤ fin t) :
    n ≤ s ∧ s ≤ t ∧ g.leg = (g.moveTo (fin s)).replan ∧
      (g.moveTo (fin s)).Stance queue s l (r.along s) r.rate := by
  have ends := heads.leg due
  rwa [Ramp.along_add] at ends

end Move

/-! ## The legs of a ramp -/

/-- The legs of a ramp to a setpoint due at `d`, each with a bound on the reviews to come. -/
inductive Phase (g : Generator (Exact K)) (r : Ramp K) (d n : K) : Nat → Prop
  /-- Before the window. -/
  | waiting {l m : K} (window : g.Windowed r l d m)
      (heads : g.Heads [setpointOf (d, r.goal)] (fin r.outset) n l r.source 0) : Phase g r d n 4
  /-- In the window. -/
  | inside {l m : K} (window : g.Windowed r l d m) (later : r.outset ≤ n)
      (heads : g.Heads [setpointOf (d, r.goal)] (fin (r.outset + m)) n l (r.along n) r.rate) :
      Phase g r d n 3
  /-- Until the goal is reached or the setpoint is due. -/
  | ramping {l : K} (later : r.outset ≤ n)
      (heads : g.Heads [setpointOf (d, r.goal)] (fin (min r.arrival d)) n l (r.along n) r.rate) :
      Phase g r d n 2
  /-- After the setpoint was due. -/
  | carrying {l : K} (later : r.outset ≤ n)
      (heads : g.Heads [⟨fin r.arrival, fin r.goal, true⟩] (fin r.arrival) n l (r.along n) r.rate) :
      Phase g r d n 1
  /-- The goal is reached before the setpoint is due. -/
  | resting {l p : K} (nears : r.Nears n p)
      (heads : g.Heads [setpointOf (d, r.goal)] (fin d) n l p 0) : Phase g r d n 1
  | settled {l p : K} (nears : r.Nears n p) (heads : g.Heads [] posInf n l p 0) : Phase g r d n 0

section Phase

variable [IsStrictOrderedRing K]

/-- In every leg, committed power is within the tolerance of the ramp. -/
theorem Phase.committed (phase : g.Phase r d n k) (leads : r.Leads) :
    ∃ c, g.now = fin n ∧ g.committed = fin c ∧ |c - r.line n| < 1 / 10 ^ 4 := by
  have zero : |(0 : K)| < 1 / 10 ^ 4 := by
    rw [abs_zero]
    positivity
  -- on the way, it is the power of the ramp
  have along {c : K} (same : c = r.line n) : |c - r.line n| < 1 / 10 ^ 4 := by
    rw [same, sub_self]
    exact zero
  cases phase with
  | waiting window heads =>
    exact ⟨_, heads.now, heads.committed,
      along (leads.line_of_before (fin_lt.mp heads.before).le).symm⟩
  | inside window later heads =>
    have short := (fin_lt.mp heads.before).le.trans window.short
    exact ⟨_, heads.now, heads.committed, along (Ramp.line_of_between later short).symm⟩
  | ramping later heads =>
    have short := (fin_lt.mp heads.before).le.trans (min_le_left _ _)
    exact ⟨_, heads.now, heads.committed, along (Ramp.line_of_between later short).symm⟩
  | carrying later heads =>
    have short := (fin_lt.mp heads.before).le
    exact ⟨_, heads.now, heads.committed, along (Ramp.line_of_between later short).symm⟩
  | resting nears heads | settled nears heads =>
    exact ⟨_, heads.now, heads.committed, nears.line_near⟩

omit [IsStrictOrderedRing K] in
theorem Phase.before (phase : g.Phase r d n k) : g.now = fin n ∧ fin n < g.review := by
  cases phase with
  | waiting _ heads | inside _ _ heads | ramping _ heads | carrying _ heads
  | resting _ heads | settled _ heads =>
    rw [heads.review]
    exact ⟨heads.now, heads.before⟩

/-- A move along a leg. -/
theorem Phase.moveTo (phase : g.Phase r d n k) (ht : n ≤ t) (short : fin t < g.review) :
    (g.moveTo (fin t)).Phase r d t k := by
  have same := moveTo_sameSettings g (fin t)
  cases phase with
  | waiting window heads => exact .waiting (window.of_same same) (heads.moveTo_rest ht short)
  | inside window later heads =>
    exact .inside (window.of_same same) (later.trans ht) (heads.moveTo_along ht short)
  | ramping later heads => exact .ramping (later.trans ht) (heads.moveTo_along ht short)
  | carrying later heads => exact .carrying (later.trans ht) (heads.moveTo_along ht short)
  | resting nears heads => exact .resting (nears.mono ht) (heads.moveTo_rest ht short)
  | settled nears heads => exact .settled (nears.mono ht) (heads.moveTo_rest ht short)

/-! ## From one leg to the next -/

/-- When the window opens. -/
theorem Takes.opened (takes : g.Takes r) (window : g.Windowed r l d m)
    (stance : g.Stance [setpointOf (d, r.goal)] r.outset l r.source ρ) :
    g.planNext.Phase r d r.outset 3 := by
  have closes : r.outset < r.outset + m := lt_add_of_pos_right _ window.positive
  have enough : m ≤ d - r.outset := le_sub_iff_add_le'.mpr window.closes.le
  have leg : g.nextLeg = ⟨fin r.rate, fin (r.outset + m)⟩ := by
    rw [stance.nextLeg takes.held, if_neg takes.apart, window.mode, window.rampTime]
    show Approach.centred _ = _
    rw [Approach.centred_between, window.opens, if_pos enough, if_neg (lt_irrefl _),
      if_pos closes, add_sub_cancel_left, window.pace]
  have heads := stance.planNext leg (fin_lt.mpr closes)
  rw [← r.along_outset] at heads
  exact .inside (window.of_same (follow_samePlant _ _).sameSettings) le_rfl heads

/-- When the window closes, the ramp goes on unless the goal is within the tolerance. -/
theorem Takes.closed (takes : g.Takes r) (window : g.Windowed r l d m)
    (stance : g.Stance [setpointOf (d, r.goal)] (r.outset + m) l (r.along (r.outset + m)) r.rate) :
    ∃ k < 3, g.planNext.Phase r d (r.outset + m) k := by
  have later : r.outset ≤ r.outset + m := le_add_of_nonneg_right window.positive.le
  have leg := stance.nextLeg takes.held
  by_cases near : |r.goal - r.along (r.outset + m)| < 1 / 10 ^ 4
  · rw [if_pos near] at leg
    exact ⟨1, by decide, .resting (takes.leads.nears_along later window.short near)
      (stance.planNext leg (fin_lt.mpr window.closes))⟩
  · obtain ⟨early, lead⟩ := takes.leads.lead_along (by positivity) window.short near
    have rate : limit (-g.envelope.rampDown) g.rampLimitUp
        (fin (if 0 < r.rate * (r.goal - r.along (r.outset + m)) then r.rate
          else (r.goal - r.along (r.outset + m)) / (d - (r.outset + m)))) = fin r.rate := by
      rw [if_pos lead]
      exact limit_eq_self takes.down takes.up
    have finish : g.nextLeg = ⟨fin r.rate, fin (min r.arrival d)⟩ := by
      rw [leg, if_neg near, window.mode, window.rampTime]
      show Approach.centred _ = _
      rw [Approach.centred_of_after window.positive.le (by rw [window.opens]),
        Approach.finish_between window.closes rate, if_neg takes.leads.rate_ne_zero,
        takes.leads.add_div_along]
    exact ⟨2, by decide, .ramping later
      (stance.planNext finish (fin_lt.mpr (lt_min early window.closes)))⟩

/-- When the goal is reached before the setpoint is due. -/
theorem Takes.reached (takes : g.Takes r) (early : r.arrival < d)
    (stance : g.Stance [setpointOf (d, r.goal)] r.arrival l r.goal ρ) :
    g.planNext.Phase r d r.arrival 1 := by
  have nears := takes.leads.nears_goal
  have leg := stance.nextLeg takes.held
  rw [if_pos nears.near] at leg
  exact .resting nears (stance.planNext leg (fin_lt.mpr early))

omit [IsStrictOrderedRing K] in
/-- When the last setpoint falls due and its power is within the tolerance. -/
theorem Takes.settled {p : K} {carried : Bool} (takes : g.Takes r) (nears : r.Nears n p)
    (stance : g.Stance [⟨fin n, fin r.goal, carried⟩] n l p ρ) : g.replan.Phase r d n 0 := by
  obtain ⟨replan, taken⟩ := stance.replan_of_due
  rw [replan, settle_of_near taken.toAt takes.held nears.near]
  exact .settled nears taken.rest

/-- What the rate leads to is finished at that rate. -/
theorem Stance.settle_of_lead {w : K} (stance : g.Stance [] n l c v)
    (held : g.holdTarget (fin w) = fin w) (far : ¬ |w - c| < 1 / 10 ^ 4)
    (lead : 0 < v * (w - c)) :
    g.settle (fin w) = g.carry (fin w) ⟨fin v, fin (n + (w - c) / v)⟩ := by
  have ramp : g.catchup (fin (w - c)) = .ramp (fin v) := by
    unfold catchup
    rw [catchupRate_eq stance.toAt, if_pos lead]
    dsimp only
    rw [isInfinite_fin, if_neg Bool.false_ne_true, if_pos (by simpa using lead)]
  have missing : ¬ ((fin (w - c) : Exact K) == 0) = true := by
    simpa using ne_zero_of_apart far
  unfold settle
  rw [held]
  dsimp only
  rw [lack_eq stance.toAt, if_neg far, if_neg missing, ramp]
  dsimp only
  rw [stance.now, fin_div _ (left_ne_zero_of_mul lead.ne'), fin_add]
  refine if_neg ?_
  unfold Schedule.precedes Schedule.first?
  rw [stance.queued]
  exact Bool.false_ne_true

/-- When the setpoint falls due, the rest of the ramp is carried over. -/
theorem Takes.due (takes : g.Takes r) (later : r.outset ≤ d) (short : d ≤ r.arrival)
    (stance : g.Stance [setpointOf (d, r.goal)] d l (r.along d) r.rate) :
    ∃ k < 2, g.replan.Phase r d d k := by
  by_cases near : |r.goal - r.along d| < 1 / 10 ^ 4
  · exact ⟨0, by decide, takes.settled (takes.leads.nears_along later short near) stance⟩
  · obtain ⟨early, lead⟩ := takes.leads.lead_along (by positivity) short near
    obtain ⟨replan, taken⟩ := stance.replan_of_due
    have carry := taken.settle_of_lead takes.held near lead
    rw [takes.leads.add_div_along] at carry
    rw [replan, carry]
    refine ⟨1, by decide, .carrying later
      ⟨⟨⟨taken.now, taken.last, taken.committed, rfl⟩, ?_⟩, rfl, fin_lt.mpr early⟩⟩
    show (Schedule.insert _ _).setpoints = _
    rw [Schedule.setpoints_insert, taken.queued]
    simp

/-- Each review leaves fewer to come. -/
theorem Phase.leg (phase : g.Phase r d n k) (takes : g.Takes r) (due : g.review ≤ fin t) :
    ∃ n' k', n ≤ n' ∧ n' ≤ t ∧ k' < k ∧ g.leg.Phase r d n' k' := by
  have same (s : K) := moveTo_sameSettings g (fin s)
  cases phase with
  | waiting window heads =>
    have ahead : r.outset < d :=
      (lt_add_of_pos_right _ window.positive).trans window.closes
    obtain ⟨later, up, leg, stance⟩ := heads.leg_rest due
    rw [leg, stance.replan_of_ahead (by simpa [setpointOf] using ahead)]
    exact ⟨_, 3, later, up, by decide,
      (takes.of_same (same _)).opened (window.of_same (same _)) stance⟩
  | inside window _ heads =>
    obtain ⟨later, up, leg, stance⟩ := heads.leg_along due
    rw [leg, stance.replan_of_ahead (by simpa [setpointOf] using window.closes)]
    obtain ⟨k', fewer, next⟩ :=
      (takes.of_same (same _)).closed (window.of_same (same _)) stance
    exact ⟨_, k', later, up, fewer, next⟩
  | ramping outset heads =>
    obtain ⟨later, up, leg, stance⟩ := heads.leg_along due
    rw [leg]
    rcases lt_or_ge r.arrival d with early | short
    · rw [min_eq_left early.le] at stance later up ⊢
      rw [takes.leads.along_arrival] at stance
      rw [stance.replan_of_ahead (by simpa [setpointOf] using early)]
      exact ⟨_, 1, later, up, by decide, (takes.of_same (same _)).reached early stance⟩
    · rw [min_eq_right short] at stance later up ⊢
      obtain ⟨k', fewer, next⟩ :=
        (takes.of_same (same _)).due (outset.trans later) short stance
      exact ⟨_, k', later, up, fewer, next⟩
  | carrying _ heads =>
    obtain ⟨later, up, leg, stance⟩ := heads.leg_along due
    rw [takes.leads.along_arrival] at stance
    rw [leg]
    exact ⟨_, 0, later, up, by decide,
      (takes.of_same (same _)).settled takes.leads.nears_goal stance⟩
  | resting nears heads =>
    obtain ⟨later, up, leg, stance⟩ := heads.leg_rest due
    rw [leg]
    exact ⟨_, 0, later, up, by decide,
      (takes.of_same (same _)).settled (nears.mono later) stance⟩
  | settled _ heads =>
    rw [heads.review] at due
    exact (not_posInf_le_fin t due).elim

/-! ## Runs -/

/-- A generator in one of the legs of a ramp it can take. -/
structure Tracks (g : Generator (Exact K)) (r : Ramp K) (d n : K) : Prop where
  takes : g.Takes r
  phase : ∃ k ≤ 4, g.Phase r d n k

/-- Going through the reviews up to `t`: there is fuel for all of them. -/
theorem Phase.legsTo {fuel : Nat} (phase : g.Phase r d n k) (takes : g.Takes r) (enough : k ≤ fuel)
    (before : n ≤ t) :
    ∃ n' ≤ t, ∃ k' ≤ k, (legsTo (fin t) fuel g).Phase r d n' k' ∧
      (legsTo (fin t) fuel g).Takes r ∧ fin t < (legsTo (fin t) fuel g).review := by
  induction fuel generalizing g n k with
  | zero =>
    obtain rfl := Nat.le_zero.mp enough
    refine ⟨n, before, 0, le_rfl, phase, takes, ?_⟩
    cases phase with
    | settled _ heads => exact heads.review ▸ fin_lt_posInf t
  | succ fuel ih =>
    unfold Generator.legsTo
    by_cases due : g.review ≤ fin t
    · obtain ⟨n', k', -, ht, fewer, next⟩ := phase.leg takes due
      have goes : ¬ g.leg.review ≤ g.leg.now := by
        rw [next.before.1]
        exact not_le_of_lt next.before.2
      rw [if_pos due]
      dsimp only
      rw [if_neg goes]
      obtain ⟨n'', hn, k'', less, rest⟩ :=
        ih next (takes.of_same (leg_sameSettings g)) (by omega) ht
      exact ⟨n'', hn, k'', by omega, rest⟩
    · rw [if_neg due]
      exact ⟨n, before, k, le_rfl, phase, takes, fin_lt_of_not_le phase.before.2 due⟩

/-- An advance goes on along the ramp; a time that is past is ignored. -/
theorem Tracks.advance (tracks : g.Tracks r d n) (t : K) :
    (g.advance (fin t)).Tracks r d (max n t) := by
  obtain ⟨takes, k, few, phase⟩ := tracks
  unfold Generator.advance
  rw [phase.before.1]
  rcases le_or_gt t n with past | later
  · rw [if_pos (.inr (fin_le.mpr past)), max_eq_left past]
    exact ⟨takes, k, few, phase⟩
  · have enough : k ≤ g.legBound := by
      unfold legBound
      omega
    obtain ⟨n', hn, k', fewer, phase', takes', short⟩ := phase.legsTo takes enough later.le
    rw [if_neg (by simpa using later), max_eq_right later.le]
    exact ⟨takes'.of_same (moveTo_sameSettings _ _), k', fewer.trans few,
      phase'.moveTo hn short⟩

theorem Tracks.advances (tracks : g.Tracks r d n) (times : List K) :
    (times.foldl (fun g t => g.advance (fin t)) g).Tracks r d (times.foldl max n) := by
  induction times generalizing g n with
  | nil => exact tracks
  | cons t times ih => exact ih (tracks.advance t)

end Phase

end Generator

end UnitDispatch
