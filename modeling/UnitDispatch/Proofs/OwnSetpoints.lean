import UnitDispatch.Proofs.Arrival
import UnitDispatch.Proofs.Sign

/-! # Setpoints of the generator's own

A generator queues a setpoint of its own to finish what ramp limits held up. However it is given
setpoints and advanced, it has no more of its own on the schedule than it took on command, each for
the power of one of those; and as long as it acts on what it took last, there is one at most, for
that power (`Generator.run_owes`). Without that condition an older one may stay on beside what was
commanded since, or instead of it: `Generator.own_setpoints_stay_on`.
-/

namespace UnitDispatch

open Quantity

namespace Quantity

variable {α : Type} [Quantity α]

/-! ## Values held twice -/

theorem lesser_lesser (x high : α) : lesser (lesser x high) high = lesser x high := by
  rcases lesser_eq_or x high with eq | eq <;> rw [eq]
  · exact eq
  · rcases lesser_eq_or high high with same | same <;> exact same

theorem defined_lesser {high : α} (defined : isNaN high = false) (x : α) :
    isNaN (lesser x high) = false := by
  unfold lesser
  split
  · exact defined
  next hx =>
    split
    · exact defined
    · simpa using hx

/-- What is raised to the lower limit stays there, wherever the upper one is. -/
theorem Signed.limit_low [Signed α] {low high y : α} (defined : isNaN high = false → isNaN y = false)
    (raised : greater y low = low) : limit low high low = low := by
  unfold limit
  rcases lesser_eq_or low high with same | cut
  · rw [same]
    rcases greater_eq_or low low with same | same <;> exact same
  · rw [cut]
    by_cases undefined : isNaN high = true
    · exact greater_of_isNaN undefined low
    · have number := defined (Bool.eq_false_iff.mpr undefined)
      have bound : isNaN low = false := by
        unfold greater at raised
        rw [number, if_neg Bool.false_ne_true] at raised
        split at raised
        next le => exact (Signed.defined_of_le le).2
        next => exact raised ▸ number
      unfold greater
      rw [if_neg undefined]
      split
      · rfl
      next apart =>
        unfold lesser at cut
        rw [bound, if_neg Bool.false_ne_true, if_neg apart] at cut
        exact cut.symm

/-- A value held within limits is held as it is. -/
theorem Signed.limit_limit [Signed α] (low high x : α) :
    limit low high (limit low high x) = limit low high x := by
  rcases greater_eq_or (lesser x high) low with eq | eq
  · have held : limit low high x = lesser x high := eq
    rw [held]
    unfold limit
    rw [lesser_lesser, eq]
  · have held : limit low high x = low := eq
    rw [held]
    exact Signed.limit_low (fun number => defined_lesser number x) eq

end Quantity

namespace Generator

variable {α : Type} [Quantity α]

/-! ## What a revision queues -/

/-- How many setpoints of the generator's own are on the schedule. -/
def ownCount (g : Generator α) : Nat := g.schedule.setpoints.countP (·.carried)

/-- The generator has at most one setpoint of its own on the schedule, for the power of `p`. -/
structure OwesOnly (g : Generator α) (p : Setpoint α) : Prop where
  single : g.ownCount ≤ 1
  power : ∀ q ∈ g.schedule.setpoints, q.carried = true → q.power = g.holdTarget p.power

theorem eq_of_mem_carried? {g : Generator α} {wanted : α} {q : Setpoint α}
    (own : g.carried? wanted = some q) : q.carried = true ∧ q.power = g.holdTarget wanted := by
  unfold carried? at own
  dsimp only at own
  split at own
  · cases own
  · split at own
    · split at own
      · cases own
      · cases own
        exact ⟨rfl, rfl⟩
    · cases own
    · cases own

theorem ownCount_insert (s : Schedule α) (q : Setpoint α) :
    (s.insert q).setpoints.countP (·.carried) =
      s.setpoints.countP (·.carried) + if q.carried then 1 else 0 := by
  rw [(Schedule.insert_perm s q).countP_eq, List.countP_cons]

/-- What is due and what is not make up the schedule. -/
theorem due_append_takeDue (g : Generator α) :
    g.schedule.due g.now ++ g.takeDue.schedule.setpoints = g.schedule.setpoints :=
  Schedule.due_append_afterDue g.schedule g.now

/-- What a revision leaves on the schedule: what is not due, and at most a setpoint of the generator's
own beside it, for what was due last. -/
inductive Leaves (g : Generator α) : List (Setpoint α) → Prop
  | rest : Leaves g g.takeDue.schedule.setpoints
  | own {p q : Setpoint α} (last : (g.schedule.due g.now).getLast? = some p)
      (carried : q.carried = true) (power : q.power = g.holdTarget p.power) :
      Leaves g (g.takeDue.schedule.insert q).setpoints

theorem replan_leaves (g : Generator α) : g.Leaves g.replan.schedule.setpoints := by
  unfold replan
  cases last : (g.schedule.due g.now).getLast? with
  | none =>
    have parts := g.due_append_takeDue
    rw [List.getLast?_eq_none_iff.mp last, List.nil_append] at parts
    show g.Leaves g.schedule.setpoints
    rw [← parts]
    exact .rest
  | some p =>
    dsimp only
    rw [settle_schedule]
    cases own : g.takeDue.carried? p.power with
    | none => exact .rest
    | some q =>
      obtain ⟨carried, power⟩ := eq_of_mem_carried? own
      exact .own last carried power

/-! ## Journals and the generator's own setpoints -/

/-- How many setpoints were taken on command. -/
def commands (log : List (Entry α)) : Nat :=
  (log.flatMap Entry.served).countP (!·.carried)

/-- Having been through what the journal says, a generator has setpoints of its own from what it had
of them and from what it took on command; and only from the last of these, if it acted on that. -/
structure Continues (log : List (Entry α)) (g h : Generator α) : Prop where
  same : SameSettings g h
  count : h.ownCount ≤ g.ownCount + commands log
  /-- No powers come up but those of setpoints it had or took, held within the limits. -/
  powers : ∀ V : α → Prop, (∀ v, V v → g.holdTarget v = v) →
    (∀ p ∈ log.flatMap Entry.served, p.carried = false → V (g.holdTarget p.power)) →
    (∀ q ∈ g.schedule.setpoints, q.carried = true → V q.power) →
    ∀ q ∈ h.schedule.setpoints, q.carried = true → V q.power
  acted : ∀ p, ActedOn log p → h.OwesOnly p
  bound : (∀ q ∈ log.flatMap Entry.served, q.carried = true) →
    ∀ p, g.OwesOnly p → h.OwesOnly p

variable {log l l' : List (Entry α)} {g h k : Generator α} {p : Setpoint α}

/-- Where nothing is taken, it is enough that the generator's own setpoints stay the same. -/
theorem Continues.of_untaken (untaken : log.flatMap Entry.served = []) (same : SameSettings g h)
    (count : h.ownCount = g.ownCount)
    (own : ∀ q ∈ h.schedule.setpoints, q.carried = true → q ∈ g.schedule.setpoints) :
    Continues log g h where
  same := same
  count := count.le.trans (Nat.le_add_right _ _)
  powers := fun _ _ _ had q hq carried => had q (own q hq carried) carried
  acted := by
    intro p acted
    have taken := acted.mem_served
    rw [untaken] at taken
    cases taken
  bound := by
    intro _ p owes
    refine ⟨count.le.trans owes.single, ?_⟩
    intro q hq carried
    rw [same.holdTarget]
    exact owes.power q (own q hq carried) carried

omit [Quantity α] in
theorem commands_append (l l' : List (Entry α)) : commands (l ++ l') = commands l + commands l' := by
  unfold commands
  rw [List.flatMap_append, List.countP_append]

theorem Continues.append (one : Continues l g h) (two : Continues l' h k) :
    Continues (l ++ l') g k where
  same := one.same.trans two.same
  count := by
    rw [commands_append]
    have := one.count
    have := two.count
    omega
  powers := by
    intro V held taken had
    rw [List.flatMap_append, List.forall_mem_append] at taken
    refine two.powers V ?_ ?_ (one.powers V held taken.1 had)
    · simpa only [one.same.holdTarget] using held
    · simpa only [one.same.holdTarget] using taken.2
  acted := by
    intro p acted
    rcases acted.append_cases with acted | ⟨acted, own⟩
    · exact two.acted p acted
    · exact two.bound own p (one.acted p acted)
  bound := by
    intro own p owes
    rw [List.flatMap_append, List.forall_mem_append] at own
    exact two.bound own.2 p (one.bound own.1 p owes)

theorem own_due_add (g : Generator α) :
    (g.schedule.due g.now).countP (·.carried) + g.takeDue.ownCount = g.ownCount := by
  unfold ownCount
  rw [← g.due_append_takeDue, List.countP_append]

/-- What is taken is the generator's own or taken on command. -/
theorem commands_replan (g : Generator α) :
    (g.schedule.due g.now).countP (·.carried) + commands g.journalOfReplan =
      (g.schedule.due g.now).length := by
  unfold commands
  rw [served_replan, List.length_eq_countP_add_countP (·.carried)]
  simp

theorem length_due_pos (last : (g.schedule.due g.now).getLast? = some p) :
    0 < (g.schedule.due g.now).length :=
  List.length_pos_of_mem (List.mem_of_getLast? last)

theorem count_replan (g : Generator α) :
    g.replan.ownCount ≤ g.ownCount + commands g.journalOfReplan := by
  have parts := g.own_due_add
  have kinds := g.commands_replan
  have leaves := g.replan_leaves
  unfold ownCount at parts ⊢
  generalize g.replan.schedule.setpoints = left at leaves ⊢
  cases leaves with
  | rest => omega
  | own last carried =>
    have some := length_due_pos last
    rw [ownCount_insert, if_pos carried]
    omega

/-- Acted on, a setpoint leaves at most one of the generator's own, for its power. -/
theorem owesOnly_replan (last : (g.schedule.due g.now).getLast? = some p)
    (clear : ∀ q ∈ g.takeDue.schedule.setpoints, q.carried = false) : g.replan.OwesOnly p := by
  have none : g.takeDue.ownCount = 0 := by
    refine List.countP_eq_zero.mpr ?_
    intro q hq
    simp [clear q hq]
  have leaves := g.replan_leaves
  have same := (replan_sameSettings g).holdTarget p.power
  refine ⟨?_, ?_⟩
  · unfold ownCount at none ⊢
    generalize g.replan.schedule.setpoints = left at leaves ⊢
    cases leaves with
    | rest => omega
    | own _ carried =>
      rw [ownCount_insert, if_pos carried]
      omega
  · intro q hq carried
    rw [same]
    generalize g.replan.schedule.setpoints = left at leaves hq
    cases leaves with
    | rest =>
      rw [clear q hq] at carried
      cases carried
    | own last' _ power =>
      obtain rfl := Option.some.inj (last.symm.trans last')
      rcases Schedule.mem_insert.mp hq with rfl | old
      · exact power
      · rw [clear q old] at carried
        cases carried

section Signed

variable [Signed α]

theorem hold_holdTarget (g : Generator α) (power : α) :
    g.holdTarget (g.holdTarget power) = g.holdTarget power :=
  Signed.limit_limit _ _ power

/-- A revision that takes only the generator's own setpoints puts another for the same power in the
place of the one it had. -/
theorem OwesOnly.replan (owes : g.OwesOnly p)
    (carried : ∀ q ∈ g.schedule.due g.now, q.carried = true) : g.replan.OwesOnly p := by
  have same := (replan_sameSettings g).holdTarget
  cases last : (g.schedule.due g.now).getLast? with
  | none =>
    have leaves := g.replan_leaves
    have parts := g.due_append_takeDue
    rw [List.getLast?_eq_none_iff.mp last, List.nil_append] at parts
    have unchanged : g.replan.schedule.setpoints = g.schedule.setpoints := by
      generalize g.replan.schedule.setpoints = left at leaves
      cases leaves with
      | rest => exact parts
      | own last' =>
        rw [last] at last'
        cases last'
    refine ⟨?_, ?_⟩
    · unfold ownCount
      rw [unchanged]
      exact owes.single
    · rw [unchanged, same]
      exact owes.power
  | some q =>
    have due := List.mem_of_getLast? last
    have parts := g.own_due_add
    have single := owes.single
    rw [List.countP_eq_length.mpr carried] at parts
    have some := length_due_pos last
    have none : g.takeDue.ownCount = 0 := by omega
    have clear : ∀ r ∈ g.takeDue.schedule.setpoints, r.carried = false := by
      simpa [ownCount] using none
    have power : g.holdTarget q.power = g.holdTarget p.power := by
      rw [owes.power q (Schedule.mem_of_mem_due due) (carried q due), hold_holdTarget]
    have left := owesOnly_replan last clear
    refine ⟨left.single, ?_⟩
    intro r hr own
    rw [left.power r hr own, same, same, power]

omit [Signed α] in
theorem powers_replan (V : α → Prop) (held : ∀ v, V v → g.holdTarget v = v)
    (taken : ∀ p ∈ g.schedule.due g.now, p.carried = false → V (g.holdTarget p.power))
    (had : ∀ q ∈ g.schedule.setpoints, q.carried = true → V q.power) :
    ∀ q ∈ g.replan.schedule.setpoints, q.carried = true → V q.power := by
  have leaves := g.replan_leaves
  generalize g.replan.schedule.setpoints = left at leaves
  intro q hq carried
  cases leaves with
  | rest => exact had q (Schedule.mem_of_mem_afterDue hq) carried
  | @own p r last own power =>
    rcases Schedule.mem_insert.mp hq with rfl | old
    · have due := List.mem_of_getLast? last
      rw [power]
      cases kind : p.carried with
      | false => exact taken p due kind
      | true =>
        have known := had p (Schedule.mem_of_mem_due due) kind
        rwa [held _ known]
    · exact had q (Schedule.mem_of_mem_afterDue old) carried

theorem continues_feedRelation :
    FeedRelation (fun _ : α => True) fun log g h => Continues log g h where
  below _ _ := trivial
  nil g := .of_untaken rfl (.refl g) rfl fun _ hq _ => hq
  append one two := one.append two
  moveTo g time _ := by
    have schedule := moveTo_schedule g time
    refine .of_untaken rfl (moveTo_sameSettings g time) ?_ ?_
    · unfold ownCount
      rw [schedule]
    · rw [schedule]
      exact fun _ hq _ => hq
  replan g := by
    refine ⟨replan_sameSettings g, count_replan g, ?_, ?_, ?_⟩
    · intro V held taken had
      rw [served_replan] at taken
      exact powers_replan V held taken had
    · intro p acted
      obtain ⟨last, clear⟩ := acted.of_replan
      exact owesOnly_replan last clear
    · intro carried p owes
      rw [served_replan] at carried
      exact owes.replan carried
  enqueue g q command := by
    refine .of_untaken rfl ⟨rfl, rfl, rfl, rfl, rfl, rfl⟩ ?_ ?_
    · show (g.schedule.insert q).setpoints.countP (·.carried) = g.ownCount
      rw [ownCount_insert, command]
      rfl
    · intro r hr own
      rcases Schedule.mem_insert.mp hr with rfl | old
      · rw [command] at own
        cases own
      · exact old

/-- However a generator is given setpoints and advanced, it has no more of its own on the schedule
than it took on command, each for the power of one of those; and if it acted on the one it took last
on command, with none of its own left behind, it has one at most, for that power. -/
theorem run_owes {as : List (Action α)} (fresh : g.ownCount = 0)
    (feeds : ∀ a ∈ as, a.Feeds fun _ => True) :
    (g.run as).ownCount ≤ commands (g.journal as) ∧
      (∀ q ∈ (g.run as).schedule.setpoints, q.carried = true →
        ∃ p ∈ (g.journal as).flatMap Entry.served, p.carried = false ∧
          q.power = g.holdTarget p.power) ∧
      ∀ p, ActedOn (g.journal as) p → (g.run as).OwesOnly p := by
  have continues := continues_feedRelation.run g feeds
  refine ⟨?_, ?_, continues.acted⟩
  · have := continues.count
    omega
  · let V (v : α) : Prop := ∃ p ∈ (g.journal as).flatMap Entry.served,
      p.carried = false ∧ v = g.holdTarget p.power
    refine continues.powers V ?_ ?_ ?_
    · rintro v ⟨p, -, -, rfl⟩
      exact hold_holdTarget g p.power
    · intro p hp command
      exact ⟨p, hp, command, rfl⟩
    · intro q hq own
      have none := List.countP_eq_zero.mp fresh q hq
      exact (none own).elim

end Signed

/-- In doubles: a power given at once, reached, and another given then. -/
theorem run_owes_for_second :
    let g : Generator Float := (idle 0).setRampLimits 1 1
    let as : List (Action Float) := [.addNow 10, .advance 10, .addNow (-10), .advance 12]
    g.ownCount = 0 ∧ (g.run as).schedule.setpoints = [⟨30, -10, true⟩] ∧
      ActedOn (g.journal as) ⟨10, -10, false⟩ ∧ (g.run as).OwesOnly ⟨10, -10, false⟩ := by
  intro g as
  have fresh : g.ownCount = 0 := by decide +kernel
  have acted : ActedOn (g.journal as) ⟨10, -10, false⟩ :=
    ⟨(g.journal as).take 5, 10, [], [], [.queued ⟨30, -10, true⟩], by decide +kernel, rfl, nofun,
      nofun⟩
  refine ⟨fresh, by decide +kernel, acted, (run_owes fresh ?_).2.2 _ acted⟩
  simp [as, Action.Feeds]

open Exact in
/-- A setpoint of the generator's own stays on when another command is taken before it is due:
instead of one for the new power, or beside it. -/
theorem own_setpoints_stay_on :
    let g : Generator (Exact ℚ) := (idle (fin 0)).setRampLimits (fin 1) (fin 1)
    let turn : List (Action (Exact ℚ)) := [.addNow (fin 10), .advance (fin 1), .addNow (fin (-10))]
    let less : List (Action (Exact ℚ)) := [.addNow (fin 10), .advance (fin 1), .addNow (fin 5)]
    (((g.journal turn).flatMap Entry.served).filter fun p => !p.carried).getLast? =
        some ⟨fin 1, fin (-10), false⟩ ∧
      g.holdTarget (fin (-10)) = fin (-10) ∧
      (g.run turn).schedule.setpoints = [⟨fin 10, fin 10, true⟩] ∧
      (g.run less).schedule.setpoints = [⟨fin 5, fin 5, true⟩, ⟨fin 10, fin 10, true⟩] := by
  decide +kernel

end Generator

end UnitDispatch
