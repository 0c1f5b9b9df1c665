import UnitDispatch.Proofs.RampLimits

/-! # The size of steps

Advancing in several steps comes to the same plan and the same committed power as advancing at
once. Only the realized reserve tells the steps apart: it is left as it is when a step begins with
the gap within the tolerance. `Beside` relates a generator advanced in smaller steps to one advanced
in larger ones, and moves, revisions and advances keep the relation, so differences do not add up.
-/

namespace UnitDispatch

open Quantity Exact

namespace Generator

/-! ## One course -/

section Course

variable {α : Type}

/-- Two generators follow the same plan, whatever reserve they deliver. -/
structure SameCourse (g h : Generator α) : Prop extends SameSettings g h where
  schedule : h.schedule = g.schedule
  committed : h.committed = g.committed
  rate : h.rate = g.rate
  now : h.now = g.now
  review : h.review = g.review
  last : h.last = g.last
  consumed : h.consumed = g.consumed

namespace SameCourse

theorem refl (g : Generator α) : SameCourse g g := ⟨.refl g, rfl, rfl, rfl, rfl, rfl, rfl, rfl⟩

theorem trans {g h k : Generator α} (a : SameCourse g h) (b : SameCourse h k) : SameCourse g k :=
  ⟨a.toSameSettings.trans b.toSameSettings, b.schedule.trans a.schedule,
    b.committed.trans a.committed, b.rate.trans a.rate, b.now.trans a.now, b.review.trans a.review,
    b.last.trans a.last, b.consumed.trans a.consumed⟩

variable [Quantity α] {g h : Generator α}

omit [Quantity α] in
theorem follow (same : SameCourse g h) (leg : Leg α) : SameCourse (g.follow leg) (h.follow leg) :=
  ⟨⟨same.envelope, same.rampTime, same.mode, same.available, same.requested,
    same.reserveRampTime⟩, same.schedule, same.committed, rfl, same.now, rfl, same.last,
    same.consumed⟩

theorem nextLeg (same : SameCourse g h) : h.nextLeg = g.nextLeg := by
  simp only [Generator.nextLeg, same.schedule, same.holdTarget, same.committed, same.mode, same.now,
    same.last, same.rate, same.rampLimitUp, same.envelope, same.rampTime]

theorem planNext (same : SameCourse g h) : SameCourse g.planNext h.planNext := by
  unfold Generator.planNext
  rw [same.nextLeg]
  exact same.follow _

theorem lack (same : SameCourse g h) (power : α) : h.lack power = g.lack power := by
  simp only [Generator.lack, same.committed]

theorem catchup (same : SameCourse g h) (lack : α) : h.catchup lack = g.catchup lack := by
  unfold Generator.catchup Generator.catchupRate
  rw [same.rate, same.rampLimitUp, same.envelope]

theorem carry (same : SameCourse g h) (power : α) (leg : Leg α) :
    SameCourse (g.carry power leg) (h.carry power leg) := by
  refine ⟨⟨same.envelope, same.rampTime, same.mode, same.available, same.requested,
    same.reserveRampTime⟩, ?_, same.committed, rfl, same.now, rfl, same.last, same.consumed⟩
  show h.schedule.insert _ = g.schedule.insert _
  rw [same.schedule]

theorem jump (same : SameCourse g h) (lack : α) : SameCourse (g.jump lack) (h.jump lack) := by
  refine ⟨⟨same.envelope, same.rampTime, same.mode, same.available, same.requested,
    same.reserveRampTime⟩, same.schedule, ?_, same.rate, same.now, same.review, same.last,
    same.consumed⟩
  show h.committed + lack = g.committed + lack
  rw [same.committed]

theorem settle (same : SameCourse g h) (wanted : α) :
    SameCourse (g.settle wanted) (h.settle wanted) := by
  unfold Generator.settle
  dsimp only
  rw [same.holdTarget, same.lack, same.catchup, same.now, same.schedule]
  split
  · exact same.planNext
  · split
    · split
      · exact same.planNext
      · exact same.carry _ _
    · exact (same.jump _).planNext
    · exact same.planNext

theorem takeDue (same : SameCourse g h) : SameCourse g.takeDue h.takeDue := by
  refine ⟨⟨same.envelope, same.rampTime, same.mode, same.available, same.requested,
    same.reserveRampTime⟩, ?_, same.committed, same.rate, same.now, same.review, ?_, ?_⟩
  all_goals simp only [Generator.takeDue, same.schedule, same.now, same.last, same.consumed]

/-- A revision of the plan does not look at the reserve delivered. -/
theorem replan (same : SameCourse g h) : SameCourse g.replan h.replan := by
  unfold Generator.replan
  rw [same.schedule, same.now]
  split
  · exact same.planNext
  · exact same.takeDue.settle _

theorem committedAfter (same : SameCourse g h) (dt : α) :
    h.committedAfter dt = g.committedAfter dt := by
  simp only [Generator.committedAfter, same.committed, same.rate]

theorem moveTo (same : SameCourse g h) (time : α) : SameCourse (g.moveTo time) (h.moveTo time) := by
  unfold Generator.moveTo
  dsimp only
  rw [same.now, same.committedAfter]
  split
  · exact ⟨⟨same.envelope, same.rampTime, same.mode, same.available, same.requested,
      same.reserveRampTime⟩, same.schedule, rfl, same.rate, rfl, same.review, same.last,
      same.consumed⟩
  · exact same

end SameCourse

end Course

variable {K : Type} [Field K] [LinearOrder K] {g h k : Generator (Exact K)} {n l c ρ r q : K}

/-! ## The reserve on two courses -/

/-- A reserve on its way from `r` to `q` has come close enough to be left as it is. -/
structure Settled (r q y : K) : Prop where
  between : y ∈ Set.uIcc r q
  close : |q - y| ≤ 1 / 10 ^ 3

/-- Two reserves on their way from `r` to `q` are the same, or both have settled. -/
def Alike (r q : K) (a b : Exact K) : Prop :=
  a = b ∨ ∃ x y, a = fin x ∧ b = fin y ∧ Settled r q x ∧ Settled r q y

/-- The same course, with reserves that are alike. -/
structure Beside (r q : K) (g h : Generator (Exact K)) : Prop where
  course : SameCourse g h
  alike : Alike r q g.reserve.realized h.reserve.realized
  requested : g.reserve.requested = fin q

theorem Alike.trans {a b c : Exact K} (one : Alike r q a b) (two : Alike r q b c) :
    Alike r q a c := by
  rcases one with rfl | ⟨x, y, rfl, rfl, hx, hy⟩
  · exact two
  · rcases two with rfl | ⟨-, z, -, rfl, -, hz⟩
    · exact .inr ⟨x, y, rfl, rfl, hx, hy⟩
    · exact .inr ⟨x, z, rfl, rfl, hx, hz⟩

theorem Beside.refl (requested : g.reserve.requested = fin q) : Beside r q g g :=
  ⟨.refl g, .inl rfl, requested⟩

/-- What was on its way from a later point was on its way from an earlier one. -/
theorem Beside.widen {r' : K} (beside : Beside r' q g h) (between : r' ∈ Set.uIcc r q) :
    Beside r q g h := by
  have inside : Set.uIcc r' q ⊆ Set.uIcc r q := Set.uIcc_subset_uIcc between Set.right_mem_uIcc
  refine ⟨beside.course, ?_, beside.requested⟩
  rcases beside.alike with same | ⟨x, y, hx, hy, sx, sy⟩
  · exact .inl same
  · exact .inr ⟨x, y, hx, hy, ⟨inside sx.between, sx.close⟩, ⟨inside sy.between, sy.close⟩⟩

theorem Beside.trans (a : Beside r q g h) (b : Beside r q h k) : Beside r q g k :=
  ⟨a.course.trans b.course, a.alike.trans b.alike, a.requested⟩

variable [IsStrictOrderedRing K]

/-- A settled reserve stays where it is. -/
theorem reserveAfter_of_settled {y : K} {dt : Exact K} (realized : g.reserve.realized = fin y)
    (requested : g.reserve.requested = fin q) (settled : Settled r q y) :
    g.reserveAfter dt = fin y := by
  obtain ⟨low, high⟩ := abs_le.mp settled.close
  unfold reserveAfter Reserve.after Reserve.gap
  rw [requested, realized, fin_sub, Reserve.tolerance_eq, neg_fin]
  dsimp only
  rw [if_neg (by simpa using high), if_neg (by simpa using low)]

omit [IsStrictOrderedRing K] in
theorem SameCourse.reserveAfter (same : SameCourse g h)
    (realized : h.reserve.realized = g.reserve.realized) (dt : Exact K) :
    h.reserveAfter dt = g.reserveAfter dt := by
  unfold Generator.reserveAfter Reserve.after Generator.drive Reserve.gap
  dsimp only
  rw [same.requested, realized, same.envelope, same.rate]

/-- Along one leg, reserves stay alike. -/
theorem Beside.moveTo (beside : Beside r q g h) (time : Exact K) :
    Beside r q (g.moveTo time) (h.moveTo time) := by
  refine ⟨beside.course.moveTo time, ?_, (moveTo_sameSettings g time).requested.trans
    beside.requested⟩
  have requested := beside.course.requested.trans beside.requested
  unfold Generator.moveTo
  dsimp only
  rw [beside.course.now]
  split
  · dsimp only
    rcases beside.alike with same | ⟨x, y, hx, hy, sx, sy⟩
    · rw [beside.course.reserveAfter same.symm]
      exact .inl rfl
    · rw [reserveAfter_of_settled hx beside.requested sx, reserveAfter_of_settled hy requested sy]
      exact .inr ⟨x, y, rfl, rfl, sx, sy⟩
  · exact beside.alike

omit [IsStrictOrderedRing K] in
theorem Beside.replan (beside : Beside r q g h) : Beside r q g.replan h.replan := by
  have plant := replan_samePlant g
  refine ⟨beside.course.replan, ?_, ?_⟩
  · rw [plant.reserve, (replan_samePlant h).reserve]
    exact beside.alike
  · rw [plant.reserve]
    exact beside.requested

theorem Beside.leg (beside : Beside r q g h) : Beside r q g.leg h.leg := by
  unfold Generator.leg
  rw [beside.course.review]
  exact (beside.moveTo _).replan

/-! ## A leg in two parts -/

section Parts

variable {v x y z a b : K}

/-- A rise that stops at `q`, in two parts. -/
theorem rise_add (hv : 0 ≤ v) (hb : 0 ≤ b) :
    min (x + v * (a + b)) q = min (min (x + v * a) q + v * b) q := by
  have more : 0 ≤ v * b := mul_nonneg hv hb
  rw [mul_add, ← add_assoc]
  rcases le_total (x + v * a) q with short | there
  · rw [min_eq_left short]
  · rw [min_eq_right there, min_eq_right (by linarith), min_eq_right (by linarith)]

/-- A fall that stops at `q`, in two parts. -/
theorem fall_add (hv : v ≤ 0) (hb : 0 ≤ b) :
    max (x + v * (a + b)) q = max (max (x + v * a) q + v * b) q := by
  have less : v * b ≤ 0 := mul_nonpos_of_nonpos_of_nonneg hv hb
  rw [mul_add, ← add_assoc]
  rcases le_total q (x + v * a) with short | there
  · rw [max_eq_left short]
  · rw [max_eq_right there, max_eq_right (by linarith), max_eq_right (by linarith)]

/-- A reserve that has settled at a stop stays there, and is as good as one that goes on. -/
theorem alike_of_stop {dt : Exact K} (stop : h.reserve.realized = fin y)
    (requested : h.reserve.requested = fin q) (hy : y ∈ Set.uIcc x q)
    (close : |q - y| ≤ 1 / 10 ^ 3) (hz : z ∈ Set.uIcc y q) :
    Alike x q (h.reserveAfter dt) (fin z) := by
  have settled : Settled x q y := ⟨hy, close⟩
  rw [reserveAfter_of_settled stop requested settled]
  exact .inr ⟨y, z, rfl, rfl, settled, Set.uIcc_subset_uIcc hy Set.right_mem_uIcc hz,
    (Set.abs_sub_right_of_mem_uIcc hz).trans close⟩

/-- A reserve that is there at a stop stays there. -/
theorem alike_of_arrived {dt : Exact K} (there : h.reserve.realized = fin q)
    (requested : h.reserve.requested = fin q) : Alike x q (h.reserveAfter dt) (fin q) := by
  refine alike_of_stop there requested Set.right_mem_uIcc ?_ Set.right_mem_uIcc
  rw [sub_self, abs_zero]
  positivity

section Stop

variable (rated : g.Rated) (rate : g.rate = fin ρ) (realized : g.reserve.realized = fin x)
  (requested : g.reserve.requested = fin q) (ha : 0 < a) (hb : 0 < b) (same : SameSettings g h)
  (rate' : h.rate = g.rate) (stop : h.reserve.realized = g.reserveAfter (fin a))

include rated rate realized requested ha hb same rate' stop

theorem reserveAfter_add_of_rises (up : negInf < g.envelope.rampUp)
    (rises : 1 / 10 ^ 3 < q - x) :
    Alike x q (h.reserveAfter (fin b)) (g.reserveAfter (fin (a + b))) := by
  have narrow : (0 : K) < 1 / 10 ^ 3 := by positivity
  have goal := same.requested.trans requested
  rw [reserveAfter_eq rate realized requested, if_pos rises] at stop ⊢
  obtain ⟨u, hu⟩ | hu := eq_of_negInf_lt up
  · have room : 0 ≤ u - ρ := by
      have := rated.up
      rw [rate, hu, fin_le] at this
      exact sub_nonneg.mpr this
    simp only [hu, fin_sub, fin_mul, fin_add, lesser_fin] at stop ⊢
    rw [rise_add room hb.le]
    generalize hy : min (x + (u - ρ) * a) q = y at stop ⊢
    have le : y ≤ q := hy ▸ min_le_right _ _
    have ge : x ≤ y := by
      rw [← hy]
      exact le_min (le_add_of_nonneg_right (mul_nonneg room ha.le)) (by linarith)
    by_cases again : 1 / 10 ^ 3 < q - y
    · rw [reserveAfter_eq (rate'.trans rate) stop goal, same.envelope, hu, if_pos again]
      exact .inl (by simp)
    · have on : y ≤ min (y + (u - ρ) * b) q :=
        le_min (le_add_of_nonneg_right (mul_nonneg room hb.le)) le
      exact alike_of_stop stop goal (Set.mem_uIcc_of_le ge le)
        (abs_le.mpr ⟨by linarith, not_lt.mp again⟩) (Set.mem_uIcc_of_le on (min_le_right _ _))
  · -- without a limit the reserve is there at once
    rw [hu, posInf_sub_fin, posInf_mul_fin ha, fin_add_posInf] at stop
    rw [hu, posInf_sub_fin, posInf_mul_fin (add_pos ha hb), fin_add_posInf]
    have there : lesser posInf (fin q) = fin q := by simp [lesser]
    rw [there] at stop ⊢
    exact alike_of_arrived stop goal

theorem reserveAfter_add_of_falls (down : negInf < g.envelope.rampDown)
    (falls : q - x < -(1 / 10 ^ 3)) :
    Alike x q (h.reserveAfter (fin b)) (g.reserveAfter (fin (a + b))) := by
  have narrow : (0 : K) < 1 / 10 ^ 3 := by positivity
  have goal := same.requested.trans requested
  rw [reserveAfter_eq rate realized requested, if_neg (by linarith), if_pos falls] at stop ⊢
  obtain ⟨d, hd⟩ | hd := eq_of_negInf_lt down
  · have room : -d - ρ ≤ 0 := by
      have := rated.down
      rw [rate, hd, neg_fin, fin_le] at this
      exact sub_nonpos.mpr this
    simp only [hd, neg_fin, fin_sub, fin_mul, fin_add, greater_fin] at stop ⊢
    rw [fall_add room hb.le]
    generalize hy : max (x + (-d - ρ) * a) q = y at stop ⊢
    have ge : q ≤ y := hy ▸ le_max_right _ _
    have le : y ≤ x := by
      rw [← hy]
      exact max_le (add_le_of_nonpos_right (mul_nonpos_of_nonpos_of_nonneg room ha.le))
        (by linarith)
    by_cases again : q - y < -(1 / 10 ^ 3)
    · rw [reserveAfter_eq (rate'.trans rate) stop goal, same.envelope, hd, if_neg (by linarith),
        if_pos again]
      exact .inl (by simp)
    · have on : max (y + (-d - ρ) * b) q ≤ y :=
        max_le (add_le_of_nonpos_right (mul_nonpos_of_nonpos_of_nonneg room hb.le)) ge
      exact alike_of_stop stop goal (Set.mem_uIcc_of_ge ge le)
        (abs_le.mpr ⟨not_lt.mp again, by linarith⟩) (Set.mem_uIcc_of_ge (le_max_right _ _) on)
  · rw [hd, neg_posInf, negInf_sub_fin, negInf_mul_fin ha, fin_add_negInf] at stop
    rw [hd, neg_posInf, negInf_sub_fin, negInf_mul_fin (add_pos ha hb), fin_add_negInf]
    have there : greater negInf (fin q) = fin q := by simp [greater]
    rw [there] at stop ⊢
    exact alike_of_arrived stop goal

/-- With a stop between, the reserve comes to the same, or settles at the stop. -/
theorem reserveAfter_add (up : negInf < g.envelope.rampUp) (down : negInf < g.envelope.rampDown) :
    Alike x q (h.reserveAfter (fin b)) (g.reserveAfter (fin (a + b))) := by
  by_cases rises : 1 / 10 ^ 3 < q - x
  · exact reserveAfter_add_of_rises rated rate realized requested ha hb same rate' stop up rises
  by_cases falls : q - x < -(1 / 10 ^ 3)
  · exact reserveAfter_add_of_falls rated rate realized requested ha hb same rate' stop down falls
  have settled : Settled x q x :=
    ⟨Set.left_mem_uIcc, abs_le.mpr ⟨not_lt.mp falls, not_lt.mp rises⟩⟩
  rw [reserveAfter_of_settled realized requested settled] at stop ⊢
  rw [reserveAfter_of_settled stop (same.requested.trans requested) settled]
  exact .inl rfl

end Stop

/-- A move along a leg comes to the same with a stop between. -/
theorem OnCourse.moveTo_moveTo (course : g.OnCourse n l c ρ) (workable : g.Workable) {s t : K}
    (realized : g.reserve.realized = fin x) (requested : g.reserve.requested = fin q) (hs : n < s)
    (ht : s < t) : Beside x q ((g.moveTo (fin s)).moveTo (fin t)) (g.moveTo (fin t)) := by
  have first := course.stands.moveTo hs.le
  have parts := first.moveTo ht.le
  have whole := course.stands.moveTo (hs.trans ht).le
  have settings := (moveTo_sameSettings g (fin s)).trans (moveTo_sameSettings _ (fin t))
  refine ⟨⟨settings.symm.trans (moveTo_sameSettings g _), ?_, ?_, ?_, ?_, ?_, ?_, ?_⟩, ?_,
    settings.requested.trans requested⟩
  · rw [moveTo_schedule, moveTo_schedule, moveTo_schedule]
  · rw [whole.committed, parts.committed]
    exact congrArg fin (by ring)
  · rw [whole.rate, parts.rate]
  · rw [whole.now, parts.now]
  · rw [moveTo_review, moveTo_review, moveTo_review]
  · rw [whole.last, parts.last]
  · rw [moveTo_consumed, moveTo_consumed, moveTo_consumed]
  · have length : t - n = (s - n) + (t - s) := by ring
    rw [moveTo_realized first.now ht, moveTo_realized course.stands.now (hs.trans ht), length]
    exact reserveAfter_add course.rated course.stands.rate realized requested (sub_pos.mpr hs)
      (sub_pos.mpr ht) (moveTo_sameSettings g _) (first.rate.trans course.stands.rate.symm)
      (moveTo_realized course.stands.now hs) workable.proper.rampUp workable.proper.rampDown

/-- So does a leg that ends with the next review. -/
theorem OnCourse.leg_moveTo (course : g.OnCourse n l c ρ) (workable : g.Workable) {s t : K}
    (realized : g.reserve.realized = fin x) (requested : g.reserve.requested = fin q) (hs : n < s)
    (short : fin s < g.review) (due : g.review ≤ fin t) :
    Beside x q (g.moveTo (fin s)).leg g.leg := by
  unfold Generator.leg
  rw [moveTo_review]
  cases course.heading with
  | rest _ _ rest =>
    rw [rest] at due
    exact (not_posInf_le_fin t due).elim
  | leg underway =>
    rw [underway.review, fin_lt] at short
    rw [underway.review]
    exact (course.moveTo_moveTo workable realized requested hs short).replan

end Parts

/-! ## Going through reviews -/

theorem Passes.beside {t : Exact K} (passes : Passes t g k) (beside : Beside r q g h) :
    ∃ j, Passes t h j ∧ Beside r q k j := by
  induction passes generalizing h with
  | arrived later => exact ⟨h, .arrived (beside.course.review ▸ later), beside⟩
  | leg due rest ih =>
    obtain ⟨j, passes, beside'⟩ := ih beside.leg
    exact ⟨j, .leg (beside.course.review ▸ due) passes, beside'⟩

/-! ## Advances -/

/-- Fit to advance, with the reserve somewhere between `r` and what is called for. -/
structure Delivering (r q : K) (g : Generator (Exact K)) : Prop where
  workable : g.Workable
  requested : g.reserve.requested = fin q
  realized : ∃ y, g.reserve.realized = fin y ∧ y ∈ Set.uIcc r q

theorem delivering_keptByLegs (g₀ : Generator (Exact K)) (t : K) :
    KeptByLegs g₀ t (Delivering r q) where
  move := by
    rintro h n l c ρ s - course - ⟨workable, requested, y, realized, between⟩ ahead - -
    obtain ⟨z, after, toward, -⟩ := reserveAfter_rated workable.proper course.rated
      course.stands.rate realized requested (sub_pos.mpr ahead)
    refine ⟨workable.moveTo _, (moveTo_sameSettings h _).requested.trans requested, z, ?_, ?_⟩
    · rw [moveTo_realized course.stands.now ahead, after]
    · exact Set.uIcc_subset_uIcc between Set.right_mem_uIcc toward
  replan := by
    rintro h n l c ρ - ready - - ⟨workable, requested, realized⟩
    have reserve := (replan_samePlant h).reserve
    exact ⟨workable.replan ready.regular, by rw [reserve]; exact requested,
      by rw [reserve]; exact realized⟩

/-- An advance with a stop between. -/
theorem OnCourse.advance_advance (course : g.OnCourse n l c ρ) (delivering : Delivering r q g)
    {s t : K} (hs : n < s) (ht : s < t) :
    Beside r q ((g.advance (fin s)).advance (fin t)) (g.advance (fin t)) := by
  obtain ⟨k, first, stop⟩ := course.advance_eq delivering.workable hs
  obtain ⟨n', l', c', v, course', able, -, ⟨-, requested, y, realized, between⟩, hn, review⟩ :=
    first.onCourse (delivering_keptByLegs g s) course delivering.workable (.refl g) delivering hs.le
  have stopped := course'.moveTo hn review
  obtain ⟨j, second, arrive⟩ := stopped.advance_eq (able.moveTo _) ht
  -- at once, the same reviews are gone through up to the stop
  obtain ⟨h, onward, -⟩ := course'.advance_eq able (hn.trans_lt ht)
  obtain ⟨h', passes, arrive'⟩ := course.advance_eq delivering.workable (hs.trans ht)
  obtain rfl := passes.unique (first.trans ht.le onward)
  rw [stop, arrive, arrive']
  rcases hn.eq_or_lt with rfl | before
  · rw [moveTo_of_past course'.stands.now le_rfl] at second
    obtain ⟨_, other, beside⟩ := second.beside (.refl requested)
    obtain rfl := other.unique onward
    exact beside.moveTo _
  by_cases due : k.review ≤ fin t
  · -- the stop parts the leg that ends with the next review
    have leg : Beside r q (k.moveTo (fin s)).leg k.leg :=
      (course'.leg_moveTo able realized requested before review due).widen between
    cases second with
    | arrived later => exact (later (by rwa [moveTo_review])).elim
    | leg _ rest =>
      cases onward with
      | arrived later => exact (later due).elim
      | leg _ rest' =>
        obtain ⟨_, other, beside⟩ := rest.beside leg
        obtain rfl := other.unique rest'
        exact beside.moveTo _
  · -- the stop parts the last leg
    cases onward with
    | leg now => exact (due now).elim
    | arrived =>
      cases second with
      | leg now =>
        rw [moveTo_review] at now
        exact (due now).elim
      | arrived => exact (course'.moveTo_moveTo able realized requested before ht).widen between

/-- An advance in any number of steps. -/
theorem OnCourse.foldl_advance {ts : List (Exact K)} {t : Exact K} (course : g.OnCourse n l c ρ)
    (delivering : Delivering r q g) (finite : ∀ s ∈ ts, isFinite s = true)
    (later : (g.now :: ts).Pairwise (· < ·)) (last : ts.getLast? = some t) :
    Beside r q (ts.foldl Generator.advance g) (g.advance t) := by
  induction ts generalizing g n l c ρ with
  | nil => cases last
  | cons s ts ih =>
    obtain ⟨s, rfl⟩ := isFinite_iff.mp (finite s List.mem_cons_self)
    obtain ⟨ahead, rest⟩ := List.pairwise_cons.mp later
    have hs : n < s := by
      have := ahead (fin s) List.mem_cons_self
      rwa [course.stands.now, fin_lt] at this
    obtain ⟨l', c', v, course', delivering'⟩ :=
      course.advance delivering.workable (delivering_keptByLegs g s) delivering
    rw [max_eq_right hs.le] at course'
    rw [List.foldl_cons]
    cases ts with
    | nil =>
      obtain rfl : fin s = t := Option.some.inj last
      exact .refl delivering'.requested
    | cons u us =>
      have more : (u :: us).getLast? = some t := last
      obtain ⟨t, rfl⟩ := isFinite_iff.mp
        (finite t (List.mem_cons_of_mem _ (List.mem_of_getLast? more)))
      have ht : s < t := fin_lt.mp ((List.pairwise_cons.mp rest).1 _ (List.mem_of_getLast? more))
      refine (ih course' delivering' ?_ ?_ more).trans
        (course.advance_advance delivering hs ht)
      · intro w hw
        exact finite w (List.mem_cons_of_mem _ hw)
      · rw [course'.stands.now]
        exact rest

/-! ## Every history -/

/-- Reserves that are alike differ by no more than the tolerance. -/
theorem Alike.near {a b : Exact K} (alike : Alike r q a b) (finite : isFinite b = true) :
    magnitude (a - b) ≤ Reserve.tolerance := by
  have narrow : (0 : K) ≤ 1 / 10 ^ 3 := by positivity
  rw [Reserve.tolerance_eq]
  rcases alike with rfl | ⟨x, y, rfl, rfl, sx, sy⟩
  · obtain ⟨x, rfl⟩ := isFinite_iff.mp finite
    rw [fin_sub, sub_self, magnitude_fin, abs_zero, fin_le]
    exact narrow
  · rw [fin_sub, magnitude_fin, fin_le]
    obtain ⟨low, high⟩ := abs_le.mp sx.close
    obtain ⟨low', high'⟩ := abs_le.mp sy.close
    -- both lie on the side of `q` on which `r` lies
    rcases le_total r q with le | ge
    · have hx := (Set.uIcc_of_le le ▸ sx.between).2
      have hy := (Set.uIcc_of_le le ▸ sy.between).2
      exact abs_le.mpr ⟨by linarith, by linarith⟩
    · have hx := (Set.uIcc_of_ge ge ▸ sx.between).1
      have hy := (Set.uIcc_of_ge ge ▸ sy.between).1
      exact abs_le.mpr ⟨by linarith, by linarith⟩

/-- Advancing step by step leaves the plan, the committed power and the setpoints consumed that a
single advance leaves, and a reserve that differs by no more than the tolerance. -/
theorem sameCourse_foldl_advance {o : K} {ts : List (Exact K)} {t : Exact K}
    (reaches : Reaches (fun g => g.Workable ∧ isFinite g.reserve.available = true) Suits
      (idle (fin o)) g) (finite : ∀ s ∈ ts, isFinite s = true)
    (later : (g.now :: ts).Pairwise (· < ·)) (last : ts.getLast? = some t) :
    SameCourse (ts.foldl Generator.advance g) (g.advance t) ∧
      magnitude ((ts.foldl Generator.advance g).reserve.realized - (g.advance t).reserve.realized) ≤
        Reserve.tolerance := by
  obtain ⟨⟨n, l, c, ρ, course⟩, c', y, carries⟩ := reaches.balanced
  obtain ⟨workable, available⟩ := reaches.holds
  obtain ⟨q, requested⟩ := isFinite_iff.mp (course.called.isFinite_requested available)
  have delivering : Delivering y q g :=
    ⟨workable, requested, y, carries.realized, Set.left_mem_uIcc⟩
  have beside := course.foldl_advance delivering finite later last
  obtain ⟨t, rfl⟩ := isFinite_iff.mp (finite t (List.mem_of_getLast? last))
  obtain ⟨_, _, _, -, -, -, z, realized, -⟩ :=
    course.advance workable (delivering_keptByLegs g t) delivering
  exact ⟨beside.course, beside.alike.near (realized ▸ isFinite_fin z)⟩

/-- Steps that end in the middle of a ramp, and one of them just short of the reserve called for:
there the reserve stays, while a single advance delivers all of it. -/
theorem sameCourse_short_of_reserve :
    let g := (idle (fin (10 : ℚ))).run [.setRampLimits (fin 2) (fin 1), .holdReserve (fin 20),
      .add (fin 30) (fin 40), .add (fin 60) (fin 20), .callReserve (fin 15)]
    let h := [fin 7, fin (14999 / 1000), fin 50, fin 90].foldl Generator.advance g
    SameCourse h (g.advance (fin 90)) ∧
      magnitude (h.reserve.realized - (g.advance (fin 90)).reserve.realized) ≤ Reserve.tolerance ∧
      h.reserve.realized = fin (14999 / 1000) ∧
      (g.advance (fin 90)).reserve.realized = fin 15 := by
  intro g h
  have start : Reaches (fun g => g.Workable ∧ isFinite g.reserve.available = true) Suits
      (idle (fin (10 : ℚ))) (idle (fin 10)) := .start (by decide +kernel)
  have reaches : Reaches (fun g => g.Workable ∧ isFinite g.reserve.available = true) Suits
      (idle (fin (10 : ℚ))) g := start.run (by decide +kernel)
  have finite : ∀ s ∈ [fin 7, fin (14999 / 1000), fin 50, fin (90 : ℚ)], isFinite s = true := by
    decide +kernel
  obtain ⟨course, near⟩ := sameCourse_foldl_advance reaches finite (by decide +kernel) rfl
  exact ⟨course, near, by decide +kernel, by decide +kernel⟩

end Generator

end UnitDispatch
