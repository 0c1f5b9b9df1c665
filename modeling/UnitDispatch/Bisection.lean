/-! # Bisection

How many leading members of a list pass a test, found by looking at one member per halving.
`bisect_eq_takeWhile` says that the answer is that of a linear scan wherever the test parts the list
in two.
-/

namespace UnitDispatch

/-- How many leading members pass `test`, looking at one member per halving. `fuel` is at least the
length of the list. -/
def bisectWith {β : Type} (test : β → Bool) : Nat → List β → Nat
  | 0, _ => 0
  | fuel + 1, xs =>
    match xs with
    | [] => 0
    | [x] => if test x then 1 else 0
    | _ =>
      let half := xs.length / 2
      match xs.drop half with
      | [] => 0
      | mid :: rest =>
        if test mid then half + bisectWith test fuel (mid :: rest)
        else bisectWith test fuel (xs.take (xs.length - half))

/-- How many leading members of a list that `test` parts in two pass the test. -/
def bisect {β : Type} (test : β → Bool) (xs : List β) : Nat := bisectWith test xs.length xs

/-- Where a member at place `k` fails, at most `k` leading members pass. -/
theorem length_takeWhile_le {β : Type} {test : β → Bool} {xs : List β} {k : Nat} {mid : β}
    {rest : List β} (cut : xs.drop k = mid :: rest) (fails : test mid = false) :
    (xs.takeWhile test).length ≤ k := by
  have parts := List.take_append_drop k xs
  rw [cut] at parts
  rw [← parts, List.takeWhile_append]
  have len := List.length_take_le k xs
  have sub := (List.takeWhile_sublist test (l := xs.take k)).length_le
  split
  · rw [List.takeWhile_cons_of_neg (Bool.eq_false_iff.mp fails), List.append_nil]
    exact len
  · omega

/-- Where a member of a parted list passes, so do all before it. -/
theorem length_takeWhile_of_pass {β : Type} {test : β → Bool} {xs : List β} {k : Nat} {mid : β}
    {rest : List β} (parted : xs.Pairwise fun x y => test y = true → test x = true)
    (cut : xs.drop k = mid :: rest) (passes : test mid = true) :
    (xs.takeWhile test).length = k + ((mid :: rest).takeWhile test).length := by
  have parts := List.take_append_drop k xs
  have short : k < xs.length := by
    have := congrArg List.length cut
    simp at this
    omega
  rw [cut] at parts
  rw [← parts, List.pairwise_append] at parted
  have before : ∀ x ∈ xs.take k, test x = true :=
    fun x hx => parted.2.2 x hx mid List.mem_cons_self passes
  rw [← parts, List.takeWhile_append_of_pos before, List.length_append, List.length_take,
    Nat.min_eq_left (Nat.le_of_lt short)]

theorem bisectWith_eq_takeWhile {β : Type} {test : β → Bool} {fuel : Nat} {xs : List β}
    (len : xs.length ≤ fuel) (parted : xs.Pairwise fun x y => test y = true → test x = true) :
    bisectWith test fuel xs = (xs.takeWhile test).length := by
  induction fuel generalizing xs with
  | zero => simp [List.length_eq_zero_iff.mp (Nat.le_zero.mp len), bisectWith]
  | succ fuel ih =>
    match xs with
    | [] => rfl
    | [x] => by_cases h : test x <;> simp [bisectWith, h]
    | x :: y :: zs =>
      simp only [bisectWith]
      generalize hxs : x :: y :: zs = xs at *
      have two : 2 ≤ xs.length := by simp [← hxs]
      split
      next cut =>
        have := congrArg List.length cut
        simp at this
        omega
      next mid rest cut =>
        split
        next passes =>
          rw [ih _ (cut ▸ parted.sublist (List.drop_sublist _ _)),
            length_takeWhile_of_pass parted cut passes]
          have := congrArg List.length cut
          simp only [List.length_drop] at this
          omega
        next fails =>
          rw [ih _ (parted.sublist (List.take_sublist _ _)), ← List.take_takeWhile,
            List.length_take, Nat.min_eq_right]
          · have := length_takeWhile_le cut (by simpa using fails)
            omega
          · simp only [List.length_take]
            omega

theorem bisect_eq_takeWhile {β : Type} {test : β → Bool} {xs : List β}
    (parted : xs.Pairwise fun x y => test y = true → test x = true) :
    bisect test xs = (xs.takeWhile test).length :=
  bisectWith_eq_takeWhile (Nat.le_refl _) parted

end UnitDispatch
