import UnitDispatch.CommandLine.Options

/-! # The words of a command line

The grammar behind the reading of a command line: options and their values, up to a word that stops
it. `ofWords_eq_ok_iff` and `ofWords_eq_error_iff` say that reading follows it, and that of the
values of an option only the last is left.
-/

namespace UnitDispatch.CommandLine

/-- Whether an option takes a value: only a seed can be refused. -/
def Flag.takes : Flag → String → Bool
  | seed, value => (seedOf? value).isSome
  | _, _ => true

/-- Options with their values, as words. -/
def spell (pairs : List (Flag × String)) : List String :=
  pairs.flatMap fun (flag, value) => [flag.word, value]

/-- Every option takes its value. -/
def WellFormed (pairs : List (Flag × String)) : Prop := ∀ p ∈ pairs, p.1.takes p.2 = true

instance (pairs : List (Flag × String)) : Decidable (WellFormed pairs) :=
  inferInstanceAs (Decidable (∀ p ∈ pairs, p.1.takes p.2 = true))

/-- The last value that an option is given. -/
def last? (pairs : List (Flag × String)) (flag : Flag) : Option String :=
  (pairs.reverse.find? (·.1 == flag)).map (·.2)

/-- What is asked for by a value for some options. -/
def Options.ofValues (value? : Flag → Option String) : Options where
  scenario := value? .scenario
  preset := value? .preset
  seed := (value? .seed).bind seedOf?
  telemetry := value? .telemetry

/-- Words that stop the reading at once. -/
inductive Halts : Stop → List String → Prop
  | help {word : String} (isHelp : isHelp word = true) (rest : List String) :
    Halts .help (word :: rest)
  | unknown {word : String} (noHelp : isHelp word = false)
    (noFlag : ∀ flag : Flag, flag.word ≠ word) (rest : List String) :
    Halts (.unknown word) (word :: rest)
  | noValue (flag : Flag) : Halts (.noValue flag) [flag.word]
  | badSeed {value : String} (bad : seedOf? value = none) (rest : List String) :
    Halts (.badSeed value) (Flag.seed.word :: value :: rest)

theorem last?_append (front back : List (Flag × String)) (flag : Flag) :
    last? (front ++ back) flag = (last? back flag).or (last? front flag) := by
  unfold last?
  rw [List.reverse_append, List.find?_append, Option.map_or]

/-- Which of two different options comes first does not matter. -/
theorem last?_swap {p q : Flag × String} (apart : p.1 ≠ q.1) (front back : List (Flag × String)) :
    last? (front ++ p :: q :: back) = last? (front ++ q :: p :: back) := by
  have two : last? [p, q] = last? [q, p] := by
    funext flag
    by_cases hp : p.1 = flag
    · have hq : ¬ q.1 = flag := fun hq => apart (hp.trans hq.symm)
      simp [last?, hp, hq]
    · by_cases hq : q.1 = flag <;> simp [last?, hp, hq]
  show last? (front ++ ([p, q] ++ back)) = last? (front ++ ([q, p] ++ back))
  funext flag
  simp only [last?_append, two]

/-- Values of other options can be left out. -/
theorem last?_filter {pairs : List (Flag × String)} {flag out : Flag} (apart : flag ≠ out) :
    last? (pairs.filter fun p => p.1 != out) flag = last? pairs flag := by
  have test (p : Flag × String) :
      decide ((p.1 != out) = true ∧ (p.1 == flag) = true) = (p.1 == flag) := by
    by_cases same : p.1 = flag <;> simp [same, apart]
  unfold last?
  rw [← List.filter_reverse, List.find?_filter]
  simp only [test]

theorem isHelp_word (flag : Flag) : isHelp flag.word = false := by
  cases flag <;> decide +kernel

/-- A word that is no option's is not taken for one. -/
theorem ofWord?_eq_none_iff {word : String} :
    Flag.ofWord? word = none ↔ ∀ flag : Flag, flag.word ≠ word := by
  unfold Flag.ofWord?
  rw [List.find?_eq_none]
  constructor
  · intro none flag
    exact fun eq => none flag (by cases flag <;> simp) (beq_iff_eq.mpr eq)
  · intro none flag _ eq
    exact none flag (beq_iff_eq.mp eq)

theorem word_of_ofWord? {word : String} {flag : Flag} (h : Flag.ofWord? word = some flag) :
    flag.word = word :=
  beq_iff_eq.mp (List.find?_some (p := fun flag : Flag => flag.word == word) h)

theorem read_noValue (o : Options) (flag : Flag) :
    o.read [flag.word] = .error (.noValue flag) := by
  rw [Options.read, isHelp_word, Flag.ofWord?_word]
  rfl

theorem read_value (o : Options) (flag : Flag) (value : String) (rest : List String) :
    o.read (flag.word :: value :: rest) = o.set flag value >>= (·.read rest) := by
  rw [Options.read, isHelp_word, Flag.ofWord?_word]
  rfl

/-! ## Words that stop the reading -/

theorem Halts.read {stop : Stop} {words : List String} (h : Halts stop words) (o : Options) :
    o.read words = .error stop := by
  cases h with
  | help isHelp rest => rw [Options.read, if_pos isHelp]
  | unknown noHelp noFlag rest =>
    rw [Options.read, if_neg (Bool.eq_false_iff.mp noHelp), ofWord?_eq_none_iff.mpr noFlag]
  | noValue flag => exact read_noValue o flag
  | badSeed bad rest =>
    have refused (value : String) (bad : seedOf? value = none) :
        o.set .seed value = .error (.badSeed value) := by simp [Options.set, bad]
    rw [read_value, refused _ bad]
    rfl

theorem takes_or_badSeed (flag : Flag) (value : String) :
    flag.takes value = true ∨ flag = .seed ∧ seedOf? value = none := by
  cases flag with
  | seed => cases h : seedOf? value <;> simp [Flag.takes, h]
  | _ => exact .inl rfl

/-- Every command line is made of options that take their values, and perhaps of words behind them
that stop it. -/
theorem exists_spell (words : List String) : ∃ pairs, WellFormed pairs ∧
    (words = spell pairs ∨ ∃ rest stop, words = spell pairs ++ rest ∧ Halts stop rest) := by
  have halted {words : List String} {stop : Stop} (halts : Halts stop words) : ∃ pairs,
      WellFormed pairs ∧
        (words = spell pairs ∨ ∃ rest stop, words = spell pairs ++ rest ∧ Halts stop rest) :=
    ⟨[], nofun, .inr ⟨words, stop, rfl, halts⟩⟩
  match words with
  | [] => exact ⟨[], nofun, .inl rfl⟩
  | word :: rest =>
    cases help : isHelp word with
    | true => exact halted (.help help rest)
    | false =>
      cases known : Flag.ofWord? word with
      | none => exact halted (.unknown help (ofWord?_eq_none_iff.mp known) rest)
      | some flag =>
        obtain rfl := word_of_ofWord? known
        match rest with
        | [] => exact halted (.noValue flag)
        | value :: rest =>
          rcases takes_or_badSeed flag value with takes | ⟨rfl, bad⟩
          · obtain ⟨pairs, wellFormed, shape⟩ := exists_spell rest
            refine ⟨(flag, value) :: pairs, List.forall_mem_cons.mpr ⟨takes, wellFormed⟩, ?_⟩
            rcases shape with rfl | ⟨behind, stop, rfl, halts⟩
            · exact .inl rfl
            · exact .inr ⟨behind, stop, rfl, halts⟩
          · exact halted (.badSeed bad rest)
termination_by words.length

/-! ## Options that take their values -/

/-- What is asked for after one more option. -/
def Options.put (o : Options) (p : Flag × String) : Options :=
  match p.1 with
  | .scenario => { o with scenario := some p.2 }
  | .preset => { o with preset := some p.2 }
  | .seed => { o with seed := seedOf? p.2 }
  | .telemetry => { o with telemetry := some p.2 }

theorem set_of_takes {p : Flag × String} (takes : p.1.takes p.2 = true) (o : Options) :
    o.set p.1 p.2 = .ok (o.put p) := by
  obtain ⟨flag, value⟩ := p
  cases flag with
  | seed =>
    obtain ⟨n, seed⟩ := Option.isSome_iff_exists.mp takes
    simp only [Options.set, Options.put, seed]
  | _ => rfl

/-- Options are read one after another. -/
theorem read_spell {pairs : List (Flag × String)} (wellFormed : WellFormed pairs) (o : Options)
    (rest : List String) :
    o.read (spell pairs ++ rest) = (pairs.foldl Options.put o).read rest := by
  induction pairs generalizing o with
  | nil => rfl
  | cons p pairs ih =>
    obtain ⟨takes, wellFormed⟩ := List.forall_mem_cons.mp wellFormed
    calc o.read (spell (p :: pairs) ++ rest)
        = o.set p.1 p.2 >>= (·.read (spell pairs ++ rest)) := read_value o p.1 p.2 _
      _ = (o.put p).read (spell pairs ++ rest) := by rw [set_of_takes takes]; rfl
      _ = ((p :: pairs).foldl Options.put o).read rest := ih wellFormed (o.put p)

theorem put_ofValues (value? : Flag → Option String) (p : Flag × String) :
    (Options.ofValues value?).put p =
      .ofValues fun flag => if p.1 = flag then some p.2 else value? flag := by
  obtain ⟨flag, value⟩ := p
  cases flag <;> rfl

/-- Of the values of an option the last is left. -/
theorem foldl_put (pairs : List (Flag × String)) (value? : Flag → Option String) :
    pairs.foldl Options.put (.ofValues value?) =
      .ofValues fun flag => (last? pairs flag).or (value? flag) := by
  induction pairs generalizing value? with
  | nil => rfl
  | cons p pairs ih =>
    rw [List.foldl_cons, put_ofValues, ih]
    congr 1
    funext flag
    rw [← List.singleton_append, last?_append, Option.or_assoc]
    congr 1
    by_cases same : p.1 = flag <;> simp [last?, same]

/-! ## The grammar of a command line -/

theorem ofWords_spell {pairs : List (Flag × String)} (wellFormed : WellFormed pairs)
    (rest : List String) :
    Options.ofWords (spell pairs ++ rest) = (Options.ofValues (last? pairs)).read rest := by
  have start : ({} : Options) = .ofValues fun _ => none := rfl
  unfold Options.ofWords
  rw [read_spell wellFormed, start, foldl_put]
  simp

theorem ofWords_of_wellFormed {pairs : List (Flag × String)} (wellFormed : WellFormed pairs) :
    Options.ofWords (spell pairs) = .ok (.ofValues (last? pairs)) := by
  have := ofWords_spell wellFormed []
  rwa [List.append_nil] at this

/-- A command line is read if it is made of options that take their values. -/
theorem ofWords_eq_ok_iff {words : List String} {o : Options} : Options.ofWords words = .ok o ↔
    ∃ pairs, words = spell pairs ∧ WellFormed pairs ∧ o = .ofValues (last? pairs) := by
  constructor
  · intro read
    obtain ⟨pairs, wellFormed, rfl | ⟨rest, stop, rfl, halts⟩⟩ := exists_spell words
    · rw [ofWords_of_wellFormed wellFormed] at read
      cases read
      exact ⟨pairs, rfl, wellFormed, rfl⟩
    · rw [ofWords_spell wellFormed, halts.read] at read
      cases read
  · rintro ⟨pairs, rfl, wellFormed, rfl⟩
    exact ofWords_of_wellFormed wellFormed

/-- It stops at the first word that does not go on so. -/
theorem ofWords_eq_error_iff {words : List String} {stop : Stop} :
    Options.ofWords words = .error stop ↔
      ∃ pairs rest, words = spell pairs ++ rest ∧ WellFormed pairs ∧ Halts stop rest := by
  constructor
  · intro read
    obtain ⟨pairs, wellFormed, rfl | ⟨rest, stop, rfl, halts⟩⟩ := exists_spell words
    · rw [ofWords_of_wellFormed wellFormed] at read
      cases read
    · rw [ofWords_spell wellFormed, halts.read] at read
      cases read
      exact ⟨pairs, rest, rfl, wellFormed, halts⟩
  · rintro ⟨pairs, rest, rfl, wellFormed, halts⟩
    rw [ofWords_spell wellFormed, halts.read]

end UnitDispatch.CommandLine
