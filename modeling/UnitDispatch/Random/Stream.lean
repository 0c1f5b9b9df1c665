import UnitDispatch.Random.ChaCha

/-! # Random streams

A stream of words that its seed determines. The seed is spread over a key by a permuted congruential
generator; the words are those of the ChaCha blocks under that key, in twelve rounds, taken in pairs.
-/

namespace UnitDispatch.Random

/-! ## Spreading a seed -/

/-- The next state of the generator that spreads a seed. -/
def seedStep (state : UInt64) : UInt64 := state * 6364136223846793005 + 11634580027462260723

/-- The word a state gives: its high bits, folded and rotated by its topmost. -/
def seedWord (state : UInt64) : UInt32 :=
  let folded := (((state >>> 18) ^^^ state) >>> 27).toUInt32
  let turn := (state >>> 59).toUInt32
  (folded >>> turn) ||| (folded <<< ((32 - turn) % 32))

/-- The key a seed gives. -/
def keyOfSeed (seed : UInt64) : Vector UInt32 8 :=
  Vector.ofFn fun i => seedWord (Nat.repeat seedStep (i.val + 1) seed)

/-! ## The stream -/

/-- What is left of a random stream. -/
structure Stream where
  key : Vector UInt32 8
  /-- The number of the next block. -/
  next : UInt64 := 0
  /-- Words of the last block not yet taken. -/
  rest : List UInt64 := []
  deriving Repr

namespace Stream

def ofSeed (seed : UInt64) : Stream := { key := keyOfSeed seed }

/-- Double words from single ones, the low word first. -/
def pairs : List UInt32 → List UInt64
  | low :: high :: rest => (low.toUInt64 ||| (high.toUInt64 <<< 32)) :: pairs rest
  | _ => []

/-- The double words of a block. -/
def blockWords (key : Vector UInt32 8) (number : UInt64) : List UInt64 :=
  pairs (ChaCha.block 6 key number).toList

/-- Takes a double word. -/
def word (s : Stream) : UInt64 × Stream :=
  match s.rest with
  | w :: rest => (w, { s with rest })
  | [] =>
    match blockWords s.key s.next with
    | w :: rest => (w, { s with next := s.next + 1, rest })
    | [] => (0, s)

/-- Takes a number from zero up to but not including one, in steps of `2 ^ -53`. -/
def fraction (s : Stream) : Float × Stream :=
  let (w, s) := s.word
  ((w >>> 11).toFloat / 9007199254740992.0, s)

end Stream

end UnitDispatch.Random
