namespace Make24.Random

/-- What selects one stream of words among all. -/
abbrev Key := Vector UInt32 8

/-- The state of a linear congruential generator, `n` steps behind the seed. -/
def stateAfter (seed : UInt64) : Nat → UInt64
  | 0 => seed
  | n + 1 => stateAfter seed n * 6364136223846793005 + 11634580027462260723

def rotateRight (x n : UInt32) : UInt32 :=
  (x >>> n) ||| (x <<< (32 - n))

/-- The high bits of the state, rotated by its highest five. -/
def permuted (state : UInt64) : UInt32 :=
  rotateRight (((state >>> 18) ^^^ state) >>> 27).toUInt32 (state >>> 59).toUInt32

/-- A seed spread over a whole key. -/
def Key.ofSeed (seed : UInt64) : Key :=
  Vector.ofFn (fun i => permuted (stateAfter seed (i + 1)))

end Make24.Random
