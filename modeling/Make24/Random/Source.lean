import Make24.Deal
import Make24.Random.ChaCha

namespace Make24.Random
open Log

/-- A digit from the words of a stream at `index` and behind, and the index behind the words it
took. The digit is one more than the integer part of 9 times the fraction that two words make. The
second is taken only when it can matter to that integer part. -/
def drawDigit (words : Nat → UInt32) (index : Nat) : Nat × Nat :=
  let product := (words index).toNat * 9
  let whole := product / UInt32.size
  let fraction := product % UInt32.size
  if fraction ≤ UInt32.size - 9 then
    (1 + whole, index + 1)
  else
    let tail := (words (index + 1)).toNat * 9 / UInt32.size
    (1 + whole + (fraction + tail) / UInt32.size, index + 2)

/-- A stream of random digits: the words of a key, of which the first `taken` are used up. -/
structure Source where
  key : Key
  taken : Nat

namespace Source

def seeded (seed : UInt64) : Logged Source := do
  log (.seeded seed.toNat)
  return ⟨.ofSeed seed, 0⟩

def draw (source : Source) : Nat × Source :=
  let (digit, taken) := drawDigit (word source.key) source.taken
  (digit, { source with taken })

/-- So many digits, drawn one after the other. -/
def drawn (source : Source) : (n : Nat) → Vector Nat n × Source
  | 0 => (#v[], source)
  | n + 1 =>
    let (digits, source) := source.drawn n
    let (digit, source) := source.draw
    (digits.push digit, source)

def deal (source : Source) : Deal × Source :=
  source.drawn dealSize

end Source

end Make24.Random
