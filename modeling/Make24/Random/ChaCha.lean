import Make24.Random.Key

namespace Make24.Random

abbrev Block := Vector UInt32 16

def rotateLeft (x n : UInt32) : UInt32 :=
  (x <<< n) ||| (x >>> (32 - n))

def quarterRound (s : Block) (i j k l : Fin 16) : Block :=
  let a := s[i]
  let b := s[j]
  let c := s[k]
  let d := s[l]
  let a := a + b
  let d := rotateLeft (d ^^^ a) 16
  let c := c + d
  let b := rotateLeft (b ^^^ c) 12
  let a := a + b
  let d := rotateLeft (d ^^^ a) 8
  let c := c + d
  let b := rotateLeft (b ^^^ c) 7
  (((s.set i a).set j b).set k c).set l d

/-- Mixes the four columns, then the four diagonals. -/
def doubleRound (s : Block) : Block :=
  let s := quarterRound s 0 4 8 12
  let s := quarterRound s 1 5 9 13
  let s := quarterRound s 2 6 10 14
  let s := quarterRound s 3 7 11 15
  let s := quarterRound s 0 5 10 15
  let s := quarterRound s 1 6 11 12
  let s := quarterRound s 2 7 8 13
  quarterRound s 3 4 9 14

def doubleRounds (s : Block) : Nat → Block
  | 0 => s
  | n + 1 => doubleRounds (doubleRound s) n

def constants : Vector UInt32 4 :=
  #v[0x61707865, 0x3320646e, 0x79622d32, 0x6b206574]

/-- The counter of 64 bits with its low half first, and two zeros. -/
def place (counter : UInt64) : Vector UInt32 4 :=
  #v[counter.toUInt32, (counter >>> 32).toUInt32, 0, 0]

/-- One block of ChaCha with twelve rounds. -/
def block (key : Key) (counter : UInt64) : Block :=
  let start : Block := constants ++ key ++ place counter
  (doubleRounds start 6).zipWith (· + ·) start

/-- The stream of all blocks, word by word. -/
def word (key : Key) (index : Nat) : UInt32 :=
  (block key (UInt64.ofNat (index / 16))).get (Fin.ofNat 16 index)

end Make24.Random
