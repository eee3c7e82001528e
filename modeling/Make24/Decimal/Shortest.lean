import Make24.Decimal.Basin

namespace Make24.Decimal

/-- The number `coefficient * 10 ^ exponent`. -/
structure Scaled where
  coefficient : Nat
  exponent : Int
  deriving DecidableEq, Repr

/-- The last multiple of `10 ^ e` that does not exceed the value, in units of `10 ^ e`. -/
def Basin.floor (b : Basin) (e : Int) : Nat :=
  (b.value / (10 : Rat) ^ e).floor.toNat

/-- The multiple of `10 ^ e` in the basin that is nearest to the value. A tie goes up. -/
def Basin.nearest? (b : Basin) (e : Int) : Option Nat :=
  let step := (10 : Rat) ^ e
  let n := b.floor e
  let below := n * step
  let above := (n + 1 : Nat) * step
  match b.contains below, b.contains above with
  | true, true => some (if b.value - below < above - b.value then n else n + 1)
  | true, false => some n
  | false, true => some (n + 1)
  | false, false => none

/-- The coarsest of the grids `10 ^ e, 10 ^ (e - 1), …` that has a point in the basin. -/
def Basin.coarsest (b : Basin) (e : Int) : Nat → Scaled
  | 0 => ⟨b.floor e, e⟩
  | steps + 1 =>
    match b.nearest? e with
    | some n => ⟨n, e⟩
    | none => b.coarsest (e - 1) steps

/-- The decimal of fewest digits that reads back as the float, and of those the nearest to it.
No coarser grid than the first has a point below the high end, and the last, `10 ^ (-324)`, is
finer than the distance of any two floats. -/
def Basin.shortest (b : Basin) : Scaled :=
  let top := (Nat.toDigits 10 b.high.floor.toNat).length
  b.coarsest top (top + 325)

end Make24.Decimal
