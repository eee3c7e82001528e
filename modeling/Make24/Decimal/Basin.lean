namespace Make24.Decimal

/-- The reals that round to one positive float, around its own value. The two ends belong to it
together or not at all. -/
structure Basin where
  low : Rat
  value : Rat
  high : Rat
  closed : Bool

def Basin.contains (b : Basin) (x : Rat) : Bool :=
  if b.closed then b.low ≤ x && x ≤ b.high else b.low < x && x < b.high

/-- The float `m * 2 ^ q`. Its neighbour below is half as far away as the one above when `narrow`
holds, and ends of the basin round to it when `m` is even. -/
def Basin.around (m : Nat) (q : Int) (narrow : Bool) : Basin :=
  let quarter : Rat := 2 ^ (q - 2)
  { low := (4 * m - if narrow then 1 else 2) * quarter
    value := 4 * m * quarter
    high := (4 * m + 2) * quarter
    closed := m % 2 == 0 }

/-- What the 64 bits of a float stand for. -/
inductive Reading where
  | nan
  | infinite (negative : Bool)
  | zero (negative : Bool)
  | finite (negative : Bool) (basin : Basin)

/-- Below exponent field 1 the significand has no leading one, and the spacing stays the same. -/
def Reading.ofBits (bits : Nat) : Reading :=
  let negative := bits >>> 63 % 2 == 1
  let exponent : Nat := bits >>> 52 % 0x800
  let fraction : Nat := bits % 0x10000000000000
  if exponent = 2047 then
    if fraction = 0 then .infinite negative else .nan
  else if exponent = 0 then
    if fraction = 0 then .zero negative else .finite negative (.around fraction (-1074) false)
  else
    .finite negative
      (.around (0x10000000000000 + fraction) (exponent - 1075) (fraction == 0 && 1 < exponent))

end Make24.Decimal
