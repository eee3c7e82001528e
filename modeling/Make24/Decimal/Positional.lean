import Make24.Decimal.Shortest

namespace Make24.Decimal

/-- Digits around a decimal point, without an exponent and without a fraction of zeros. -/
def Scaled.digits (d : Scaled) : List Char :=
  let written := Nat.toDigits 10 d.coefficient
  if 0 ≤ d.exponent then
    written ++ List.replicate d.exponent.toNat '0'
  else
    let places := (-d.exponent).toNat
    let padded := List.replicate (places + 1 - written.length) '0' ++ written
    padded.take (padded.length - places) ++ '.' :: padded.drop (padded.length - places)

def Reading.text : Reading → String
  | .nan => "NaN"
  | .infinite negative => signed negative "inf"
  | .zero negative => signed negative "0"
  | .finite negative basin => signed negative (String.ofList basin.shortest.digits)
where
  signed (negative : Bool) (magnitude : String) : String :=
    if negative then "-" ++ magnitude else magnitude

/-- A float as players see it: the shortest digits that read back, never with an exponent. -/
def text (x : Float) : String :=
  (Reading.ofBits x.toBits.toNat).text

end Make24.Decimal
