namespace Make24

/-- How many digits a round is played with. -/
abbrev dealSize : Nat := 4

/-- What a correct answer comes to. -/
def target : Float := 24

/-- How far from the target a value may be that rounding has touched. -/
def tolerance : Float := 1e-9

end Make24
