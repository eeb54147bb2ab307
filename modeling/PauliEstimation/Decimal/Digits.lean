namespace PauliEstimation.Decimal

def zeros (n : Nat) : String := String.ofList (List.replicate n '0')

def padLeft (width : Nat) (s : String) : String :=
  String.ofList (List.replicate (width - s.length) ' ') ++ s

def padRight (width : Nat) (s : String) : String :=
  s ++ String.ofList (List.replicate (width - s.length) ' ')

/-- The digits of a natural, written with a point before the last `places` of them. -/
def withPoint (places n : Nat) : String :=
  if places = 0 then toString n
  else
    let digits := toString n
    let digits := zeros (places + 1 - digits.length) ++ digits
    let chars := digits.toList
    let whole := chars.length - places
    String.ofList (chars.take whole) ++ "." ++ String.ofList (chars.drop whole)

/-- `digits * 10 ^ exponent`, without exponent notation and without a point on whole numbers. -/
def positional (digits : Nat) (exponent : Int) : String :=
  if 0 ≤ exponent then toString digits ++ zeros exponent.toNat
  else withPoint (-exponent).toNat digits

def signed (negative : Bool) (magnitude : String) : String :=
  if negative then "-" ++ magnitude else magnitude

end PauliEstimation.Decimal
