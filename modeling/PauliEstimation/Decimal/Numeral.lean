/-!
Reading decimal numerals. A word is an optional plus and digits, below `2 ^ 64`. A number is a sign,
digits with an optional point, and an optional exponent, or a name of infinity or of the undefined
number in any case of letters.
-/

namespace PauliEstimation.Decimal

def digitValue (c : Char) : Nat := c.toNat - '0'.toNat

def ofDigits (cs : List Char) : Nat := cs.foldl (fun n c => 10 * n + digitValue c) 0

def readDigits? (cs : List Char) : Option Nat :=
  if cs ≠ [] ∧ cs.all Char.isDigit then some (ofDigits cs) else none

/-- The number of words of 64 bits. -/
def wordCount : Nat := 18446744073709551616

def readWord? (s : String) : Option Nat :=
  let digits := match s.toList with
    | '+' :: rest => rest
    | cs => cs
  (readDigits? digits).filter (· < wordCount)

/-- A sign, and what follows it. -/
def readSign : List Char → Bool × List Char
  | '-' :: rest => (true, rest)
  | '+' :: rest => (false, rest)
  | cs => (false, cs)

def readExponent? : List Char → Option Int
  | [] => some 0
  | c :: rest =>
    if c = 'e' ∨ c = 'E' then
      let (negative, digits) := readSign rest
      (readDigits? digits).map fun n => if negative then -(n : Int) else n
    else none

/-- Beyond this many places every float is zero or infinite. -/
def exponentLimit : Int := 400

/-- `digits * 10 ^ exponent`, rounded to the nearest float. -/
def scaled (digits : Nat) (exponent : Int) : Float :=
  let length : Int := (toString digits).length
  if digits = 0 ∨ exponent + length < -exponentLimit then 0.0
  else if exponentLimit < exponent then 1.0 / 0.0
  else Float.ofScientific digits (exponent < 0) exponent.natAbs

def readMagnitude? (cs : List Char) : Option Float :=
  let word := (String.ofList cs).toLower
  if word = "inf" ∨ word = "infinity" then some (1.0 / 0.0)
  else if word = "nan" then some (0.0 / 0.0)
  else
    let whole := cs.takeWhile Char.isDigit
    let rest := cs.dropWhile Char.isDigit
    let (places, rest) := match rest with
      | '.' :: tail => (tail.takeWhile Char.isDigit, tail.dropWhile Char.isDigit)
      | _ => ([], rest)
    if whole = [] ∧ places = [] then none
    else (readExponent? rest).map fun e => scaled (ofDigits (whole ++ places)) (e - places.length)

def readNumber? (s : String) : Option Float :=
  let (negative, rest) := readSign s.toList
  (readMagnitude? rest).map fun x => if negative then -x else x

end PauliEstimation.Decimal
