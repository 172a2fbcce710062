import EventRules.Number.Digits

/-!
Reading floats: an optional sign, digits with an optional point among or around them, an optional
exponent; or the names of infinity and of what is not a number, in any case of letters.
-/

namespace EventRules.Number
set_option autoImplicit false

/-- An optional sign; true if it is a minus. -/
def takeSign : List Char → Bool × List Char
  | '-' :: cs => (true, cs)
  | '+' :: cs => (false, cs)
  | cs => (false, cs)

/-- The exponent at the end of a number, zero if nothing is left. -/
def readExponent? : List Char → Option Int
  | [] => some 0
  | c :: cs =>
    if c = 'e' ∨ c = 'E' then
      let (negative, ds) := takeSign cs
      if ds.isEmpty || ds.any (fun d => !d.isDigit) then none
      else some (if negative then -(ofDigits ds : Int) else ofDigits ds)
    else none

/-- A decimal number without sign: its digits as one number and the power of ten to multiply by. -/
def readDecimal? (s : List Char) : Option (Nat × Int) :=
  let whole := s.takeWhile Char.isDigit
  let (fraction, rest) : List Char × List Char :=
    match s.dropWhile Char.isDigit with
    | '.' :: cs => (cs.takeWhile Char.isDigit, cs.dropWhile Char.isDigit)
    | cs => ([], cs)
  if whole.isEmpty && fraction.isEmpty then none
  else (readExponent? rest).map fun e => (ofDigits (whole ++ fraction), e - fraction.length)

/-- The float nearest to `n · 10 ^ e`, infinity where that is beyond the largest. -/
def scaleTen (n : Nat) (e : Int) : Float := Float.ofScientific n (e < 0) e.natAbs

def readFloat? (s : List Char) : Option Float :=
  let (negative, t) := takeSign s
  let signed (x : Float) : Float := if negative then -x else x
  match String.ofList (t.map Char.toLower) with
  | "inf" | "infinity" => some (signed (1 / 0))
  | "nan" => some (signed (0 / 0))
  | _ => (readDecimal? t).map fun (n, e) => signed (scaleTen n e)

end EventRules.Number
