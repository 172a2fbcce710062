/-!
Decimal digits: of a number, and the number that a run of digits spells.
-/

namespace EventRules.Number
set_option autoImplicit false

def digitValue (c : Char) : Nat := c.toNat - '0'.toNat

/-- The number spelled by a run of digits. -/
def ofDigits (ds : List Char) : Nat := ds.foldl (fun n c => 10 * n + digitValue c) 0

/-- The decimal digits of a number, without leading zeros. -/
def digits (n : Nat) : List Char := Nat.toDigits 10 n

/-- A whole number: an optional sign and at least one digit, nothing else. -/
def readInt? (s : List Char) : Option Int :=
  let unsigned (ds : List Char) : Option Nat :=
    if ds.isEmpty || ds.any (fun c => !c.isDigit) then none else some (ofDigits ds)
  match s with
  | '-' :: ds => (unsigned ds).map fun n => -(n : Int)
  | '+' :: ds => (unsigned ds).map Int.ofNat
  | ds => (unsigned ds).map Int.ofNat

end EventRules.Number
