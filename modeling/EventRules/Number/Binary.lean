/-!
Finite floats as exact binary fractions, and what is read off them exactly: the whole part, whether
there is a fraction, and rounding to a whole number.
-/

namespace EventRules.Number
set_option autoImplicit false

/-- The number ± mantissa · 2 ^ exponent. -/
structure Binary where
  negative : Bool
  mantissa : Nat
  exponent : Int
deriving DecidableEq, Repr

namespace Binary

/-- The exact value of a float; there is none for an infinity or for what is not a number. -/
def ofFloat? (x : Float) : Option Binary :=
  let bits := x.toBits.toNat
  let field : Nat := bits / Nat.pow 2 52 % Nat.pow 2 11
  let fraction : Nat := bits % Nat.pow 2 52
  let negative := bits / Nat.pow 2 63 == 1
  if field = Nat.pow 2 11 - 1 then none
  else if field = 0 then some ⟨negative, fraction, -1074⟩
  else some ⟨negative, Nat.pow 2 52 + fraction, (field : Int) - 1075⟩

/-- The mantissa of a value below which the next float is half as far away as the next one above. -/
def isNarrowBelow (b : Binary) : Bool := b.mantissa == Nat.pow 2 52 && b.exponent > -1074

/-- Numerator and denominator of the absolute value. -/
def ratio (b : Binary) : Nat × Nat :=
  (b.mantissa * Nat.pow 2 b.exponent.toNat, Nat.pow 2 (-b.exponent).toNat)

def signed (b : Binary) (n : Nat) : Int := if b.negative then -(n : Int) else n

/-- The whole part, toward zero. -/
def truncate (b : Binary) : Int := b.signed (b.ratio.1 / b.ratio.2)

def isWhole (b : Binary) : Bool := b.ratio.1 % b.ratio.2 == 0

/-- The nearest whole number, a half going away from zero. -/
def round (b : Binary) : Int := b.signed ((2 * b.ratio.1 + b.ratio.2) / (2 * b.ratio.2))

end Binary

/-- Rounding of a float to a whole one, a half going away from zero. -/
def roundFloat (x : Float) : Float :=
  match Binary.ofFloat? x with
  | none => x
  | some b => if b.isWhole then x else Float.ofInt b.round

end EventRules.Number
