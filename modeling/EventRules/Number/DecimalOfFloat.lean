import EventRules.Number.Decimal

/-!
The decimal that a float stands for.

The binary value m · 2 ^ e equals m · 5 ^ (-e) · 10 ^ e. The power of five is worked off one factor at
a time, with a mantissa that stays below 2 ^ 96; then the power of ten becomes the scale: places beyond
the 28th are dropped, the mantissa is cut to the precision of a float, and zeros at its end go.
-/

namespace EventRules.Number
set_option autoImplicit false

namespace Decimal

/-- The number mantissa · 10 ^ ten, up to a power of five that is still to be worked off. -/
structure Scaling where
  mantissa : Nat
  ten : Int
deriving DecidableEq, Repr

namespace Scaling

/-- Works off factors 5: an even mantissa gives one factor 2 to the power of ten; an odd one takes the
factor, or loses its last bit if there is no room. -/
def timesFive (s : Scaling) : (factors : Nat) → Scaling
  | 0 => s
  | factors + 1 =>
    if s.mantissa % 2 = 0 then timesFive ⟨s.mantissa / 2, s.ten + 1⟩ factors
    else if 5 * s.mantissa < Nat.pow 2 96 then timesFive ⟨5 * s.mantissa, s.ten⟩ factors
    else timesFive ⟨s.mantissa / 2, s.ten + 1⟩ factors

/-- Works off factors 1 / 5: the mantissa takes factors 2 from the power of ten while there is room,
and is divided after that. There is no result if the power of ten would stay too large. -/
def overFive? (s : Scaling) : (factors : Nat) → Option Scaling
  | 0 => some s
  | factors + 1 =>
    if s.mantissa < Nat.pow 2 95 then overFive? ⟨2 * s.mantissa, s.ten - 1⟩ factors
    else if 2 * s.ten > factors + 1 then none
    else overFive? ⟨s.mantissa / 5, s.ten⟩ factors

/-- Multiplies a positive power of ten into the mantissa, if it fits. -/
def expand? (mantissa : Nat) : (tens : Nat) → Option Nat
  | 0 => some mantissa
  | tens + 1 => if 10 * mantissa < Nat.pow 2 96 then expand? (10 * mantissa) tens else none

/-- Drops one place; the last digit kept is rounded up from a five on. -/
def dropPlace (mantissa : Nat) : Nat :=
  if mantissa % 10 ≥ 5 then mantissa / 10 + 1 else mantissa / 10

/-- Drops the places beyond the 28th. A mantissa that is used up has no places left. -/
def dropBeyond (mantissa : Nat) : (extra : Nat) → Nat × Nat
  | 0 => (mantissa, 28)
  | extra + 1 => if mantissa / 10 = 0 then (0, 0) else dropBeyond (dropPlace mantissa) extra

/-- Drops places while the mantissa has more bits than the fraction of a float. -/
def dropImprecise (mantissa : Nat) : (scale : Nat) → Nat × Nat
  | 0 => (mantissa, 0)
  | scale + 1 =>
    if mantissa ≥ Nat.pow 2 52 then dropImprecise (dropPlace mantissa) scale else (mantissa, scale + 1)

end Scaling

open Scaling in
/-- The decimal of a binary value without its sign: coefficient and scale. -/
def ofMagnitude? (mantissa : Nat) (exponent : Int) : Option (Int × Nat) := do
  let start : Scaling := ⟨mantissa, exponent⟩
  let s ← if exponent < 0 then some (start.timesFive (-exponent).toNat)
    else start.overFive? exponent.toNat
  if s.ten ≥ 0 then
    let m ← expand? s.mantissa s.ten.toNat
    return (m, 0)
  let places := (-s.ten).toNat
  let (m, scale) := if places > 28 then dropBeyond s.mantissa (places - 28) else (s.mantissa, places)
  let (m, scale) := dropImprecise m scale
  return stripZeros m scale

def ofFloat? (x : Float) : Option Decimal := do
  let b ← Binary.ofFloat? x
  if b.mantissa = 0 then return zero
  let (c, scale) ← ofMagnitude? b.mantissa b.exponent
  make? (if b.negative then -c else c) scale

end Decimal

end EventRules.Number
