import EventRules.Number.Binary
import EventRules.Number.Digits

/-!
The shortest decimal that reads back as a given float.

A float stands for an interval of reals, those that round to it. Grids of decimals are tried from
the coarsest on, and on each grid the two neighbours of the exact value: the first grid with a
neighbour inside the interval decides, and of two such neighbours the nearer one.
-/

namespace EventRules.Number
set_option autoImplicit false

/-- The number significand · 10 ^ exponent. -/
structure Scientific where
  significand : Nat
  exponent : Int
deriving DecidableEq, Repr

/-- Which of two equally near neighbours is taken. -/
inductive Tie where
  | upper
  | even
deriving DecidableEq, Repr

/-- A value and the ends of the interval it stands for, in one common unit; the ends belong to the
interval if `closed`. -/
structure Interval where
  lower : Nat
  value : Nat
  upper : Nat
  closed : Bool

namespace Interval

def contains (s : Interval) (n : Nat) : Bool :=
  if s.closed then s.lower ≤ n && n ≤ s.upper else s.lower < n && n < s.upper

/-- The neighbour of the value, on the grid of multiples of `unit`, that lies in the interval. -/
def neighbour? (s : Interval) (tie : Tie) (unit : Nat) : Option Nat :=
  let below := s.value / unit
  let above := below + 1
  match s.contains (below * unit), s.contains (above * unit) with
  | true, false => some below
  | false, true => some above
  | false, false => none
  | true, true =>
    match compare (2 * s.value) ((below + above) * unit), tie with
    | .lt, _ => some below
    | .gt, _ => some above
    | .eq, .upper => some above
    | .eq, .even => some (if below % 2 = 0 then below else above)

/-- The first hit on the grids 10 ^ k, 10 ^ (k - 1), …, 1. On the last one the value itself is. -/
def search (s : Interval) (tie : Tie) : Nat → Scientific
  | 0 => ⟨(s.neighbour? tie 1).getD s.value, 0⟩
  | k + 1 =>
    match s.neighbour? tie (Nat.pow 10 (k + 1)) with
    | some n => ⟨n, (k + 1 : Nat)⟩
    | none => search s tie k

end Interval

/-- The interval of a float in units of a power of ten, and the exponent of that power. -/
def Binary.interval (b : Binary) : Interval × Int :=
  let e := b.exponent - 2
  let scale (n : Nat) : Nat := if 0 ≤ e then n * Nat.pow 2 e.toNat else n * Nat.pow 5 (-e).toNat
  let gap := if b.isNarrowBelow then 1 else 2
  (⟨scale (4 * b.mantissa - gap), scale (4 * b.mantissa), scale (4 * b.mantissa + 2),
    b.mantissa % 2 == 0⟩, if 0 ≤ e then 0 else e)

def Scientific.stripZeros (fuel : Nat) (d : Scientific) : Scientific :=
  match fuel with
  | 0 => d
  | fuel + 1 =>
    if d.significand ≠ 0 ∧ d.significand % 10 = 0 then
      stripZeros fuel ⟨d.significand / 10, d.exponent + 1⟩
    else d

/-- The absolute value in the fewest digits that read back, and of those the nearest. -/
def Binary.shortest (b : Binary) (tie : Tie) : Scientific :=
  if b.mantissa = 0 then ⟨0, 0⟩
  else
    let (s, e) := b.interval
    let d := s.search tie ((digits s.value).length - 1)
    Scientific.stripZeros (digits d.significand).length ⟨d.significand, d.exponent + e⟩

end EventRules.Number
