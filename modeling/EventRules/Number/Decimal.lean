import EventRules.Number.Binary
import EventRules.Number.Digits

/-!
Scaled decimals: a whole coefficient below 2 ^ 96 in size and up to 28 places after the point.
Operations are exact where the result fits; otherwise places are given up, with one rounding of the
exact result, a half going to the even neighbour.
-/

namespace EventRules.Number
set_option autoImplicit false

/-- The number coefficient / 10 ^ scale. -/
structure Decimal where
  coefficient : Int
  scale : Nat
  fits : coefficient.natAbs < Nat.pow 2 96 := by decide
  scale_le : scale ≤ 28 := by decide

/-- `n / d` to the nearest whole number, a half going to the even neighbour. -/
def divHalfEven (n d : Nat) : Nat :=
  let q := n / d
  let r := n % d
  if 2 * r < d then q else if d < 2 * r then q + 1 else if q % 2 = 0 then q else q + 1

theorem divHalfEven_bounds (n d : Nat) :
    n / d ≤ divHalfEven n d ∧ divHalfEven n d ≤ n / d + 1 := by
  unfold divHalfEven
  dsimp only
  split
  · omega
  · split
    · omega
    · split <;> omega

theorem divHalfEven_of_dvd {n d : Nat} (hd : 0 < d) (h : d ∣ n) : divHalfEven n d = n / d := by
  have hrest : n % d = 0 := Nat.mod_eq_zero_of_dvd h
  simp [divHalfEven, hrest, hd]

theorem divHalfEven_scale (n d : Nat) {k : Nat} (hk : 0 < k) :
    divHalfEven (n * k) (d * k) = divHalfEven n d := by
  have hquotient : n * k / (d * k) = n / d := Nat.mul_div_mul_right n d hk
  have hrest : n * k % (d * k) = n % d * k := Nat.mul_mod_mul_right k n d
  have htwice : 2 * (n % d * k) = 2 * (n % d) * k := (Nat.mul_assoc _ _ _).symm
  simp only [divHalfEven, hquotient, hrest, htwice, Nat.mul_lt_mul_right hk]

theorem divHalfEven_near (n : Nat) {d : Nat} (hd : 0 < d) :
    2 * (divHalfEven n d * d) ≤ 2 * n + d ∧ 2 * n ≤ 2 * (divHalfEven n d * d) + d := by
  have hparts : n / d * d + n % d = n := Nat.div_add_mod' n d
  have hrest : n % d < d := Nat.mod_lt n hd
  have hnext : (n / d + 1) * d = n / d * d + d := Nat.succ_mul _ _
  unfold divHalfEven
  dsimp only
  split
  · omega
  · split
    · rw [hnext]
      omega
    · split
      · omega
      · rw [hnext]
        omega

/-- No multiple of the divisor is nearer. -/
theorem divHalfEven_nearest (n : Nat) {d : Nat} (hd : 0 < d) (k : Nat) :
    ((divHalfEven n d * d : Nat) - (n : Int)).natAbs ≤ ((k * d : Nat) - (n : Int)).natAbs := by
  obtain ⟨hbelow, habove⟩ := divHalfEven_near n hd
  rcases Nat.lt_trichotomy k (divHalfEven n d) with hless | rfl | hmore
  · have hapart : k * d + d ≤ divHalfEven n d * d := Nat.succ_mul k d ▸ Nat.mul_le_mul_right d hless
    omega
  · exact Nat.le_refl _
  · have hapart : divHalfEven n d * d + d ≤ k * d := Nat.succ_mul _ d ▸ Nat.mul_le_mul_right d hmore
    omega

namespace Decimal

def make? (coefficient : Int) (scale : Nat) : Option Decimal :=
  if h : coefficient.natAbs < Nat.pow 2 96 ∧ scale ≤ 28 then some ⟨coefficient, scale, h.1, h.2⟩ else none

def zero : Decimal where
  coefficient := 0
  scale := 0

def ofInt64 (n : Int64) : Decimal where
  coefficient := n.toInt
  scale := 0
  fits := by
    have hlo := Int64.le_toInt n
    have hhi := Int64.toInt_lt n
    have hpow : Nat.pow 2 96 = 79228162514264337593543950336 := rfl
    omega

/-- The fraction `num / den` with at most `places` places: as many as fit. -/
def nearest? (num : Int) (den : Nat) (places : Nat) : Option Decimal :=
  let size := divHalfEven (num.natAbs * Nat.pow 10 places) den
  match make? (if num < 0 then -(size : Int) else size) places with
  | some d => some d
  | none =>
    match places with
    | 0 => none
    | places + 1 => nearest? num den places

def isZero (d : Decimal) : Bool := d.coefficient == 0

/-- No fraction is left after the point. -/
def isWhole (d : Decimal) : Bool := d.coefficient.natAbs % Nat.pow 10 d.scale == 0

/-- The whole part, toward zero. -/
def truncate (d : Decimal) : Int := d.coefficient.tdiv (Nat.pow 10 d.scale)

/-- The coefficients of two decimals at their common scale. -/
def aligned (a b : Decimal) : Int × Int × Nat :=
  let s := max a.scale b.scale
  (a.coefficient * Nat.pow 10 (s - a.scale), b.coefficient * Nat.pow 10 (s - b.scale), s)

def neg (d : Decimal) : Decimal where
  coefficient := -d.coefficient
  scale := d.scale
  fits := by rw [Int.natAbs_neg]; exact d.fits
  scale_le := d.scale_le

/-- Adding zero changes nothing, not even the places. -/
def add? (a b : Decimal) : Option Decimal :=
  if a.isZero then some b
  else if b.isZero then some a
  else
    let (x, y, s) := aligned a b
    nearest? (x + y) (Nat.pow 10 s) s

def sub? (a b : Decimal) : Option Decimal := add? a b.neg

def mul? (a b : Decimal) : Option Decimal :=
  nearest? (a.coefficient * b.coefficient) (Nat.pow 10 (a.scale + b.scale)) (min 28 (a.scale + b.scale))

/-- The decimal without zeros at the end of its places. -/
def stripZeros (coefficient : Int) : (scale : Nat) → Int × Nat
  | 0 => (coefficient, 0)
  | scale + 1 =>
    if coefficient % 10 = 0 then stripZeros (coefficient / 10) scale else (coefficient, scale + 1)

/-- A quotient keeps the places of the operands if it is exact in them; otherwise it has as many
as fit, without zeros at the end. There is none if `b` is zero. -/
def div? (a b : Decimal) : Option Decimal :=
  if b.isZero then none
  else
    let num := a.coefficient * Nat.pow 10 b.scale
    let num := if b.coefficient < 0 then -num else num
    let den := b.coefficient.natAbs * Nat.pow 10 a.scale
    let places := a.scale - b.scale
    if num.natAbs * Nat.pow 10 places % den = 0 then nearest? num den places
    else
      (nearest? num den 28).bind fun d =>
        let (c, s) := stripZeros d.coefficient d.scale
        make? c s

/-- Numeric order; places do not matter. -/
def compare (a b : Decimal) : Ordering :=
  let (x, y, _) := aligned a b
  Ord.compare x y

theorem compare_unscaled {a b : Decimal} (ha : a.scale = 0) (hb : b.scale = 0) :
    a.compare b = Ord.compare a.coefficient b.coefficient := by
  have hone : ((Nat.pow 10 0 : Nat) : Int) = 1 := rfl
  simp only [compare, aligned, ha, hb, Nat.max_self, Nat.sub_self, hone, Int.mul_one]

/-- The power 10 ^ n of floats, by squaring. -/
def powTen (n : Nat) : Float :=
  go n 1 10
where
  go (n : Nat) (r a : Float) : Float :=
    let r := if n % 2 = 1 then r * a else r
    if _h : n / 2 = 0 then r else go (n / 2) r (a * a)
  termination_by n
  decreasing_by omega

/-- The float of a decimal: the whole part and the fraction are converted apart, and their sum is
rounded back to the places of the decimal. -/
def toFloat (d : Decimal) : Float :=
  let size := d.coefficient.natAbs
  let signed (x : Float) : Float := if d.coefficient < 0 then -x else x
  let unit := Nat.pow 10 d.scale
  let whole := Float.ofNat (size / unit)
  let fraction := Float.ofNat (size % unit) / Float.ofNat unit
  if fraction == 0 then signed whole
  else
    let p := powTen d.scale
    signed (roundFloat ((whole + fraction) * p) / p)

/-- The decimal in plain notation, without zeros at the end of its places. -/
def toText (d : Decimal) : String :=
  let (c, s) := stripZeros d.coefficient d.scale
  let ds := digits c.natAbs
  let ds := List.replicate (s + 1 - ds.length) '0' ++ ds
  let body := if s = 0 then ds else ds.take (ds.length - s) ++ '.' :: ds.drop (ds.length - s)
  String.ofList (if c < 0 then '-' :: body else body)

/-- A decimal in plain notation, if it has a fitting number of digits. -/
def read? (s : List Char) : Option Decimal :=
  let (negative, t) : Bool × List Char := match s with
    | '-' :: cs => (true, cs)
    | cs => (false, cs)
  let whole := t.takeWhile Char.isDigit
  let fraction? := match t.dropWhile Char.isDigit with
    | [] => some []
    | '.' :: cs => if cs.all Char.isDigit then some cs else none
    | _ => none
  fraction?.bind fun fraction =>
    let n : Int := ofDigits (whole ++ fraction)
    make? (if negative then -n else n) fraction.length

end Decimal

end EventRules.Number
