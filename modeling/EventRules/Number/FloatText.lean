import EventRules.Number.Shortest

/-!
Floats as text: the shortest digits, laid out as a style says.
-/

namespace EventRules.Number
set_option autoImplicit false

/-- How the digits of a float are written. The leading digit of a number written positionally stands
for 10 ^ e with `plainFrom ≤ e < plainBelow`; all others are written with an exponent. -/
structure FloatStyle where
  plainFrom : Int
  plainBelow : Int
  /-- a positional whole number ends in `.0` -/
  pointZero : Bool
  /-- a positive exponent has a plus sign -/
  expPlus : Bool
  tie : Tie

namespace FloatStyle

/-- Digits with the point `exponent` places after the last one. -/
def positional (st : FloatStyle) (ds : List Char) (exponent : Int) : List Char :=
  if 0 ≤ exponent then
    ds ++ List.replicate exponent.toNat '0' ++ (if st.pointZero then ['.', '0'] else [])
  else
    let places := (-exponent).toNat
    if places < ds.length then ds.take (ds.length - places) ++ '.' :: ds.drop (ds.length - places)
    else '0' :: '.' :: List.replicate (places - ds.length) '0' ++ ds

/-- One digit before the point and the exponent `e` of that digit. -/
def scientific (st : FloatStyle) (ds : List Char) (e : Int) : List Char :=
  let mantissa := if ds.length ≤ 1 then ds else ds.take 1 ++ '.' :: ds.drop 1
  let sign := if e < 0 then ['-'] else if st.expPlus then ['+'] else []
  mantissa ++ 'e' :: sign ++ digits e.natAbs

/-- The text of a number without its sign. -/
def layout (st : FloatStyle) (d : Scientific) : List Char :=
  let ds := digits d.significand
  let e := d.exponent + ds.length - 1
  if d.significand = 0 ∨ (st.plainFrom ≤ e ∧ e < st.plainBelow) then st.positional ds d.exponent
  else st.scientific ds e

def render (st : FloatStyle) (x : Float) : String :=
  match Binary.ofFloat? x with
  | none => if x.isNaN then "NaN" else if x < 0 then "-inf" else "inf"
  | some b =>
    let unsigned := st.layout (b.shortest st.tie)
    String.ofList (if b.negative then '-' :: unsigned else unsigned)

end FloatStyle

end EventRules.Number
