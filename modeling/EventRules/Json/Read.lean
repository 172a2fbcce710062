import EventRules.Json.Basic
import EventRules.Number.FloatRead

/-!
Reading JSON texts. A reader takes the characters it needs and gives what is left; there is one way
to fail, and no text is attached to it.
-/

namespace EventRules.Json
set_option autoImplicit false

open Number

/-- A reader of the characters at the head of a text. -/
abbrev Reader (α : Type) : Type := List Char → Option (α × List Char)

def isBlank (c : Char) : Bool := c == ' ' || c == '\n' || c == '\t' || c == '\r'

def skipBlanks (cs : List Char) : List Char := cs.dropWhile isBlank

/-! ## Numbers -/

/-- The digits that still fit an unsigned 64-bit number behind `significand`: the number with them,
how many they are, and the rest. -/
def fittingDigits (significand count : Nat) : List Char → Nat × Nat × List Char
  | [] => (significand, count, [])
  | c :: cs =>
    if c.isDigit ∧ 10 * significand + digitValue c < Nat.pow 2 64 then
      fittingDigits (10 * significand + digitValue c) (count + 1) cs
    else (significand, count, c :: cs)

def powerOfTen (k : Nat) : Float := Float.ofScientific 1 false k

/-- `x / 10 ^ k` in steps of at most 308 powers. -/
def divideByTens (x : Float) (k : Nat) : Float :=
  if k ≤ 308 then x / powerOfTen k
  else if x == 0 then x
  else divideByTens (x / powerOfTen 308) (k - 308)
termination_by k

/-- The product of a float and a power of ten, if it is not too large for a float. -/
def scaleByTens? (x : Float) (e : Int) : Option Float :=
  if e < 0 then some (divideByTens x e.natAbs)
  else if 308 < e then if x == 0 then some x else none
  else
    let y := x * powerOfTen e.natAbs
    if y.isInf then none else some y

/-- The exponent at the head of a text, zero if there is none. -/
def readExponent : Reader Int
  | c :: cs =>
    if c = 'e' ∨ c = 'E' then
      let (negative, cs) := takeSign cs
      let ds := cs.takeWhile Char.isDigit
      if ds.isEmpty then none
      else some (if negative then -(ofDigits ds : Int) else ofDigits ds, cs.dropWhile Char.isDigit)
    else some (0, c :: cs)
  | [] => some (0, [])

/-- A number without sign: its digits as far as they fit, and behind them, if it is not whole or too
long, the power of ten to multiply by. Digits that do not fit count as zeros. -/
def readUnsigned : Reader (Nat × Option Int) := fun cs => do
  let (significand, count, rest) := fittingDigits 0 0 cs
  if count = 0 then none
  if cs.head? = some '0' ∧ 1 < count then none
  let long := rest.takeWhile Char.isDigit
  let rest := rest.dropWhile Char.isDigit
  match rest with
  | '.' :: places =>
    let (significand, count, rest) := fittingDigits significand 0 places
    if count = 0 ∧ !rest.head?.any Char.isDigit then none
    let (e, rest) ← readExponent (rest.dropWhile Char.isDigit)
    return ((significand, some (long.length - count + e)), rest)
  | rest =>
    let (e, behind) ← readExponent rest
    if long.isEmpty ∧ behind.length = rest.length then return ((significand, none), behind)
    return ((significand, some (long.length + e)), behind)

/-- A number: an integer if it is written as one and fits 64 bits, otherwise a float. A negative zero
is a float. -/
def readNumber : Reader Json := fun cs => do
  let (negative, cs) : Bool × List Char := match cs with
    | '-' :: cs => (true, cs)
    | cs => (false, cs)
  let ((significand, exponent), rest) ← readUnsigned cs
  match exponent with
  | some e =>
    let x ← scaleByTens? (Float.ofNat significand) e
    return (.float (if negative then -x else x), rest)
  | none =>
    if !negative then return (.integer significand, rest)
    if significand = 0 ∨ Nat.pow 2 63 < significand then return (.float (-(Float.ofNat significand)), rest)
    return (.integer (-(significand : Int)), rest)

/-! ## Texts -/

def hexValue? (c : Char) : Option Nat :=
  if c.isDigit then some (digitValue c)
  else if 'a' ≤ c ∧ c ≤ 'f' then some (c.toNat - 'a'.toNat + 10)
  else if 'A' ≤ c ∧ c ≤ 'F' then some (c.toNat - 'A'.toNat + 10)
  else none

/-- Four hexadecimal digits. -/
def readUnit : Reader Nat
  | a :: b :: c :: d :: cs => do
    let a ← hexValue? a
    let b ← hexValue? b
    let c ← hexValue? c
    let d ← hexValue? d
    return (4096 * a + 256 * b + 16 * c + d, cs)
  | _ => none

/-- The character of one unit, or of two that form a pair. -/
def readCodePoint : Reader Char := fun cs => do
  let (n, rest) ← readUnit cs
  if 0xDC00 ≤ n ∧ n ≤ 0xDFFF then none
  if n < 0xD800 ∨ 0xDFFF < n then return (Char.ofNat n, rest)
  match rest with
  | '\\' :: 'u' :: cs =>
    let (low, rest) ← readUnit cs
    if low < 0xDC00 ∨ 0xDFFF < low then none
    return (Char.ofNat (0x10000 + 0x400 * (n - 0xD800) + (low - 0xDC00)), rest)
  | _ => none

def unescape? : Char → Option Char
  | '"' => some '"'
  | '\\' => some '\\'
  | '/' => some '/'
  | 'b' => some '\x08'
  | 'f' => some '\x0c'
  | 'n' => some '\n'
  | 'r' => some '\r'
  | 't' => some '\t'
  | _ => none

/-- One character of a quoted text, as it is or escaped. -/
def readChar : Reader Char
  | '\\' :: 'u' :: cs => readCodePoint cs
  | '\\' :: e :: cs => (unescape? e).map fun c => (c, cs)
  | c :: cs => if c.toNat < 32 ∨ c = '\\' then none else some (c, cs)
  | [] => none

/-- The characters up to the closing quote, `n` at most. -/
def readQuoted : (n : Nat) → Reader (List Char)
  | _, '"' :: cs => some ([], cs)
  | 0, _ => none
  | n + 1, cs => do
    let (c, rest) ← readChar cs
    let (others, rest) ← readQuoted n rest
    return (c :: others, rest)

def readText : Reader String
  | '"' :: cs => (readQuoted cs.length cs).map fun (content, rest) => (String.ofList content, rest)
  | _ => none

/-! ## Values -/

/-- Items separated by commas up to the closing bracket, one at least and `n` at most. -/
def readItems {α : Type} (item : Reader α) (close : Char) : (n : Nat) → Reader (List α)
  | 0 => fun _ => none
  | n + 1 => fun cs => do
    let (first, rest) ← item (skipBlanks cs)
    match skipBlanks rest with
    | c :: rest =>
      if c = close then return ([first], rest)
      if c ≠ ',' then none
      let (others, rest) ← readItems item close n rest
      return (first :: others, rest)
    | [] => none

/-- Items between brackets, of which the opening one is passed already. -/
def readList {α : Type} (item : Reader α) (close : Char) : Reader (List α) := fun cs =>
  match skipBlanks cs with
  | [] => none
  | c :: rest => if c = close then some ([], rest) else readItems item close cs.length (c :: rest)

def readMember (value : Reader Json) : Reader (String × Json) := fun cs => do
  let (key, rest) ← readText cs
  match skipBlanks rest with
  | ':' :: rest =>
    let (j, rest) ← value (skipBlanks rest)
    return ((key, j), rest)
  | _ => none

def readWord (word : String) (value : Json) : Reader Json := fun cs =>
  if word.toList.isPrefixOf cs then some (value, cs.drop word.length) else none

/-- A value inside which arrays and objects nest at most `depth` deep. -/
def readValue (depth : Nat) : Reader Json := fun cs =>
  match cs with
  | '"' :: _ => (readText cs).map fun (s, rest) => (.text s, rest)
  | 'n' :: _ => readWord "null" .null cs
  | 't' :: _ => readWord "true" (.boolean true) cs
  | 'f' :: _ => readWord "false" (.boolean false) cs
  | '[' :: rest =>
    match depth with
    | 0 => none
    | depth + 1 => (readList (readValue depth) ']' rest).map fun (js, rest) => (.array js, rest)
  | '\x7b' :: rest =>
    match depth with
    | 0 => none
    | depth + 1 =>
      (readList (readMember (readValue depth)) '\x7d' rest).map fun (ms, rest) => (ofMembers ms, rest)
  | _ => readNumber cs

/-- How deep arrays and objects may nest. -/
def maxDepth : Nat := 127

/-- The value that a whole text spells, blanks around it set aside. -/
def read? (s : List Char) : Option Json := do
  let (j, rest) ← readValue maxDepth (skipBlanks s)
  if (skipBlanks rest).isEmpty then return j else none

end EventRules.Json
