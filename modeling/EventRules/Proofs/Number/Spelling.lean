import EventRules.Number.FloatRead
import EventRules.Proofs.Rule.Numerals

/-!
# Floats from the text of an integer

An integer in decimal is read as the float of that integer: it has neither point nor exponent, is no name
of an infinity, and nothing of it is trimmed.
-/

namespace EventRules
set_option autoImplicit false

open Number Text Lexer

/-! ### Digits -/

theorem toLower_digit {c : Char} (h : c.isDigit = true) : c.toLower = c := by
  have hrange : 48 ≤ c.toNat ∧ c.toNat ≤ 57 := by
    simpa [Char.isDigit, UInt32.le_iff_toNat_le] using h
  unfold Char.toLower
  rw [dif_neg]
  rintro ⟨hupper, -⟩
  rw [ge_iff_le, UInt32.le_iff_toNat_le] at hupper
  change 65 ≤ c.toNat at hupper
  omega

theorem readDecimal_digits {ds : List Char} (hne : ds ≠ []) (h : ∀ c ∈ ds, c.isDigit = true) :
    readDecimal? ds = some (ofDigits ds, 0) := by
  have htake : ds.takeWhile Char.isDigit = ds := List.takeWhile_eq_self_iff.mpr h
  have hdrop : ds.dropWhile Char.isDigit = [] := List.dropWhile_eq_nil_iff.mpr h
  simp [readDecimal?, htake, hdrop, hne, readExponent?]

theorem unnamed_digits {d : Char} {ds : List Char} {name : String} (hd : d.isDigit = true)
    (hname : name.toList.head?.any Char.isDigit = false) :
    String.ofList ((d :: ds).map Char.toLower) ≠ name := by
  rintro rfl
  rw [String.toList_ofList, List.map_cons, List.head?_cons, toLower_digit hd, Option.any_some, hd] at hname
  cases hname

theorem readFloat_digits {s ds : List Char} {negative : Bool} (hsign : takeSign s = (negative, ds))
    (hne : ds ≠ []) (h : ∀ c ∈ ds, c.isDigit = true) :
    readFloat? s = some (if negative then -Float.ofNat (ofDigits ds) else Float.ofNat (ofDigits ds)) := by
  obtain ⟨d, ds, rfl⟩ := List.exists_cons_of_ne_nil hne
  have hd : d.isDigit = true := h d List.mem_cons_self
  unfold readFloat?
  rw [hsign]
  dsimp only
  split
  · next hname => exact absurd hname (unnamed_digits hd (by decide))
  · next hname => exact absurd hname (unnamed_digits hd (by decide))
  · next hname => exact absurd hname (unnamed_digits hd (by decide))
  · rw [readDecimal_digits hne h]
    rfl

/-! ### Integers -/

theorem takeSign_digits (n : Nat) : takeSign (Nat.toDigits 10 n) = (false, Nat.toDigits 10 n) := by
  obtain ⟨d, ds, hds, hd⟩ := digits_cons n
  rw [hds]
  unfold takeSign
  split
  · next heq =>
    cases heq
    cases hd
  · next heq =>
    cases heq
    cases hd
  · rfl

theorem readFloat_numeral (n : Int) : readFloat? (numeral n) = some (Float.ofInt n) := by
  cases n with
  | ofNat k =>
    have hread := readFloat_digits (takeSign_digits k) Nat.toDigits_ne_nil (digits_are_digits k)
    rw [ofDigits_digits] at hread
    exact numeral_of_nat k ▸ hread
  | negSucc k =>
    have hread := readFloat_digits (s := '-' :: Nat.toDigits 10 (k + 1)) rfl Nat.toDigits_ne_nil
      (digits_are_digits (k + 1))
    rw [ofDigits_digits] at hread
    rw [numeral_of_negative, hread]
    rfl

/-! ### Blanks -/

theorem numeral_not_blank (n : Int) : ∀ c ∈ numeral n, isBlank c = false := by
  intro c hc
  cases n with
  | ofNat k =>
    change c ∈ numeral (k : Int) at hc
    rw [numeral_of_nat] at hc
    exact (StartsPlain.digit (digits_are_digits k c hc)).not_blank
  | negSucc k =>
    rw [numeral_of_negative] at hc
    rcases List.mem_cons.mp hc with rfl | hc
    · decide
    · exact (StartsPlain.digit (digits_are_digits (k + 1) c hc)).not_blank

theorem trim_numeral (n : Int) : trim (numeral n) = numeral n :=
  trim_eq_self_of_ends (fun c hc => numeral_not_blank n c (List.mem_of_mem_head? hc))
    (fun c hc => numeral_not_blank n c (List.mem_of_getLast? hc))

end EventRules
