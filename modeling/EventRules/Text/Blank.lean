import EventRules.Text.CodeRange

/-!
Blank characters, the Unicode property White_Space: what separates tokens and what is trimmed
from texts.
-/

namespace EventRules.Text
set_option autoImplicit false

def blankRanges : List CodeRange :=
  [(0x9, 0xd), (0x20, 0x20), (0x85, 0x85), (0xa0, 0xa0), (0x1680, 0x1680), (0x2000, 0x200a),
   (0x2028, 0x2029), (0x202f, 0x202f), (0x205f, 0x205f), (0x3000, 0x3000)]

def isBlank (c : Char) : Bool := inRanges blankRanges c

/-- A text without the blanks at its two ends. -/
def trim (s : List Char) : List Char :=
  ((s.dropWhile isBlank).reverse.dropWhile isBlank).reverse

theorem trim_eq_self_of_ends {s : List Char} (hf : ∀ c ∈ s.head?, isBlank c = false)
    (hl : ∀ c ∈ s.getLast?, isBlank c = false) : trim s = s := by
  have h : ∀ t : List Char, (∀ c ∈ t.head?, isBlank c = false) → t.dropWhile isBlank = t := by
    intro t ht
    cases t with
    | nil => rfl
    | cons c cs => simp [List.dropWhile, ht c (by simp)]
  rw [trim, h s hf, h s.reverse (by simpa [List.head?_reverse] using hl), List.reverse_reverse]

end EventRules.Text
