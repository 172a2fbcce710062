/-!
Cutting a text into lines and joining pieces into a text.
-/

namespace EventRules.Text
set_option autoImplicit false

/-- The lines after a piece `seen` of a line, last character first. A line ends at a newline, and a
carriage return just before it belongs to the ending; what follows the last newline is a line only
if it is not empty. -/
def linesFrom (seen : List Char) : List Char → List (List Char)
  | [] => if seen.isEmpty then [] else [seen.reverse]
  | '\n' :: cs =>
    let ended := match seen with
      | '\r' :: before => before
      | line => line
    ended.reverse :: linesFrom [] cs
  | c :: cs => linesFrom (c :: seen) cs

def lines (s : List Char) : List (List Char) := linesFrom [] s

@[simp] theorem lines_nil : lines [] = [] := rfl

end EventRules.Text
