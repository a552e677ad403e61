/-!
Lines of a text. A line ends at a line feed, or at a carriage return and a line feed; the last line
may end with the text. A carriage return that no line feed follows is part of its line. -/

namespace Reckoner.Text

/-- Drops the carriage return that stands last, given the characters in reverse. -/
def dropReturn : List Char → List Char
  | '\r' :: cs => cs
  | cs => cs

/-- The lines of `cs`, when the current line holds `current` (in reverse) in front of them. -/
def linesFrom : List Char → List Char → List (List Char)
  | [], [] => []
  | current, [] => [current.reverse]
  | current, c :: cs =>
    if c = '\n' then (dropReturn current).reverse :: linesFrom [] cs
    else linesFrom (c :: current) cs

/-- The lines of a text without their ends. -/
def lines (s : String) : List String := (linesFrom [] s.toList).map String.ofList

end Reckoner.Text
