import Reckoner.Diagnostic

/-!
Diagnostics for a terminal. A report is first laid out as pieces of text, some of which have a
style; painting the pieces then adds the terminal's colour codes, or leaves them out. -/

namespace Reckoner

/-- When to use colours. -/
inductive ColorMode where | auto | always | never
deriving DecidableEq, Repr

/-- Whether colours are used; only the automatic mode asks for a terminal. -/
def ColorMode.enabled (terminal : Bool) : ColorMode → Bool
  | .auto => terminal
  | .always => true
  | .never => false

/-- How a piece of text stands out. -/
inductive Style where | error | bold | secondary
deriving DecidableEq, Repr

/-- The terminal code that turns a style on. -/
def Style.escape : Style → String
  | .error => "\x1b[1;31m"
  | .bold => "\x1b[1m"
  | .secondary => "\x1b[1;34m"

/-- A text in one style. -/
structure Piece where
  style : Option Style
  text : String
deriving DecidableEq, Repr

namespace Piece

/-- A text without a style. -/
def plain (text : String) : Piece := ⟨none, text⟩

/-- A text in a style. -/
def styled (style : Style) (text : String) : Piece := ⟨some style, text⟩

/-- The text with its style's codes around it, if colours are used. -/
def paint (colors : Bool) (p : Piece) : String :=
  match p.style with
  | some style => if colors then style.escape ++ p.text ++ "\x1b[0m" else p.text
  | none => p.text

/-- The texts of pieces one behind the other. -/
def paintAll (colors : Bool) (ps : List Piece) : String := String.join (ps.map (paint colors))

end Piece

/-- A number of spaces. -/
def blanks (n : Nat) : String := "".pushn ' ' n

/-- The row under the source line that marks a label's place. -/
def Label.row (margin : String) (l : Label) : List Piece :=
  let marks := "".pushn (if l.primary then '^' else '-') (max 1 l.span.len)
  let remark := if l.message.isEmpty then marks else marks ++ " " ++ l.message
  [.plain (margin ++ " | " ++ blanks l.span.start),
   .styled (if l.primary then .error else .secondary) remark,
   .plain "\n"]

namespace Diagnostic

/-- The number of the line, if it is known. -/
def lineText (d : Diagnostic) : String := (d.line.map fun (n : Nat) => toString n).getD ""

/-- The spaces that stand where other rows have the number of the line. -/
def margin (d : Diagnostic) : String := blanks (max 1 d.lineText.length)

/-- The row that tells where the error is. -/
def location (d : Diagnostic) : List Piece :=
  match d.primarySpan? with
  | none => []
  | some span =>
    let place := match d.line with
      | some n => "line " ++ toString n ++ ":" ++ toString span.column
      | none => "column " ++ toString span.column
    [.plain (d.margin ++ "--> " ++ place ++ "\n")]

/-- The source line and the rows that mark places in it. -/
def snippet (d : Diagnostic) (source : String) : List Piece :=
  let number := if d.line.isSome then d.lineText else d.margin
  .plain (d.margin ++ " |\n") :: .plain (number ++ " | " ++ source ++ "\n")
    :: d.labels.flatMap (Label.row d.margin)

/-- The row of one note. -/
def noteRow (d : Diagnostic) (note : String) : List Piece :=
  [.plain (d.margin ++ " = "), .styled .bold "note", .plain (": " ++ note ++ "\n")]

/-- The whole report, with the source line if there is one. -/
def render (d : Diagnostic) (source : Option String) : List Piece :=
  [.styled .error "error", .styled .bold ("[" ++ d.code.id ++ "]"),
   .plain (": " ++ d.message ++ "\n")]
    ++ d.location
    ++ (source.map d.snippet).getD []
    ++ d.notes.flatMap d.noteRow
    ++ [.plain "\n"]

end Diagnostic

/-- The line that ends a list of reports, if there were any. -/
def summary (errors : Nat) : List Piece :=
  if errors = 0 then []
  else
    let plural := if errors = 1 then "" else "s"
    [.styled .error "error",
     .plain (": aborting due to " ++ toString errors ++ " previous error" ++ plural ++ "\n")]

end Reckoner
