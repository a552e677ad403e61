import Reckoner.Parse
import Reckoner.Text.Blank
import Reckoner.Text.Lines
import Reckoner.Token.Scan
import Reckoner.Tree

/-!
Programs as text. Every line that is not blank is one equation; lines are numbered from one, the
blank ones included. -/

namespace Reckoner

/-- The tree of a line, and the table with the names of its texts. -/
def Tree.ofLine (names : NameTable) (line : String) : Except ParseError (Tree Name) × NameTable :=
  let (tokens, names) := Token.scanWith names line
  ((Phrase.ofLine tokens (Token.endOf line)).map Phrase.toTree, names)

namespace Source

/-- The lines of a program that are not blank, with their numbers. -/
def equations (source : String) : List (Nat × String) :=
  ((Text.lines source).zipIdx 1).filterMap fun (line, number) =>
    if Text.isBlankText line then none else some (number, line)

/-- A line of a program by its number, which starts at one. -/
def line? (source : String) (number : Nat) : Option String := (Text.lines source)[number - 1]?

/-- The trees of numbered lines, up to the first that does not parse. -/
def parseAll (names : NameTable) :
    List (Nat × String) → Except (Nat × ParseError) (List (Nat × Tree Name)) × NameTable
  | [] => (.ok [], names)
  | (number, line) :: rest =>
    match Tree.ofLine names line with
    | (.error e, names) => (.error (number, e), names)
    | (.ok tree, names) =>
      match parseAll names rest with
      | (.error e, names) => (.error e, names)
      | (.ok trees, names) => (.ok ((number, tree) :: trees), names)

/-- The trees of a program's lines, up to the first that does not parse. -/
def parse (names : NameTable) (source : String) :
    Except (Nat × ParseError) (List (Nat × Tree Name)) × NameTable :=
  parseAll names (equations source)

end Source

end Reckoner
