import Reckoner.Diagnostic.Render
import Reckoner.Text.Blank
import Reckoner.Token.Scan

/-!
Options of a run, from the arguments of the command line. -/

namespace Reckoner

/-- Where a program's text comes from. -/
inductive Input where
  | stdin
  | file (path : String)
deriving DecidableEq, Repr

/-- The values that a program is run with. -/
inductive Mode where | integer | float
deriving DecidableEq, Repr

/-- What a run was asked to do. -/
structure Options where
  input : Input
  mode : Mode
  bindings : List (String × String)
  showBindings : Bool
  color : ColorMode
deriving DecidableEq, Repr

/-- Why arguments ask for no run. -/
inductive OptionError where
  | missingInput
  | extraInput (arg : String)
  | unknownOption (arg : String)
  | missingValue (option : String)
  | invalidBinding (text : String)
  | invalidColor (text : String)
deriving DecidableEq, Repr

/-- What is wrong with the arguments. -/
def OptionError.message : OptionError → String
  | .missingInput => "missing input file (use `-` for standard input)"
  | .extraInput arg => "unexpected extra input `" ++ arg ++ "`"
  | .unknownOption arg => "unknown option `" ++ arg ++ "`"
  | .missingValue option => "option `" ++ option ++ "` needs a value"
  | .invalidBinding text => "invalid binding `" ++ text ++ "`, expected `name=expression`"
  | .invalidColor text => "invalid color mode `" ++ text ++ "`, expected auto, always or never"

/-- A dash is standard input, and anything else a path. -/
def Input.ofArg (arg : String) : Input := if arg = "-" then .stdin else .file arg

/-- The mode that a word names. -/
def ColorMode.ofText? : String → Except OptionError ColorMode
  | "auto" => .ok .auto
  | "always" => .ok .always
  | "never" => .ok .never
  | text => .error (.invalidColor text)

namespace Options

/-- Whether a text is an identifier, which the keyword is not. -/
def isIdentifier (s : String) : Bool :=
  match s.toList with
  | [] => false
  | c :: cs => Token.isWordStart c && cs.all Token.isWordPart && s != "return"

/-- The characters in front of the first equals sign and those behind it. -/
def splitEquals? : List Char → Option (List Char × List Char)
  | [] => none
  | c :: cs => if c = '=' then some ([], cs) else (splitEquals? cs).map fun (l, r) => (c :: l, r)

/-- The variable and the expression of a binding `name=expression`, without blanks around them. -/
def parseBinding (text : String) : Except OptionError (String × String) :=
  match splitEquals? text.toList with
  | none => .error (.invalidBinding text)
  | some (l, r) =>
    let name := Text.trim (String.ofList l)
    let expression := Text.trim (String.ofList r)
    if isIdentifier name && !expression.isEmpty then .ok (name, expression)
    else .error (.invalidBinding text)

/-- The rest of a text that begins with `lead`. -/
def behind? (lead text : String) : Option String :=
  if lead.toList.isPrefixOf text.toList then some (String.ofList (text.toList.drop lead.length))
  else none

/-- What has been read of the arguments. -/
structure Draft where
  input : Option Input := none
  mode : Mode := .integer
  bindings : List (String × String) := []
  showBindings : Bool := false
  color : ColorMode := .auto
deriving DecidableEq, Repr

namespace Draft

/-- Adds a binding. -/
def bind (d : Draft) (text : String) : Except OptionError Draft :=
  (parseBinding text).map fun binding => { d with bindings := d.bindings ++ [binding] }

/-- Reads an argument that needs no other one. -/
def read (d : Draft) (arg : String) : Except OptionError Draft :=
  if arg = "--float" || arg = "-f" then .ok { d with mode := .float }
  else if arg = "--env" then .ok { d with showBindings := true }
  else
    match behind? "--set=" arg, behind? "--color=" arg with
    | some text, _ => d.bind text
    | none, some text => (ColorMode.ofText? text).map fun color => { d with color }
    | none, none =>
      if (behind? "-" arg).isSome && arg != "-" then .error (.unknownOption arg)
      else if d.input.isNone then .ok { d with input := some (.ofArg arg) }
      else .error (.extraInput arg)

/-- Reads arguments from left to right, up to the first that is wrong. -/
def readAll (d : Draft) : List String → Except OptionError Draft
  | [] => .ok d
  | "--set" :: [] => .error (.missingValue "--set")
  | "--set" :: text :: args =>
    match d.bind text with
    | .ok d => d.readAll args
    | .error e => .error e
  | arg :: args =>
    match d.read arg with
    | .ok d => d.readAll args
    | .error e => .error e

/-- The options, once there is an input. -/
def finish (d : Draft) : Except OptionError Options :=
  match d.input with
  | some input => .ok ⟨input, d.mode, d.bindings, d.showBindings, d.color⟩
  | none => .error .missingInput

end Draft

/-- The options that arguments ask for. -/
def ofArgs (args : List String) : Except OptionError Options :=
  match Draft.readAll {} args with
  | .ok d => d.finish
  | .error e => .error e

end Options

end Reckoner
