import Reckoner.Command.Help
import Reckoner.Options
import Reckoner.Session
import Reckoner.Tree.View
import Reckoner.Value.Double

/-!
The command line without its effects. Arguments make a request, which may need the text of a
program; with that text the request has an answer: an exit code and what goes to each output. -/

namespace Reckoner

/-- What a command leaves behind. -/
structure Answer where
  exit : Nat
  out : String
  err : String
deriving DecidableEq, Repr

namespace Answer

/-- Success, with something to print. -/
def ok (out : String) : Answer := ⟨0, out, ""⟩

/-- Failure, with a message. -/
def failed (err : String) : Answer := ⟨1, "", err⟩

end Answer

/-- Why a program's text could not be read. -/
inductive ReadError where
  | notFound
  | permissionDenied
  | invalidData
  | other (detail : String)
deriving DecidableEq, Repr

/-- What is wrong with the file of that name. -/
def ReadError.message (path : String) : ReadError → String
  | .notFound => "cannot find file '" ++ path ++ "'"
  | .permissionDenied => "permission denied reading '" ++ path ++ "'"
  | .invalidData => "'" ++ path ++ "' contains invalid UTF-8 data"
  | .other detail => "error reading '" ++ path ++ "': " ++ detail

/-- What an input is called in messages. -/
def Input.name : Input → String
  | .stdin => "<stdin>"
  | .file path => path

/-! ### Requests -/

/-- What the arguments ask for. -/
inductive Request where
  | done (answer : Answer)
  | lex (input : Input)
  | parse (input : Input)
  | run (options : Options)
deriving DecidableEq, Repr

/-- The last part of a path that is not the current directory. -/
def fileName? (path : String) : Option (List Char) :=
  ((path.toList.splitOn '/').filter fun part => part != [] && part != ['.']).getLast?

/-- What stands behind the last dot of a file's name, unless the name has no other dot in front. -/
def extension? (path : String) : Option (List Char) :=
  match fileName? path with
  | none => none
  | some name =>
    let after := (name.reverse.takeWhile (· != '.')).reverse
    let before := name.take (name.length - after.length - 1)
    if name = ['.', '.'] || !name.contains '.' || before.isEmpty then none else some after

/-- Whether a path names a program by its extension. -/
def isProgramPath (path : String) : Bool :=
  match extension? path with
  | some ext => Code.equalIgnoringCase (String.ofList ext) "arith"
  | none => false

/-- What is known about an error code. -/
def explain (text : String) : Answer :=
  match Code.parse? text with
  | some code =>
    .ok (Help.unlines ((code.id ++ ": " ++ code.description)
      :: if code.isInternal then Help.unsupportedSyntax else []))
  | none =>
    .failed (Help.unlines (["Unknown error code: " ++ text, "", "Known codes:"]
      ++ Code.all.map fun code => "  " ++ code.id ++ "  " ++ code.description))

namespace Request

/-- A run with the given arguments. -/
def ofRunArgs (args : List String) : Request :=
  match Options.ofArgs args with
  | .ok options => .run options
  | .error e => .done (.failed ("error: " ++ e.message ++ "\n" ++ Help.runSynopsis))

/-- What the arguments behind the program's name ask for. -/
def ofArgs : List String → Request
  | [] => .done (.ok Help.usage)
  | command :: args =>
    match command, args with
    | "run", [] => .done (.failed Help.runUsage)
    | "run", args => ofRunArgs args
    | "parse", [] => .done (.failed Help.parseUsage)
    | "parse", path :: _ => .parse (.ofArg path)
    | "lex", [] => .done (.failed Help.lexUsage)
    | "lex", path :: _ => .lex (.ofArg path)
    | "--explain", [] | "explain", [] => .done (.failed Help.explainUsage)
    | "--explain", code :: _ | "explain", code :: _ => .done (explain code)
    | "help", _ | "--help", _ | "-h", _ => .done (.ok Help.usage)
    | "version", _ | "--version", _ | "-V", _ => .done (.ok Help.version)
    | command, args =>
      if isProgramPath command then ofRunArgs (command :: args)
      else .done ⟨1, Help.usage, "Unknown command: " ++ command ++ "\n\n"⟩

/-- The program text that the request needs. -/
def input? : Request → Option Input
  | .done _ => none
  | .lex input | .parse input => some input
  | .run options => some options.input

end Request

/-! ### Answers -/

/-- How a token is listed. -/
def Token.listed (names : NameTable) (t : Token Name) : String :=
  let place := t.span.text
  let what := match t.kind with
    | .ident n => "identifier `" ++ names.text n ++ "`"
    | .number n => "number `" ++ names.text n ++ "`"
    | .invalid | .eof => t.kind.describe
    | kind => "`" ++ kind.describe ++ "`"
  "  " ++ place ++ blanks (8 - place.length) ++ " " ++ what ++ "\n"

/-- The tokens of numbered lines, one to a row. -/
def lexListing (names : NameTable) : List (Nat × String) → String
  | [] => ""
  | (number, line) :: rest =>
    let (tokens, names) := Token.lex names line
    "line " ++ toString number ++ " (" ++ toString tokens.length ++ " tokens):\n"
      ++ String.join (tokens.map (Token.listed names)) ++ lexListing names rest

/-- The dumps of the numbered lines that parse, and the reports on those that do not. -/
def parseListing (names : NameTable) : List (Nat × String) → String × List (Nat × ParseError)
  | [] => ("", [])
  | (number, line) :: rest =>
    match Tree.ofLine names line with
    | (.ok tree, names) =>
      let (out, errors) := parseListing names rest
      ("line " ++ toString number ++ ":\n" ++ (tree.dump? names.text).getD "" ++ out, errors)
    | (.error e, names) =>
      let (out, errors) := parseListing names rest
      (out, (number, e) :: errors)

/-- A report on its line of the program. -/
def Diagnostic.renderIn (d : Diagnostic) (source : String) : List Piece :=
  d.render (d.line.bind (Source.line? source))

/-- The answer to `parse`. -/
def parseAnswer (colors : Bool) (source : String) : Answer :=
  let (out, errors) := parseListing .initial (Source.equations source)
  let reports := errors.flatMap fun (number, e) => (e.diagnostic.onLine number).renderIn source
  ⟨if errors.isEmpty then 0 else 1, out, Piece.paintAll colors (reports ++ summary errors.length)⟩

section Run

variable {V E : Type} [Value V E] [ToString V] [ToString E]

/-- Makes bindings in order; the report on the first that fails. -/
def Session.bindAll (s : Session V) : List (String × String) → Except (List Piece) (Session V)
  | [] => .ok s
  | (name, expression) :: rest =>
    let line := name ++ " = " ++ expression
    match s.evaluateLine line with
    | (.ok _, s) => s.bindAll rest
    | (.error e, _) =>
      let note := "in `--set " ++ name ++ "=" ++ expression ++ "`"
      .error ((e.cause.withNote note).render (some line))

/-- The bindings of a session, one to a row. -/
def Session.bindingRows (s : Session V) : String :=
  String.join (s.listing.map fun (name, v) => name ++ " = " ++ toString v ++ "\n")

/-- The answer to a run in a session. -/
def Session.runAnswer (s : Session V) (colors : Bool) (options : Options) (source : String) :
    Answer :=
  match s.bindAll options.bindings with
  | .error report => .failed (Piece.paintAll colors (report ++ summary 1))
  | .ok s =>
    let (result, s) := s.run source
    let rows := if options.showBindings then s.bindingRows else ""
    match result with
    | .ok (some v) => .ok (toString v ++ "\n" ++ rows)
    | .ok none => .ok rows
    | .error e => ⟨1, rows, Piece.paintAll colors (e.diagnostic.renderIn source ++ summary 1)⟩

end Run

/-- The answer to a run. -/
def runAnswer (terminal : Bool) (options : Options) (source : String) : Answer :=
  let colors := options.color.enabled terminal
  match options.mode with
  | .integer => (Session.initial : Session Integer).runAnswer colors options source
  | .float => (Session.initial : Session Double).runAnswer colors options source

/-- The answer to a request, given the text of the input that it asks for. -/
def Request.answer (terminal : Bool) (r : Request) (text : Except ReadError String) : Answer :=
  match r.input?, text with
  | some input, .error e => .failed (e.message input.name ++ "\n")
  | _, text =>
    let source := text.toOption.getD ""
    match r with
    | .done answer => answer
    | .lex _ => .ok (lexListing .initial (Source.equations source))
    | .parse _ => parseAnswer (ColorMode.auto.enabled terminal) source
    | .run options => runAnswer terminal options source

/-- Answers the arguments behind the program's name; `read` is asked for the text of an input only if
the answer needs one. -/
def respond {m : Type → Type} [Monad m] (terminal : Bool)
    (read : Input → m (Except ReadError String)) (args : List String) : m Answer := do
  let request := Request.ofArgs args
  match request.input? with
  | some input => return request.answer terminal (← read input)
  | none => return request.answer terminal (.ok "")

end Reckoner
