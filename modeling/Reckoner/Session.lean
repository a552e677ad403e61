import Reckoner.Diagnostic.Cause
import Reckoner.Program
import Reckoner.Source

/-!
Sessions. A session keeps names and bindings from one program or line to the next. Sessions may
share one table of names; their bindings are always their own. -/

namespace Reckoner

/-- Why a program failed, and the number of the line where it did. -/
inductive RunError (E : Type) where
  | parse (line : Nat) (error : ParseError)
  | eval (line : Nat) (error : EvalError E)
deriving DecidableEq, Repr

namespace RunError

variable {E : Type}

/-- The number of the line, counted from one. -/
def line : RunError E → Nat
  | .parse line _ | .eval line _ => line

/-- The report of the cause, without a line number. -/
def cause [ToString E] : RunError E → Diagnostic
  | .parse _ e => e.diagnostic
  | .eval _ e => e.diagnostic

/-- The report of the failure. -/
def diagnostic [ToString E] (e : RunError E) : Diagnostic := e.cause.onLine e.line

/-- What went wrong, and on which line. -/
def message [ToString E] (e : RunError E) : String :=
  "line " ++ toString e.line ++ ": " ++ e.cause.message

end RunError

/-- Names and bindings that last from one run to the next. -/
structure Session (V : Type) where
  names : NameTable
  bindings : Bindings V

namespace Session

variable {V E : Type}

/-- A session without bindings on a table of names. -/
def withNames (names : NameTable) : Session V := ⟨names, .empty⟩

/-- A session without bindings on a table of its own. -/
def initial : Session V := withNames .initial

/-- Binds a variable, and gives the value that it replaces. -/
def bind (s : Session V) (name : String) (v : V) : Option V × Session V :=
  let (n, names) := s.names.intern name
  (s.bindings.get? n, ⟨names, s.bindings.insert n v⟩)

/-- The value of a variable. -/
def get? (s : Session V) (name : String) : Option V := (s.names.get? name).bind s.bindings.get?

/-- The variables and their values, in the order of the variables. -/
def listing (s : Session V) : List (String × V) := s.bindings.listing s.names

/-- The trees of a program's lines. -/
def parse (s : Session V) (source : String) :
    Except (RunError E) (List (Nat × Tree Name)) × Session V :=
  match Source.parse s.names source with
  | (.ok trees, names) => (.ok trees, { s with names })
  | (.error (line, e), names) => (.error (.parse line e), { s with names })

variable [Value V E]

/-- Runs a program, all of whose lines have to parse: the value that a line returned, if one did. -/
def run (s : Session V) (source : String) : Except (RunError E) (Option V) × Session V :=
  match s.parse source with
  | (.error e, s) => (.error e, s)
  | (.ok program, s) =>
    match s.bindings.run s.names (program.map (·.2)) with
    | (.ok v, bindings) => (.ok v, { s with bindings })
    | (.error e, bindings) =>
      (.error (.eval ((program[e.index]?.map (·.1)).getD 0) e.error), { s with bindings })

/-- Evaluates a single line. -/
def evaluateLine (s : Session V) (line : String) :
    Except (RunError E) (Outcome Name V) × Session V :=
  match Tree.ofLine s.names line with
  | (.error e, names) => (.error (.parse 1 e), { s with names })
  | (.ok tree, names) =>
    match s.bindings.evaluate names tree with
    | (.ok outcome, _, bindings) => (.ok outcome, ⟨names, bindings⟩)
    | (.error e, _, bindings) => (.error (.eval 1 e), ⟨names, bindings⟩)

end Session

/-! ### Two sessions -/

/-- Two sessions side by side, which may share their table of names. -/
structure SessionPair (V : Type) where
  shared : Bool
  left : Session V
  right : Session V

namespace SessionPair

variable {V β : Type}

/-- Two sessions without bindings. -/
def initial (shared : Bool) : SessionPair V := ⟨shared, .initial, .initial⟩

/-- One of the two sessions. -/
def session (p : SessionPair V) (onRight : Bool) : Session V := if onRight then p.right else p.left

/-- The other session of a pair, after names were added by the first. -/
def renamed (p : SessionPair V) (names : NameTable) (s : Session V) : Session V :=
  if p.shared then { s with names } else s

/-- Works with one of the sessions; names that it adds to a shared table are there for both. -/
def withSession (p : SessionPair V) (onRight : Bool) (f : Session V → β × Session V) :
    β × SessionPair V :=
  let (b, s) := f (p.session onRight)
  (b, if onRight then { p with left := p.renamed s.names p.left, right := s }
    else { p with left := s, right := p.renamed s.names p.right })

end SessionPair

end Reckoner
