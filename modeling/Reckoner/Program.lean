import Reckoner.Bindings
import Reckoner.Evaluation

/-!
Running lines one after the other. Each line sees the bindings of those before it; the first line
that returns or fails is the last one to run. -/

namespace Reckoner

/-- Why a program stopped, and the position of the line where it did. -/
structure LineError (E : Type) where
  index : Nat
  error : EvalError E
deriving DecidableEq, Repr

namespace Bindings

variable {V E : Type}

/-- What names mean where these bindings hold. -/
def scope (b : Bindings V) (names : NameTable) : Scope Name V := ⟨b.get?, names.text⟩

/-- The bindings after a line: an assignment binds its variable, and nothing else changes any. -/
def after (b : Bindings V) : Except (EvalError E) (Outcome Name V) → Bindings V
  | .ok (.assigned name v) => b.insert name v
  | .ok (.returned _) | .error _ => b

variable [Value V E]

/-- Evaluates a line: what it did, the values of its nodes, and the bindings after it. -/
def evaluate (b : Bindings V) (names : NameTable) (tree : Tree Name) :
    Except (EvalError E) (Outcome Name V) × Attributes V × Bindings V :=
  let (result, attributes) := tree.evaluate (b.scope names)
  (result, attributes, b.after result)

/-- Runs lines, the first of which stands at `index`. -/
def runFrom (names : NameTable) (index : Nat) :
    List (Tree Name) → Bindings V → Except (LineError E) (Option V) × Bindings V
  | [], b => (.ok none, b)
  | tree :: trees, b =>
    match b.evaluate names tree with
    | (.ok (.returned v), _, b) => (.ok (some v), b)
    | (.ok (.assigned _ _), _, b) => runFrom names (index + 1) trees b
    | (.error e, _, b) => (.error ⟨index, e⟩, b)

/-- Runs lines up to the first that returns a value or fails. -/
def run (b : Bindings V) (names : NameTable) (trees : List (Tree Name)) :
    Except (LineError E) (Option V) × Bindings V :=
  runFrom names 0 trees b

end Bindings

end Reckoner
