/-!
The texts of the command line's help. -/

namespace Reckoner.Help

/-- A text of several lines, each of which has an end. -/
def unlines (ls : List String) : String := String.join (ls.map (· ++ "\n"))

/-- The options of a run. -/
def runOptions : List String :=
  ["  --float, -f          Evaluate with floating point numbers",
   "  --set name=expr      Bind a variable before the program runs",
   "  --env                Print every binding after the run",
   "  --color=<mode>       Diagnostics color: auto, always, never"]

/-- The overview of all commands. -/
def usage : String := unlines <|
  ["Arith, an evaluator for line-oriented arithmetic programs",
   "",
   "Usage: arith <command> [options]",
   "",
   "Commands:",
   "  run <file|->         Run a program and print its result",
   "  parse <file|->       Print the parse tree of every line",
   "  lex <file|->         Print the tokens of every line",
   "  explain <code>       Explain an error code (e.g., E6001)",
   "  help                 Show this help message",
   "  version              Show version information",
   "",
   "Run options:"]
  ++ runOptions ++
  ["",
   "Examples:",
   "  arith run prog.arith",
   "  arith run prog.arith --set b=3 --env",
   "  echo 'return 7 / 2' | arith run - --float",
   "  RUST_LOG=arith_eval=trace arith run prog.arith"]

/-- What `run` says without arguments. -/
def runUsage : String :=
  unlines (["Usage: arith run <file|-> [options]", "", "Options:"] ++ runOptions)

/-- What `parse` says without an argument. -/
def parseUsage : String := unlines ["Usage: arith parse <file|->"]

/-- What `lex` says without an argument. -/
def lexUsage : String := unlines ["Usage: arith lex <file|->"]

/-- What `explain` says without an argument. -/
def explainUsage : String :=
  unlines ["Usage: arith explain <ERROR_CODE>", "Example: arith explain E6001"]

/-- The name of the program and its version. -/
def version : String := unlines ["Arith 0.1.0"]

/-- How `run` is called, below an error in its arguments. -/
def runSynopsis : String :=
  unlines ["Usage: arith run <file|-> [--float] [--set name=expr]... [--env]"]

/-- What there is to add on the code for unsupported constructs. -/
def unsupportedSyntax : List String :=
  ["",
   "The line was accepted by the parser but has no meaning to the evaluator.",
   "Sign prefixes (`-1`), exponentiation (`2^3`) and assignment targets",
   "other than a plain variable (`1 + a = 2`) report this code."]

end Reckoner.Help
