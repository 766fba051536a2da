import PegScript.Grammar.Printer
import PegScript.Language.Grammar
import PegScript.Tree.Outline

/-!
# The command line

The command traces a parse: it prints which rules were entered and what became of them, and then the
tree of the program or the report of the failure.  It can also print the grammar.
-/

namespace PegScript

/-- What the arguments ask for. -/
structure Request where
  /-- Print the grammar first. -/
  showGrammar : Bool := false
  /-- Print rules that failed, too. -/
  showFailed : Bool := false
  file : Option String := none
deriving DecidableEq, Repr

/-- Takes one argument into account.  Of several files the last counts. -/
def Request.add (request : Request) (argument : String) : Request :=
  if argument = "--grammar" then { request with showGrammar := true }
  else if argument = "--failed" then { request with showFailed := true }
  else { request with file := some argument }

def Request.ofArgs (args : List String) : Request :=
  args.foldl Request.add {}

/-- Why the command fails. -/
inductive CommandError where
  | badLogLevel
  | noFile
  | unreadable (file : String) (cause : String)
deriving DecidableEq, Repr

/-- The text of the error and of its cause, if it has one. -/
def CommandError.message : CommandError → String
  | badLogLevel => "Error: Invalid RUST_LOG level\n\nCaused by:\n    "
      ++ "attempted to convert a string that doesn't match an existing log level\n"
  | noFile => "Error: No filename provided\n"
  | unreadable file cause => s!"Error: Failed to read `{file}`\n\nCaused by:\n    {cause}\n"

/-- What a run of the command prints, and the error it ends with. -/
structure CommandResult where
  output : String
  error : Option CommandError := none
deriving DecidableEq, Repr

/-- The names of log levels, in any case of letters. -/
def isLogLevel (text : String) : Bool :=
  ["off", "error", "warn", "info", "debug", "trace"].contains text.toLower

namespace Request

/-- The grammar and an empty line, if they are asked for. -/
def grammarPart (request : Request) : String :=
  if request.showGrammar then Language.grammar.render ++ "\n" else ""

/-- The trace of a parse of the source and what came out of it. -/
def tracePart (request : Request) (source : String) : String :=
  let run := Language.grammar.parse { traced := true } source
  let trace := Trace.render Language.grammar.nameOf source request.showFailed run.session.events
  let outcome :=
    match run.outcome.bind (Language.programOf source) with
    | .ok program => program.outline.render 0
    | .error failure => failure.render source
  trace ++ "\n" ++ outcome ++ "\n"

/-- Runs the command, with `contents` for what reading the file gives. -/
def run (request : Request) (logLevel : Option String)
    (contents : String → Except String String) : CommandResult :=
  if !isLogLevel (logLevel.getD "info") then ⟨"", some .badLogLevel⟩
  else
    match request.file with
    | none => ⟨request.grammarPart, if request.showGrammar then none else some .noFile⟩
    | some file =>
      match contents file with
      | .error cause => ⟨request.grammarPart, some (.unreadable file cause)⟩
      | .ok source => ⟨request.grammarPart ++ request.tracePart source, none⟩

end Request

end PegScript
