import PegScript.Compile.Materialize
import PegScript.JavaScript.Generate
import PegScript.Language.Grammar

/-!
# Compilation

A source text is parsed and lowered, the helpers it needs are brought into scope, and the text is
formatted.  The last two steps are done by collaborators, which may fail for reasons of their own.
A compilation also tells its progress as log records.
-/

namespace PegScript

/-- The steps of a compilation that a caller may replace. -/
structure Collaborators where
  /-- The statements that bring helpers into scope. -/
  materialize : HelperSet → Config → Except String (List String)
  /-- The last pass over the text. -/
  format : String → Except String String

/-- The usual collaborators: helpers as the configuration asks, with literals from the given
writer, and the text as it is. -/
def Collaborators.standard (write : TextWriter) : Collaborators where
  materialize helpers config := config.materialize write helpers
  format text := .ok text

/-- A failed compilation, with what the failed step had to work on. -/
inductive CompileError where
  /-- The source does not parse; `report` shows where. -/
  | unparsed (failure : Diagnosis) (report : String)
  | unlowered (defect : Defect) (program : Program)
  | unmaterialized (cause : String) (statements : List String)
  | unformatted (cause : String) (text : String)

namespace CompileError

/-- The step that failed. -/
def phase : CompileError → String
  | unparsed .. => "parse"
  | unlowered .. => "lowering"
  | unmaterialized .. => "helper materialization"
  | unformatted .. => "formatting"

/-- The text of the error. -/
def message (e : CompileError) : String :=
  match e with
  | unparsed _ report => report
  | unlowered defect _ => "Invalid program: " ++ defect.message
  | unmaterialized cause _ => e.phase ++ " failed: " ++ cause
  | unformatted cause _ => e.phase ++ " failed: " ++ cause

/-- What the failed step itself said. -/
def cause : CompileError → String
  | unparsed failure _ => failure.message
  | unlowered defect _ => defect.message
  | unmaterialized cause _ => cause
  | unformatted cause _ => cause

end CompileError

/-- A compiled program. -/
structure Compiled where
  /-- The formatted text. -/
  code : String
  /-- The statements of the helpers followed by those of the program. -/
  statements : List String
  helpers : HelperSet

/-- A result together with the log records on the way to it. -/
structure Logged (α : Type) where
  result : α
  log : List LogRecord

/-- Parses a program. -/
def parseLogged (settings : Settings) (source : String) :
    Logged (Except Diagnosis Program) :=
  let run := Language.grammar.parse settings source
  ⟨run.outcome.bind (Language.programOf source), run.log settings source⟩

/-- Lowers a program. -/
def generateLogged (program : Program) : Logged (Except Defect JavaScript.Generated) :=
  match JavaScript.generate program with
  | .error defect => ⟨.error defect, []⟩
  | .ok generated => ⟨.ok generated, [⟨.trace,
      s!"Lowered {program.body.length} statements, {generated.hoisted.length} hoisted, "
        ++ s!"helpers {generated.helpers.render}"⟩]⟩

/-- Formats the statements of a program. -/
def finish (collaborators : Collaborators) (helpers : HelperSet) (statements : List String) :
    Logged (Except CompileError Compiled) :=
  let text := JavaScript.Generated.joinLines statements
  let start : LogRecord := ⟨.debug, s!"Formatting {text.utf8ByteSize} bytes"⟩
  match collaborators.format text with
  | .error cause =>
    ⟨.error (.unformatted cause text), [start, ⟨.warn, s!"Formatting failed: {cause}"⟩]⟩
  | .ok code => ⟨.ok { code, statements, helpers }, [start]⟩

/-- Brings the helpers of a generated program into scope. -/
def assemble (collaborators : Collaborators) (config : Config) (generated : JavaScript.Generated) :
    Logged (Except CompileError Compiled) :=
  let helpers := generated.helpers
  let start : LogRecord :=
    ⟨.debug, s!"Materializing {helpers.render} for {config.delivery.label}"⟩
  match collaborators.materialize helpers config with
  | .error cause =>
    ⟨.error (.unmaterialized cause generated.statements),
      [start, ⟨.warn, s!"Helper materialization failed: {cause}"⟩]⟩
  | .ok statements =>
    let rest := finish collaborators helpers (statements ++ generated.statements)
    ⟨rest.result, start :: rest.log⟩

/-- Compiles a source text. -/
def compile (collaborators : Collaborators) (config : Config) (source : String) :
    Logged (Except CompileError Compiled) :=
  let start : LogRecord := ⟨.debug, s!"Parsing {source.utf8ByteSize} bytes"⟩
  let parsed := parseLogged {} source
  match parsed.result with
  | .error failure =>
    let warning : LogRecord :=
      ⟨.warn, s!"Syntax error at byte {failure.offset}: {failure.message}"⟩
    ⟨.error (.unparsed failure (failure.render source)), start :: parsed.log ++ [warning]⟩
  | .ok program =>
    let lowering : LogRecord := ⟨.debug, s!"Lowering {program.body.length} statements"⟩
    let lowered := generateLogged program
    let log := start :: parsed.log ++ lowering :: lowered.log
    match lowered.result with
    | .error defect =>
      ⟨.error (.unlowered defect program),
        log ++ [⟨.warn, s!"Lowering failed: {defect.message}"⟩]⟩
    | .ok generated =>
      let rest := assemble collaborators config generated
      ⟨rest.result, log ++ rest.log⟩

end PegScript
