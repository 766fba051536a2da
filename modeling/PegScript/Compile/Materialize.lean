import PegScript.Compile.Config
import PegScript.JavaScript.Helper

/-!
# Bringing helpers into scope

The JavaScript source of every helper, and the statements that make helpers available to a program.
-/

namespace PegScript

/-- The helper as a function declaration. -/
def Helper.source : Helper → String
  | safe => "\n".intercalate [
      "function _safe(fn) \x7b",
      "  try \x7b",
      "    return \x7b ok: true, value: fn() \x7d;",
      "  \x7d catch (error) \x7b",
      "    return \x7b ok: false, error \x7d;",
      "  \x7d",
      "\x7d"]
  | safeAsync => "\n".intercalate [
      "async function _safe_async(fn) \x7b",
      "  try \x7b",
      "    return \x7b ok: true, value: await fn() \x7d;",
      "  \x7d catch (error) \x7b",
      "    return \x7b ok: false, error \x7d;",
      "  \x7d",
      "\x7d"]
  | range => "\n".intercalate [
      "function _range(start, end, step) \x7b",
      "  step = Math.abs(step);",
      "  if (step === 0) \x7b",
      "    throw new RangeError(\"range step must not be zero\");",
      "  \x7d",
      "  const out = [];",
      "  if (start <= end) \x7b",
      "    for (let i = start; i < end; i += step) out.push(i);",
      "  \x7d else \x7b",
      "    for (let i = start; i > end; i -= step) out.push(i);",
      "  \x7d",
      "  return out;",
      "\x7d"]
  | get => "\n".intercalate [
      "function _get(target, index) \x7b",
      "  if (typeof index === \"number\" && index < 0) \x7b",
      "    index += target.length;",
      "  \x7d",
      "  return target[index];",
      "\x7d"]
  | set => "\n".intercalate [
      "function _set(target, index, value) \x7b",
      "  if (typeof index === \"number\" && index < 0) \x7b",
      "    index += target.length;",
      "  \x7d",
      "  target[index] = value;",
      "  return value;",
      "\x7d"]

/-- Writes a text as a literal of the language that is generated, or says why it cannot. -/
abbrev TextWriter := String → Except String String

/-- Every text has a literal: the text in double quotes with its escapes. -/
def writeJson : TextWriter := fun text => .ok (Escape.json.quote text)

/-- The statement that brings one helper into scope from the quoted module. -/
def Config.deliver (config : Config) (quotedModule : String) (helper : Helper) : String :=
  match config.delivery with
  | .imported => "import \x7b " ++ helper.name ++ " \x7d from " ++ quotedModule ++ ";"
  | .inlined => helper.source
  | .required => "const \x7b " ++ helper.name ++ " \x7d = require(" ++ quotedModule ++ ");"

/-- One statement for each helper.  The name of the module is written in every case, also where no
statement has it. -/
def Config.materialize (write : TextWriter) (config : Config) (helpers : HelperSet) :
    Except String (List String) := do
  let quotedModule ← write config.runtimeModule
  return helpers.toList.map (config.deliver quotedModule)

end PegScript
