import PegScript.Compile.Json

/-!
# Configuration of a compilation

How the helpers that a program needs come into scope, and from which module.
-/

namespace PegScript

/-- How helpers come into scope. -/
inductive Delivery where
  /-- By an import statement. -/
  | imported
  /-- As functions at the top of the program. -/
  | inlined
  /-- By a call of `require`. -/
  | required
deriving DecidableEq, Repr

namespace Delivery

def all : List Delivery :=
  [imported, inlined, required]

/-- The name in a configuration. -/
def name : Delivery → String
  | imported => "import"
  | inlined => "inline"
  | required => "require"

/-- The name in log records. -/
def label : Delivery → String
  | imported => "Import"
  | inlined => "Inline"
  | required => "Require"

/-- The delivery of that name. -/
def ofName? (name : String) : Option Delivery :=
  all.find? fun d => d.name == name

/-- A delivery is written as its name, or as an object whose one member has that name and no
value. -/
def ofJson? : Json → Option Delivery
  | .str name => ofName? name
  | .object members =>
    match Json.sortMembers members with
    | [(name, .null)] => ofName? name
    | _ => none
  | _ => none

end Delivery

structure Config where
  delivery : Delivery := .imported
  /-- The module that the helpers are imported or required from. -/
  runtimeModule : String := "cinder/runtime"
deriving DecidableEq, Repr

/-- Why a JSON value is not a configuration. -/
inductive ConfigError where
  | notObject
  | badDelivery (got : Json)
  | badModule (got : Json)

/-- The text of the error. -/
def ConfigError.message : ConfigError → String
  | notObject => "json::Value is not an object!"
  | badDelivery got =>
    s!"Expected type cinder::config::TargetMode for config.target, got {got.render}"
  | badModule got =>
    s!"Expected type alloc::string::String for config.runtimeModule, got {got.render}"

namespace Config

/-- The delivery that the members of a configuration ask for. -/
def readDelivery (members : List (String × Json)) : Except ConfigError Delivery :=
  match Json.member? "target" members with
  | none => .ok ({} : Config).delivery
  | some value =>
    match Delivery.ofJson? value with
    | some delivery => .ok delivery
    | none => .error (.badDelivery value)

/-- The module that the members of a configuration name. -/
def readModule (members : List (String × Json)) : Except ConfigError String :=
  match Json.member? "runtimeModule" members with
  | none => .ok ({} : Config).runtimeModule
  | some (.str name) => .ok name
  | some value => .error (.badModule value)

/-- Reads a configuration.  A member that is missing keeps its default, one that does not fit is an
error, and other members do not matter. -/
def ofJson : Json → Except ConfigError Config
  | .object members => do
    let delivery ← readDelivery members
    let runtimeModule ← readModule members
    return { delivery, runtimeModule }
  | _ => .error .notObject

end Config

end PegScript
