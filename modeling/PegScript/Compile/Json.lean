import PegScript.Text.Escape
import PegScript.Text.Shortest

/-!
# JSON values

Configuration comes as JSON.  A value that does not fit is shown in the error, written without
blanks and with the members of an object in the order of their names.
-/

namespace PegScript

inductive Json where
  | null
  | bool (value : Bool)
  /-- The number `mantissa / 10 ^ places`. -/
  | number (mantissa : Int) (places : Nat)
  | str (text : String)
  | array (items : List Json)
  /-- Members by name; of several with one name the last counts. -/
  | object (members : List (String × Json))
deriving Inhabited

namespace Json

/-- Puts a member in its place in the order of names, in place of one of the same name. -/
def insertMember {α : Type} (name : String) (value : α) :
    List (String × α) → List (String × α)
  | [] => [(name, value)]
  | entry :: rest =>
    if name = entry.1 then (name, value) :: rest
    else if name < entry.1 then (name, value) :: entry :: rest
    else entry :: insertMember name value rest

/-- Members in the order of their names. -/
def sortMembers {α : Type} (members : List (String × α)) : List (String × α) :=
  members.foldl (fun sorted entry => insertMember entry.1 entry.2 sorted) []

/-- The member of that name. -/
def member? (name : String) (members : List (String × Json)) : Option Json :=
  (sortMembers members).lookup name

/-- An integer of 64 bits, signed or not, is written as it is.  Any other number counts as a binary
fraction and is written with the fewest digits. -/
def renderNumber (mantissa : Int) (places : Nat) : String :=
  if places = 0 ∧ -(Nat.pow 2 63 : Int) ≤ mantissa ∧ mantissa < Nat.pow 2 64 then toString mantissa
  else (if mantissa < 0 then "-" else "") ++ Shortest.render mantissa.natAbs (Nat.pow 10 places)

mutual

/-- The written form without blanks. -/
def render : Json → String
  | .null => "null"
  | .bool value => if value then "true" else "false"
  | .number mantissa places => renderNumber mantissa places
  | .str s => Escape.json.quote s
  | .array items => "[" ++ ",".intercalate (renderItems items) ++ "]"
  | .object members =>
    "\x7b" ++ ",".intercalate ((sortMembers (renderMembers members)).map renderMember) ++ "\x7d"
where
  /-- A member whose value is already written. -/
  renderMember (entry : String × String) : String :=
    Escape.json.quote entry.1 ++ ":" ++ entry.2

/-- The written items of an array. -/
def renderItems : List Json → List String
  | [] => []
  | item :: items => render item :: renderItems items

/-- The members of an object with their values written. -/
def renderMembers : List (String × Json) → List (String × String)
  | [] => []
  | (name, value) :: members => (name, render value) :: renderMembers members

end

end Json

end PegScript
