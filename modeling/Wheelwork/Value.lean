import Wheelwork.Json.Basic
import Wheelwork.Text.Blank
import Wheelwork.Text.Integer

/-!
The values that stand on wheels and wait in the argument queue.
-/
namespace Wheelwork

inductive Value where
  | integer (n : Int64)
  | text (s : String)
  | float (x : Float)

namespace Value

/-- An input line without its outer blanks, as an integer if it reads as one. -/
def ofInput (line : String) : Value :=
  let trimmed := Text.trim line.toList
  match Text.readInt64? trimmed with
  | some n => .integer n
  | none => .text (String.ofList trimmed)

def display : Value → String
  | .integer n => toString n.toInt
  | .text s => s
  | .float x => Numeral.format Numeral.display x

def typeName : Value → String
  | .integer _ => "integer"
  | .text _ => "text"
  | .float _ => "float"

def integer? : Value → Option Int64
  | .integer n => some n
  | _ => none

def text? : Value → Option String
  | .text s => some s
  | _ => none

def json (v : Value) : Json :=
  let content := match v with
    | .integer n => Json.int n.toInt
    | .text s => .string s
    | .float x => Json.float x
  .object [("kind", .string v.typeName), ("value", content)]

end Value
end Wheelwork
