import Wheelwork.Decimal.Numeral

/-!
JSON values. Objects keep the order of their fields.
-/
namespace Wheelwork

inductive Json where
  | null
  | bool (b : Bool)
  | number (n : Numeral)
  | string (s : String)
  | array (items : List Json)
  | object (fields : List (String × Json))
  /-- A string, or an object with a key, that escapes an unpaired surrogate: well written, but
  not text. -/
  | garbled

namespace Json

/-- Binary64 values in JSON: a point when in full, an exponent below `1e-5` and from `1e16` on. -/
def numbers : Numeral.Style := ⟨fun e => -5 ≤ e && e ≤ 15, true, .even⟩

def int (n : Int) : Json := .number (.ofInt n)

def float (x : Float) : Json :=
  match Numeral.ofFloat? numbers x with
  | some n => .number n
  | none => .null

def ofOption {α : Type} (encode : α → Json) : Option α → Json
  | some a => encode a
  | none => .null

end Json
end Wheelwork
