import Wheelwork.Decimal.Numeral
import Wheelwork.Source

/-!
The tokens of a source text.
-/
namespace Wheelwork

inductive TokenKind where
  | word (s : String)
  | integer (n : Int64)
  | float (x : Float)
  | string (s : String)
  /-- The mark for arguments from the queue. -/
  | args
  | newline
  | eof

structure Token where
  kind : TokenKind
  span : Span

namespace TokenKind

def display : TokenKind → String
  | .word s => s
  | .integer n => toString n.toInt
  | .float x => Numeral.format Numeral.quoted x
  | .string s => "\"" ++ s ++ "\""
  | .args => "%"
  | .newline => "newline"
  | .eof => "end of file"

def endsLine : TokenKind → Bool
  | .newline | .eof => true
  | _ => false

def isEof : TokenKind → Bool
  | .eof => true
  | _ => false

end TokenKind
end Wheelwork
