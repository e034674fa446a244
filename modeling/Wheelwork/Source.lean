import Wheelwork.Json.Basic
import Wheelwork.Text.Blank

/-!
Source texts and places in them. Lines and columns count from one.
-/
namespace Wheelwork

/-- A stretch of one line, both ends included. -/
structure Span where
  line : Nat
  column : Nat
  endColumn : Nat
  deriving DecidableEq, Repr

namespace Span

def point (line column : Nat) : Span := ⟨line, column, column⟩

def join (a b : Span) : Span := ⟨a.line, min a.column b.column, max a.endColumn b.endColumn⟩

def display (s : Span) : String := toString s.line ++ ":" ++ toString s.column

def fields (s : Span) : List (String × Json) :=
  [("line", Json.int s.line), ("column", Json.int s.column), ("end_column", Json.int s.endColumn)]

def json (s : Span) : Json := .object s.fields

end Span

structure Source where
  name : String
  text : String

namespace Source

def lineCount (s : Source) : Nat := s.text.toList.count '\n' + 1

def line? (s : Source) : Nat → Option String
  | 0 => none
  | n + 1 =>
    (Text.splitLines s.text.toList)[n]?.map fun cs =>
      String.ofList (Text.dropEndWhile (· == '\r') cs)

end Source
end Wheelwork
