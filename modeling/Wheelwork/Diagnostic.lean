import Wheelwork.Source

/-!
Located complaints about a source text, and collections of them that keep the first errors only.
-/
namespace Wheelwork

inductive Severity where
  | error
  | warning
  deriving DecidableEq, Repr

def Severity.name : Severity → String
  | .error => "error"
  | .warning => "warning"

inductive Category where
  | form
  | instruction
  | definition
  deriving DecidableEq, Repr

namespace Category

def name : Category → String
  | .form => "syntax"
  | .instruction => "instruction"
  | .definition => "definition"

def ofCode (code : Nat) : Category :=
  if 200 ≤ code ∧ code ≤ 299 then .instruction
  else if 300 ≤ code ∧ code ≤ 399 then .definition
  else .form

end Category

def codeText (code : Nat) : String := "E" ++ toString code

structure Diagnostic where
  file : String
  code : Nat
  severity : Severity
  message : String
  span : Span
  sourceLine : String
  suggestion : Option String

namespace Diagnostic

def category (d : Diagnostic) : Category := .ofCode d.code

def display (d : Diagnostic) : String :=
  d.file ++ ":" ++ d.span.display ++ ": " ++ codeText d.code ++ " [" ++ d.category.name ++ "] "
    ++ d.message

def json (d : Diagnostic) : Json :=
  .object ([("file", .string d.file), ("code", Json.int d.code),
    ("severity", .string d.severity.name), ("category", .string d.category.name),
    ("message", .string d.message)] ++ d.span.fields ++ [("source_line", .string d.sourceLine)]
    ++ (match d.suggestion with
      | some s => [("suggestion", .string s)]
      | none => []))

def lines (d : Diagnostic) : List String :=
  [d.display] ++ (if d.sourceLine = "" then [] else ["    | " ++ d.sourceLine])
    ++ (match d.suggestion with
      | some s => ["    = help: " ++ s]
      | none => [])

end Diagnostic

/-- Errors beyond the cap are counted but not kept; warnings are all kept. -/
structure Diagnostics where
  errors : Array Diagnostic := #[]
  warnings : Array Diagnostic := #[]
  totalErrors : Nat := 0
  totalWarnings : Nat := 0

namespace Diagnostics

def cap : Nat := 20

def empty : Diagnostics := {}

def hasErrors (ds : Diagnostics) : Bool := 0 < ds.totalErrors

def hasWarnings (ds : Diagnostics) : Bool := 0 < ds.totalWarnings

def isFull (ds : Diagnostics) : Bool := cap ≤ ds.totalErrors

def pushError (ds : Diagnostics) (d : Diagnostic) : Diagnostics :=
  { ds with
    errors := if ds.errors.size < cap then ds.errors.push d else ds.errors
    totalErrors := ds.totalErrors + 1 }

def pushWarning (ds : Diagnostics) (d : Diagnostic) : Diagnostics :=
  { ds with warnings := ds.warnings.push d, totalWarnings := ds.totalWarnings + 1 }

/-- The first collection followed by the second; what the second dropped still counts. -/
def extend (ds other : Diagnostics) : Diagnostics :=
  let dropped := other.totalErrors - other.errors.size
  let ds := { ds with totalErrors := ds.totalErrors + dropped }
  let ds := other.errors.foldl pushError ds
  other.warnings.foldl pushWarning ds

def display (ds : Diagnostics) : String :=
  let unkept := ds.totalErrors - ds.errors.size
  let lines := ds.errors.toList.flatMap Diagnostic.lines
    ++ (if 0 < unkept then ["... and " ++ toString unkept ++ " more errors"] else [])
    ++ ds.warnings.toList.map fun w => "warning: " ++ w.display
  String.join (lines.map (· ++ "\n"))

def json (ds : Diagnostics) : Json :=
  .object [("errors", .array (ds.errors.toList.map Diagnostic.json)),
    ("warnings", .array (ds.warnings.toList.map Diagnostic.json)),
    ("total_errors", Json.int ds.totalErrors), ("total_warnings", Json.int ds.totalWarnings)]

end Diagnostics
end Wheelwork
