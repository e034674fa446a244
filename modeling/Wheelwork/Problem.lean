import Wheelwork.Diagnostic
import Wheelwork.Fault

/-!
What can be wrong with a source text: the causes, their code numbers and their wording.
-/
namespace Wheelwork

inductive Problem where
  | unexpectedCharacter (c : Char)
  | unterminatedString
  | integerOutOfRange (literal : String)
  | expectedMnemonic (found : String)
  | unknownMnemonic (word : String)
  | unknownFaultKind (word : String)
  | missingName (op : Opcode)
  | redefined (name : String) (firstLine : Nat)

namespace Problem

def code : Problem → Nat
  | .unexpectedCharacter _ => 100
  | .unterminatedString => 101
  | .integerOutOfRange _ => 102
  | .expectedMnemonic _ => 103
  | .unknownMnemonic _ => 200
  | .unknownFaultKind _ => 201
  | .missingName _ => 202
  | .redefined _ _ => 300

/-- A second definition of a name is allowed; all else keeps the text from loading. -/
def severity : Problem → Severity
  | .redefined _ _ => .warning
  | _ => .error

def message : Problem → String
  | .unexpectedCharacter c => "Unexpected character '" ++ String.singleton c ++ "'"
  | .unterminatedString => "Unterminated string literal"
  | .integerOutOfRange literal => "Integer literal '" ++ literal ++ "' is out of range"
  | .expectedMnemonic found =>
    "Expected a mnemonic at the start of the line, found " ++ found
  | .unknownMnemonic word => "Unknown mnemonic '" ++ word ++ "'"
  | .unknownFaultKind word => "Unknown error kind '" ++ word ++ "'"
  | .missingName op => op.mnemonic ++ " requires a function name"
  | .redefined name firstLine =>
    "Function '" ++ name ++ "' is already defined on line " ++ toString firstLine

def upperCase (word : String) : String := String.ofList (word.toList.map Char.toUpper)

def suggestion? : Problem → Option String
  | .unexpectedCharacter c =>
    if c = '#' ∨ c = '/' then some "Comments start with ';'" else none
  | .unterminatedString => some "Close the string with '\"' before the end of the line"
  | .integerOutOfRange _ => some "Integers are 64-bit signed"
  | .expectedMnemonic _ => none
  | .unknownMnemonic word =>
    if (Opcode.ofMnemonic? (upperCase word)).isSome then
      some ("Mnemonics are upper-case: " ++ upperCase word)
    else none
  | .unknownFaultKind _ =>
    some ("Expected one of: " ++ String.intercalate ", " (FaultKind.all.map FaultKind.name))
  | .missingName op => some ("Write `" ++ op.mnemonic ++ " name`")
  | .redefined _ _ => some "Calls will use this later definition"

def locate (p : Problem) (source : Source) (span : Span) : Diagnostic where
  file := source.name
  code := p.code
  severity := p.severity
  message := p.message
  span := span
  sourceLine := (source.line? span.line).getD ""
  suggestion := p.suggestion?

end Problem
end Wheelwork
