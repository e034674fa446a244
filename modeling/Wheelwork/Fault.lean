import Wheelwork.Opcode
import Wheelwork.Value

/-!
Faults: the causes for which an instruction fails, the kinds by which a handler selects them,
and their wording.
-/
namespace Wheelwork

inductive FaultKind where
  | badArgument
  | incorrectTermination
  | emptyWheel
  | numericDataRequired
  | notEnoughArgs
  | divisionByZero
  | undefinedFunction
  | arithmeticError
  deriving DecidableEq, Repr

namespace FaultKind

def all : List FaultKind :=
  [.badArgument, .incorrectTermination, .emptyWheel, .numericDataRequired, .notEnoughArgs,
   .divisionByZero, .undefinedFunction, .arithmeticError]

def name : FaultKind → String
  | .badArgument => "BAD_ARGUMENT"
  | .incorrectTermination => "INCORRECT_TERMINATION"
  | .emptyWheel => "EMPTY_VWHEEL"
  | .numericDataRequired => "NUMERIC_DATA_REQUIRED"
  | .notEnoughArgs => "NOT_ENOUGH_ARGS"
  | .divisionByZero => "DIVISION_BY_ZERO"
  | .undefinedFunction => "UNDEFINED_FUNCTION"
  | .arithmeticError => "ARITHMETIC_ERROR"

/-- An older spelling that handlers may still use. -/
def legacyName : FaultKind → String
  | .badArgument => "BAD_ARGUMENT_ERROR"
  | .incorrectTermination => "INCORRECT_TERMINATION_ERROR"
  | .emptyWheel => "EMPTY_VWHEEL_ERROR"
  | .numericDataRequired => "NUMERIC_DATA_ERROR"
  | .notEnoughArgs => "NOT_ENOUGH_ARGS_ERROR"
  | .divisionByZero => "DIVISION_BY_ZERO_ERROR"
  | .undefinedFunction => "UNDEFINED_FUNCTION_ERROR"
  | .arithmeticError => "ARITHMETIC_ERROR"

def message : FaultKind → String
  | .badArgument => "Bad argument"
  | .incorrectTermination => "Incorrect termination"
  | .emptyWheel => "Cannot operate on empty wheel"
  | .numericDataRequired => "Numeric data required in wheel"
  | .notEnoughArgs => "Not enough arguments"
  | .divisionByZero => "Division by zero"
  | .undefinedFunction => "Call to undefined function"
  | .arithmeticError => "Arithmetic error"

def ofName? (s : String) : Option FaultKind :=
  all.find? fun kind => kind.name == s || kind.legacyName == s

end FaultKind

def unknownKindMessage (word : String) : String := "unknown error kind '" ++ word ++ "'"

inductive Fault where
  /-- There is no value under the cursor. -/
  | emptyWheel
  /-- The value on the wheel, or the one it is compared with, is no integer. -/
  | notNumeric (v : Value)
  /-- An argument was wanted and none was there. -/
  | noArgument
  | queueShort (need queued : Nat)
  | tooFewOperands (op : Opcode) (least : Nat)
  | badDirection (arg : Int64)
  | negativeCount (count : Int64)
  /-- A value taken from the queue as an operand is no integer. -/
  | badOperand (v : Value)
  | divisionByZero
  | undefinedFunction (name : String)
  /-- A definition is not closed by a return. -/
  | openDefinition

namespace Fault

def kind : Fault → FaultKind
  | .emptyWheel => .emptyWheel
  | .notNumeric _ => .numericDataRequired
  | .noArgument => .notEnoughArgs
  | .queueShort _ _ => .notEnoughArgs
  | .tooFewOperands _ _ => .notEnoughArgs
  | .badDirection _ => .badArgument
  | .negativeCount _ => .badArgument
  | .badOperand _ => .arithmeticError
  | .divisionByZero => .divisionByZero
  | .undefinedFunction _ => .undefinedFunction
  | .openDefinition => .incorrectTermination

def described (v : Value) : String := v.typeName ++ " '" ++ v.display ++ "'"

def detail? : Fault → Option String
  | .emptyWheel => none
  | .notNumeric v => some ("found " ++ described v)
  | .noArgument => none
  | .queueShort need queued =>
    some ("need " ++ toString need ++ ", " ++ toString queued ++ " queued")
  | .tooFewOperands op least =>
    some (op.mnemonic ++ " needs at least " ++ toString least ++ " queued value")
  | .badDirection arg => some ("direction must be 1 or -1, got " ++ toString arg.toInt)
  | .negativeCount count => some ("negative argument count " ++ toString count.toInt)
  | .badOperand v => some ("Bad argument: " ++ described v)
  | .divisionByZero => none
  | .undefinedFunction name => some ("'" ++ name ++ "'")
  | .openDefinition => some "DEF without a following RET"

def message (f : Fault) : String :=
  match f.detail? with
  | some detail => f.kind.message ++ ": " ++ detail
  | none => f.kind.message

end Fault
end Wheelwork
