import Std.Data.TreeMap
import Wheelwork.Fault
import Wheelwork.Program.Basic

/-!
Where the functions of a program begin.
-/
namespace Wheelwork

structure FunctionEntry where
  /-- The index of the first instruction of the body. -/
  entry : Nat
  arity : Int64
  deriving DecidableEq, Repr

abbrev FunctionTable := Std.TreeMap String FunctionEntry

namespace FunctionTable

def insertDefinition (t : FunctionTable) (i : Instruction) (index : Nat) : FunctionTable :=
  if i.opcode = .define then t.insert i.text ⟨index + 1, i.int⟩ else t

/-- Of several definitions of one name the last one counts. -/
def ofProgram (p : Program) : FunctionTable :=
  p.instructions.toList.zipIdx.foldl (fun t (i, index) => insertDefinition t i index) ∅

def find (t : FunctionTable) (name : String) : Except Fault FunctionEntry :=
  match t[name]? with
  | some f => .ok f
  | none => .error (.undefinedFunction name)

def names (t : FunctionTable) : List String := t.keys

end FunctionTable
end Wheelwork
