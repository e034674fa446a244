import Wheelwork.Report

/-!
Running and checking for a page that has only texts to give and to take: source and input in,
JSON out.
-/
namespace Wheelwork

def version : String := "0.1.1"

namespace Playground

def sourceName : String := "main.whl"

def stepLimit : Nat := 1000000

def run (source input : String) : Option String := do
  let lines := (Text.inputLines input.toList).map String.ofList
  let report ← runInMemory ⟨sourceName, source⟩ lines (some stepLimit)
  return report.json.compress

def check (source : String) : String := (Wheelwork.check ⟨sourceName, source⟩).json.compress

end Playground
end Wheelwork
