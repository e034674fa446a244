import Wheelwork.Program.Assembly
import Wheelwork.Token.Lexer

/-!
Loading: from source text to a program or to the complaints that stand in its way.
-/
namespace Wheelwork

structure Load where
  program : Option Program
  diagnostics : Diagnostics

/-- Lines are put together only if all tokens are sound. -/
def load (source : Source) : Load :=
  let (tokens, found) := Lexer.lex source
  if found.hasErrors then ⟨none, found⟩
  else
    let (program, complaints) := Assembly.assemble source tokens
    ⟨program, found.extend complaints⟩

namespace Load

def success (l : Load) : Bool := l.program.isSome

def fingerprint (l : Load) : Option String := l.program.map Program.fingerprint

def json (l : Load) : Json :=
  .object [("success", .bool l.success), ("program", Json.ofOption Program.json l.program),
    ("errors", l.diagnostics.json), ("fingerprint", Json.ofOption .string l.fingerprint)]

end Load

def check (source : Source) : Diagnostics := (load source).diagnostics

end Wheelwork
