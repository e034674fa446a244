import Wheelwork.Load
import Wheelwork.Machine.Session

/-!
Loading and running in one, and the report on it.
-/
namespace Wheelwork

inductive ExitReason where
  | endOfStream
  | returned
  | fault
  | stepLimit
  | hostError
  | loadFailed
  deriving DecidableEq, Repr

namespace ExitReason

def ofExit : Exit → ExitReason
  | .endOfStream => .endOfStream
  | .returned => .returned

def name : ExitReason → String
  | .endOfStream => "end_of_stream"
  | .returned => "returned"
  | .fault => "fault"
  | .stepLimit => "step_limit"
  | .hostError => "host_error"
  | .loadFailed => "load_failed"

end ExitReason

structure Report where
  success : Bool
  exit : ExitReason
  steps : Nat
  /-- The lines written, where the host keeps them. -/
  output : Option (List String) := none
  crash : Option Crash := none
  /-- One line on what went wrong. -/
  error : Option String := none
  diagnostics : Diagnostics
  fingerprint : Option String

namespace Report

def ofFailedLoad (diagnostics : Diagnostics) : Report where
  success := false
  exit := .loadFailed
  steps := 0
  error := diagnostics.errors[0]?.map fun first =>
    toString diagnostics.totalErrors ++ " load error(s); first: " ++ first.display
  diagnostics := diagnostics
  fingerprint := none

def ofRun (result : Except RunError Exit) (steps : Nat) (diagnostics : Diagnostics)
    (fingerprint : Option String) : Report :=
  let report : Report :=
    { success := false, exit := .endOfStream, steps, diagnostics, fingerprint }
  match result with
  | .ok exit => { report with success := true, exit := .ofExit exit }
  | .error error =>
    let report := { report with error := some error.message }
    match error with
    | .fatal crash => { report with exit := .fault, crash := some crash }
    | .stepLimit _ => { report with exit := .stepLimit }
    | .host _ => { report with exit := .hostError }

def json (r : Report) : Json :=
  .object ([("success", .bool r.success), ("exit", .string r.exit.name),
    ("steps", Json.int r.steps)]
    ++ (match r.output with
      | some lines => [("output", .array (lines.map .string))]
      | none => [])
    ++ [("diagnostic", Json.ofOption Crash.json r.crash),
      ("error", Json.ofOption .string r.error), ("errors", r.diagnostics.json),
      ("fingerprint", Json.ofOption .string r.fingerprint)])

end Report

/-- Loads a source text and runs it on a host. A run that goes on for ever is not reported. -/
def runSource {σ : Type} [Host σ] (source : Source) (host : σ) (limit : Option Nat) :
    Option (Report × σ) :=
  let loaded := load source
  match loaded.program with
  | none => some (.ofFailedLoad loaded.diagnostics, host)
  | some program => do
    let (s, result) ← Session.run ⟨.start program limit, host⟩
    return (.ofRun result s.machine.steps loaded.diagnostics loaded.fingerprint, s.host)

def runInMemory (source : Source) (input : List String) (limit : Option Nat) : Option Report := do
  let (report, console) ← runSource source ({ input } : Console) limit
  if report.exit = .loadFailed then return report
  else return { report with output := some console.output.toList }

end Wheelwork
