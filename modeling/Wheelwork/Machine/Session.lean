import Wheelwork.Machine.Host
import Wheelwork.Machine.Turn

/-!
A machine at work on a host: single steps and whole runs.
-/
namespace Wheelwork

inductive RunError where
  | fatal (crash : Crash)
  | stepLimit (limit : Nat)
  | host (error : HostError)

def RunError.message : RunError → String
  | .fatal crash => crash.display
  | .stepLimit limit => "step limit of " ++ toString limit ++ " instructions exceeded"
  | .host error => "host i/o error: " ++ error.reason

inductive Progress where
  | running
  | finished (exit : Exit)
  | failed (error : RunError)

def Progress.result? : Progress → Option (Except RunError Exit)
  | .running => none
  | .finished exit => some (.ok exit)
  | .failed error => some (.error error)

namespace Machine

def progress (m : Machine) : Progress :=
  if m.atEnd then .finished .endOfStream else .running

@[specialize] def step {μ : Type → Type} [Monad μ] (services : Services μ) (m : Machine) :
    μ (Machine × Progress) :=
  match m.turn with
  | .go m => pure (m, m.progress)
  | .print lines m => do
    match ← (services.writeLines lines).run with
    | .ok _ => pure (m.advance, m.advance.progress)
    | .error e => pure (m, .failed (.host e))
  | .ask prompt i m => do
    match ← (services.askLine prompt).run with
    | .ok line =>
      match m.answer i line with
      | .ok m => pure (m, m.progress)
      | .error crash => pure (m, .failed (.fatal crash))
    | .error e => pure (m, .failed (.host e))
  | .pause millis m => do
    services.sleep millis
    pure (m.advance, m.advance.progress)
  | .exit how m => pure (m, .finished how)
  | .fault crash m => pure (m, .failed (.fatal crash))
  | .spent limit m => pure (m, .failed (.stepLimit limit))

end Machine

structure Session (σ : Type) where
  machine : Machine
  host : σ

namespace Session

variable {σ : Type} [Host σ]

def step (s : Session σ) : Session σ × Progress :=
  let ((machine, progress), host) := s.machine.step (Host.services σ) s.host
  (⟨machine, host⟩, progress)

/-- Steps until the run ends; without a result it goes on for ever. -/
def run (s : Session σ) : Option (Session σ × Except RunError Exit) :=
  let (s, progress) := s.step
  match progress.result? with
  | some result => some (s, result)
  | none => s |>.run
partial_fixpoint

end Session
end Wheelwork
