import Wheelwork.CommandLine

/-!
The program: the command line on real files and streams.
-/
namespace Wheelwork.Live

def readSource (file : String) : IO (Except ReadError String) := do
  try
    let bytes ← IO.FS.readBinFile file
    match String.fromUTF8? bytes with
    | some text => return .ok text
    | none => return .error .notText
  catch
    | .noFileOrDirectory .. => return .error .notFound
    | .inappropriateType .. => return .error .isDirectory
    | e => return .error (.other (toString e))

def writeLine (line : String) : IO Unit := do
  let stdout ← IO.getStdout
  stdout.putStrLn line
  stdout.flush

partial def readBytes (stdin : IO.FS.Stream) (line : ByteArray) : IO ByteArray := do
  let bytes ← stdin.read 1
  let line := line ++ bytes
  if bytes.isEmpty || bytes.toList == [10] then return line else readBytes stdin line

def readLine : IO (Option String) := do
  let bytes ← readBytes (← IO.getStdin) ByteArray.empty
  if bytes.isEmpty then return none
  match String.fromUTF8? bytes with
  | some line => return some (Terminal.content line)
  | none => throw (IO.userError Terminal.notText.reason)

def attempt {α : Type} (action : IO α) : IO (Except HostError α) := do
  try
    return .ok (← action)
  catch e => return .error ⟨toString e⟩

def services : Services IO where
  writeLine line := attempt (writeLine line)
  readLine := attempt readLine
  sleep millis := IO.sleep (UInt32.ofNat (min millis (UInt32.size - 1)))

partial def drive (m : Machine) : IO (Machine × Except RunError Exit) := do
  match ← m.step services with
  | (m, .running) => drive m
  | (m, .finished exit) => return (m, .ok exit)
  | (m, .failed error) => return (m, .error error)

/-- Runs a source text on the standard streams, where the lines stand as soon as they are written. -/
def run (source : Source) (limit : Option Nat) : IO (Report × String) := do
  let loaded := load source
  match loaded.program with
  | none => return (.ofFailedLoad loaded.diagnostics, "")
  | some program =>
    let (m, result) ← drive (.start program limit)
    return (.ofRun result m.steps loaded.diagnostics loaded.fingerprint, "")

end Wheelwork.Live

open Wheelwork in
def main (args : List String) : IO UInt32 := do
  match Command.parse? args with
  | none =>
    IO.eprintln "usage: twist run FILE [--step-limit N] | check FILE | dump FILE [--emit text|json]"
    return 2
  | some command =>
    let result ← command.execute Live.readSource Live.run
    IO.print result.stdout
    IO.eprint result.stderr
    return UInt32.ofNat result.code
