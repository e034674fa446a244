import Wheelwork.Playground

/-!
The command line: which commands there are, and what each one prints.
-/
namespace Wheelwork

inductive Emit where
  | text
  | json
  deriving DecidableEq, Repr

inductive Command where
  | version
  | run (file : String) (limit : Option Nat)
  | check (file : String)
  | dump (file : String) (emit : Emit)

namespace Command

structure Arguments where
  files : List String := []
  values : List String := []

def splitOption (arg : String) : String × Option String :=
  let cs := arg.toList
  let name := String.ofList (cs.takeWhile (· != '='))
  match cs.dropWhile (· != '=') with
  | _ :: value => (name, some (String.ofList value))
  | [] => (name, none)

def isOption (arg : String) : Bool :=
  match arg.toList with
  | '-' :: _ :: _ => true
  | _ => false

def arguments? (option : Option String) : List String → Option Arguments
  | [] => some {}
  | arg :: rest =>
    if arg = "--" then some { files := rest }
    else if isOption arg then
      let (name, value) := splitOption arg
      if option ≠ some name then none
      else
        match value, rest with
        | some value, rest =>
          (arguments? option rest).map fun a => { a with values := value :: a.values }
        | none, value :: rest =>
          (arguments? option rest).map fun a => { a with values := value :: a.values }
        | none, [] => none
    else (arguments? option rest).map fun a => { a with files := arg :: a.files }

def single? (a : Arguments) : Option (String × Option String) :=
  match a.files, a.values with
  | [file], [] => if file = "" then none else some (file, none)
  | [file], [value] => if file = "" then none else some (file, some value)
  | _, _ => none

def emit? (value : String) : Option Emit :=
  if value = "text" then some .text else if value = "json" then some .json else none

/-- Whether an argument asks for the version. Short options are read from the left and the version
is told as soon as it is asked for, so what is joined to the `V` is never looked at. -/
def asksVersion (arg : String) : Bool :=
  match arg.toList with
  | '-' :: 'V' :: _ => true
  | _ => arg = "--version"

def parse? : List String → Option Command
  | "run" :: args => do
    let (file, value) ← single? (← arguments? (some "--step-limit") args)
    match value with
    | none => some (.run file none)
    | some value => (Text.readCount? value.toList).map fun limit => .run file (some limit)
  | "check" :: args => do
    let (file, _) ← single? (← arguments? none args)
    some (.check file)
  | "dump" :: args => do
    let (file, value) ← single? (← arguments? (some "--emit") args)
    match value with
    | none => some (.dump file .text)
    | some value => (emit? value).map (.dump file)
  | arg :: _ => if asksVersion arg then some .version else none
  | [] => none

end Command

inductive ReadError where
  | notFound
  | isDirectory
  | notText
  | other (reason : String)

def ReadError.message : ReadError → String
  | .notFound => "No such file or directory (os error 2)"
  | .isDirectory => "Is a directory (os error 21)"
  | .notText => "stream did not contain valid UTF-8"
  | .other reason => reason

structure Outcome where
  code : Nat
  stdout : String := ""
  stderr : String := ""

namespace Outcome

def refused : Outcome := { code := 2 }

def unreadable (file : String) (e : ReadError) : Outcome :=
  { code := 1, stderr := "error: cannot read " ++ file ++ ": " ++ e.message ++ "\n" }

def complaints (ds : Diagnostics) : String :=
  if ds.hasErrors || ds.hasWarnings then ds.display else ""

def ofReport (r : Report) (stdout : String) : Outcome :=
  let shown := complaints r.diagnostics
  match r.exit with
  | .endOfStream | .returned => { code := 0, stdout, stderr := shown }
  | .loadFailed => { code := 1, stdout, stderr := shown }
  | .fault | .stepLimit | .hostError =>
    let told := match r.error with
      | some error => "error: " ++ error ++ "\n"
      | none => ""
    { code := 1, stdout, stderr := shown ++ told }

def ofCheck (file : String) (l : Load) : Outcome :=
  let stderr := complaints l.diagnostics
  match l.program with
  | some program =>
    { code := 0, stdout := file ++ ": ok (" ++ toString program.size ++ " instructions)\n", stderr }
  | none => { code := 1, stderr }

def ofDump (emit : Emit) (l : Load) : Outcome :=
  let stderr := complaints l.diagnostics
  match l.program with
  | some program =>
    let stdout := match emit with
      | .text => "; sha256 " ++ program.fingerprint ++ "\n" ++ program.listing
      | .json => program.json.pretty ++ "\n"
    { code := 0, stdout, stderr }
  | none => { code := 1, stderr }

end Outcome

def Command.execute {μ : Type → Type} [Monad μ] (read : String → μ (Except ReadError String))
    (run : Source → Option Nat → μ (Report × String)) : Command → μ Outcome
  | .version => pure { code := 0, stdout := "twist " ++ Wheelwork.version ++ "\n" }
  | .run file limit => do
    match ← read file with
    | .error e => pure (.unreadable file e)
    | .ok text =>
      let (report, stdout) ← run ⟨file, text⟩ limit
      pure (.ofReport report stdout)
  | .check file => do
    match ← read file with
    | .error e => pure (.unreadable file e)
    | .ok text => pure (.ofCheck file (load ⟨file, text⟩))
  | .dump file emit => do
    match ← read file with
    | .error e => pure (.unreadable file e)
    | .ok text => pure (.ofDump emit (load ⟨file, text⟩))

/-- The whole command line, given the files that it can read and the standard input. A program that
goes on for ever leaves nothing behind. -/
def commandLine (args : List String) (read : String → Except ReadError String)
    (stdin : List UInt8) : Option Outcome :=
  let run := fun source limit => do
    let (report, terminal) ← runSource source (Terminal.ofBytes stdin) limit
    return (report, terminal.output)
  match Command.parse? args with
  | some command => command.execute (fun file => some (read file)) run
  | none => some .refused

end Wheelwork
