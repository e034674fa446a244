import Wheelwork.Text.Blank

/-!
Hosts: where lines go, where they come from, and who waits.
-/
namespace Wheelwork

structure HostError where
  reason : String
  deriving DecidableEq, Repr

class Host (σ : Type) where
  writeLine : String → σ → Except HostError Unit × σ
  /-- The next line of input, none at its end. -/
  readLine : σ → Except HostError (Option String) × σ
  /-- Waits for so many milliseconds. -/
  sleep : Nat → σ → σ

structure Services (μ : Type → Type) where
  writeLine : String → ExceptT HostError μ Unit
  readLine : ExceptT HostError μ (Option String)
  sleep : Nat → μ Unit

namespace Services

variable {μ : Type → Type} [Monad μ] (services : Services μ)

def writeLines : List String → ExceptT HostError μ Unit
  | [] => pure ()
  | line :: lines => do
    services.writeLine line
    writeLines lines

def askLine (prompt : Option String) : ExceptT HostError μ String := do
  services.writeLines prompt.toList
  let line ← services.readLine
  return line.getD ""

end Services

namespace Host

variable {σ : Type} [Host σ]

variable (σ) in
def services : Services (StateM σ) where
  writeLine line := (writeLine line : σ → _)
  readLine := (readLine : σ → _)
  sleep millis := fun h => ((), sleep millis h)

def writeLines (lines : List String) (h : σ) : Except HostError Unit × σ :=
  (services σ).writeLines lines h

def askLine (prompt : Option String) (h : σ) : Except HostError String × σ :=
  (services σ).askLine prompt h

end Host

structure Console where
  output : Array String := #[]
  input : List String := []
  sleeps : Array Nat := #[]

instance : Host Console where
  writeLine line c := (.ok (), { c with output := c.output.push line })
  readLine c :=
    match c.input with
    | [] => (.ok none, c)
    | line :: input => (.ok (some line), { c with input })
  sleep millis c := { c with sleeps := c.sleeps.push millis }

/-- A host that refuses to write or to read after so many lines. -/
structure Rationed (σ : Type) where
  inner : σ
  writes : Option Nat := none
  reads : Option Nat := none

namespace Rationed

def use? : Option Nat → Option (Option Nat)
  | none => some none
  | some 0 => none
  | some (n + 1) => some (some n)

end Rationed

instance {σ : Type} [Host σ] : Host (Rationed σ) where
  writeLine line r :=
    match Rationed.use? r.writes with
    | none => (.error ⟨"write refused"⟩, r)
    | some writes =>
      let (result, inner) := Host.writeLine line r.inner
      (result, { r with inner, writes })
  readLine r :=
    match Rationed.use? r.reads with
    | none => (.error ⟨"read refused"⟩, r)
    | some reads =>
      let (result, inner) := Host.readLine r.inner
      (result, { r with inner, reads })
  sleep millis r := { r with inner := Host.sleep millis r.inner }

structure Terminal where
  /-- The lines still to be read, with their ends; none for one that is not text. -/
  input : List (Option String)
  output : String := ""

namespace Terminal

def ofText (text : String) : Terminal :=
  { input := (Text.chunks (· == '\n') text.toList).map fun line => some (String.ofList line) }

/-- Where the input as a whole is not text, single lines of it may still be. -/
def ofBytes (bytes : List UInt8) : Terminal :=
  match String.fromUTF8? bytes.toByteArray with
  | some text => ofText text
  | none =>
    { input := (Text.chunks (· == 10) bytes).map fun line => String.fromUTF8? line.toByteArray }

def notText : HostError := ⟨"stream did not contain valid UTF-8"⟩

def isLineEnd (c : Char) : Bool := c == '\n' || c == '\r'

def content (line : String) : String :=
  String.ofList (Text.dropEndWhile isLineEnd line.toList)

end Terminal

instance : Host Terminal where
  writeLine line t := (.ok (), { t with output := t.output ++ line ++ "\n" })
  readLine t :=
    match t.input with
    | [] => (.ok none, t)
    | none :: input => (.error Terminal.notText, { t with input })
    | some line :: input => (.ok (some (Terminal.content line)), { t with input })
  sleep _ t := t

end Wheelwork
