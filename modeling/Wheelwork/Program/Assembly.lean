import Wheelwork.Problem
import Wheelwork.Program.Basic
import Wheelwork.Token.Basic

/-!
Programs assembled from tokens: one instruction a line, a mnemonic and then its arguments in any
order. A line that is no instruction is reported and passed over.
-/
namespace Wheelwork

namespace Assembly

structure Line where
  instruction : Instruction
  textSpan : Span

/-- Of several arguments of one kind the last one counts. -/
def addArgument (line : Line) (token : Token) : Line :=
  match token.kind with
  | .integer n => { line with instruction.int := n }
  | .float x => { line with instruction.float := x }
  | .string s | .word s => { line with instruction.text := s, textSpan := token.span }
  | .args => { line with instruction.args := true }
  | .newline | .eof => line

def flaw? (head : Span) (line : Line) : Option (Problem × Span) :=
  match line.instruction.opcode with
  | .errh =>
    if line.instruction.hasText && (FaultKind.ofName? line.instruction.text).isNone then
      some (.unknownFaultKind line.instruction.text, line.textSpan)
    else none
  | .define | .call =>
    if line.instruction.hasText then none
    else some (.missingName line.instruction.opcode, head)
  | _ => none

def skipLine : List Token → List Token
  | [] => []
  | token :: rest => if token.kind.endsLine then token :: rest else skipLine rest

def takeArguments (line : Line) : List Token → Line × List Token
  | [] => (line, [])
  | token :: rest =>
    if token.kind.endsLine then (line, token :: rest)
    else takeArguments (addArgument line token) rest

def readLine (head : Token) (rest : List Token) : Except (Problem × Span) Line × List Token :=
  match head.kind with
  | .word w =>
    match Opcode.ofMnemonic? w with
    | none => (.error (.unknownMnemonic w, head.span), skipLine rest)
    | some opcode =>
      let first : Line := ⟨{ opcode, line := UInt32.ofNat head.span.line }, head.span⟩
      let (line, rest) := takeArguments first rest
      match flaw? head.span line with
      | some flaw => (.error flaw, rest)
      | none => (.ok line, rest)
  | kind => (.error (.expectedMnemonic kind.display, head.span), skipLine rest)

theorem takeArguments_rest (line : Line) (tokens : List Token) :
    (takeArguments line tokens).2 = skipLine tokens := by
  induction tokens generalizing line with
  | nil => rfl
  | cons token rest ih =>
    simp only [takeArguments, skipLine]
    split
    · rfl
    · exact ih _

/-- Sound or not, a line is read to its end and not beyond. -/
theorem readLine_rest (head : Token) (rest : List Token) : (readLine head rest).2 = skipLine rest := by
  unfold readLine
  split
  · split
    · rfl
    · simp only
      split
      · exact takeArguments_rest _ rest
      · exact takeArguments_rest _ rest
  · rfl

theorem skipLine_length (tokens : List Token) : (skipLine tokens).length ≤ tokens.length := by
  induction tokens with
  | nil => exact Nat.le_refl _
  | cons token rest ih =>
    simp only [skipLine]
    split
    · exact Nat.le_refl _
    · exact Nat.le_succ_of_le ih

structure State where
  instructions : Array Instruction := #[]
  /-- The names defined so far, each with the line of its first definition. -/
  defined : List (String × Nat) := []
  diagnostics : Diagnostics := .empty

def noteDefinition (source : Source) (s : State) (l : Line) : State :=
  let name := l.instruction.text
  match s.defined.lookup name with
  | none => { s with defined := (name, l.textSpan.line) :: s.defined }
  | some first =>
    let warning := (Problem.redefined name first).locate source l.textSpan
    { s with diagnostics := s.diagnostics.pushWarning warning }

def add (source : Source) (s : State) : Except (Problem × Span) Line → State
  | .error (problem, span) =>
    { s with diagnostics := s.diagnostics.pushError (problem.locate source span) }
  | .ok line =>
    let s := if line.instruction.opcode = .define then noteDefinition source s line else s
    { s with instructions := s.instructions.push line.instruction }

/-- Adds line after line until the tokens end or the diagnostics are full. -/
def addLines (source : Source) (s : State) : List Token → State
  | [] => s
  | token :: rest =>
    match token.kind with
    | .eof => s
    | .newline => addLines source s rest
    | _ =>
      if s.diagnostics.isFull then s
      else addLines source (add source s (readLine token rest).1) (readLine token rest).2
termination_by tokens => tokens.length
decreasing_by
  · simp
  · rw [readLine_rest]
    exact Nat.lt_succ_of_le (skipLine_length rest)

def assemble (source : Source) (tokens : List Token) : Option Program × Diagnostics :=
  let s := addLines source {} tokens
  (if s.diagnostics.hasErrors then none else some ⟨s.instructions⟩, s.diagnostics)

end Assembly
end Wheelwork
