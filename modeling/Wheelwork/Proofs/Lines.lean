import Mathlib.Data.List.Basic
import Wheelwork.Program.Assembly
import Wheelwork.Proofs.Reading

/-!
Assembly line by line. The tokens are cut at their newlines, every line that is not empty is read on
its own, and the program and the complaints are put together from the readings. This is the program
and these are the complaints that the assembly gives as it goes through the tokens once.
-/
namespace Wheelwork

namespace TokenKind

def integer? : TokenKind → Option Int64
  | .integer n => some n
  | _ => none

def float? : TokenKind → Option Float
  | .float x => some x
  | _ => none

def text? : TokenKind → Option String
  | .word s | .string s => some s
  | _ => none

def isMark : TokenKind → Bool
  | .args => true
  | _ => false

def isNewline : TokenKind → Bool
  | .newline => true
  | _ => false

end TokenKind

namespace Assembly

structure Row where
  head : Token
  arguments : List Token

def Row.ofTokens? : List Token → Option Row
  | [] => none
  | head :: arguments => some ⟨head, arguments⟩

def rows (tokens : List Token) : List Row :=
  (tokens.splitOnP fun t => t.kind.isNewline).filterMap Row.ofTokens?

def last {α : Type} (pick : Token → Option α) (tokens : List Token) : Option α :=
  (tokens.filterMap pick).getLast?

namespace Row

def lastText? (r : Row) : Option (String × Span) :=
  last (fun t => t.kind.text?.map (·, t.span)) r.arguments

def text (r : Row) : String := (r.lastText?.map Prod.fst).getD ""

def textSpan (r : Row) : Span := (r.lastText?.map Prod.snd).getD r.head.span

def instruction (r : Row) (opcode : Opcode) : Instruction where
  opcode := opcode
  int := (last (·.kind.integer?) r.arguments).getD 0
  text := r.text
  float := (last (·.kind.float?) r.arguments).getD 0
  args := r.arguments.any (·.kind.isMark)
  line := UInt32.ofNat r.head.span.line

/-- What the line says, or what is wrong with it and where. -/
def reading (r : Row) : Except (Problem × Span) Instruction :=
  match r.head.kind with
  | .word w =>
    match Opcode.ofMnemonic? w with
    | none => .error (.unknownMnemonic w, r.head.span)
    | some opcode =>
      if opcode = .errh ∧ r.text ≠ "" ∧ FaultKind.ofName? r.text = none then
        .error (.unknownFaultKind r.text, r.textSpan)
      else if (opcode = .define ∨ opcode = .call) ∧ r.text = "" then
        .error (.missingName opcode, r.head.span)
      else .ok (r.instruction opcode)
  | kind => .error (.expectedMnemonic kind.display, r.head.span)

def complaint? (r : Row) : Option (Problem × Span) :=
  match r.reading with
  | .error complaint => some complaint
  | .ok _ => none

def instruction? (r : Row) : Option Instruction := r.reading.toOption

def definition? (r : Row) : Option (String × Span) :=
  match r.reading with
  | .error _ => none
  | .ok i => if i.opcode = .define then some (i.text, r.textSpan) else none

end Row

def complaints (rs : List Row) : List (Problem × Span) := rs.filterMap Row.complaint?

def definitions (rs : List Row) : List (String × Span) := rs.filterMap Row.definition?

/-- The warning about a definition after these lines of a name that has been defined in one of them,
unless there were errors enough. -/
def warning? (source : Source) (before : List Row) (r : Row) : Option Diagnostic :=
  if (complaints before).length < Diagnostics.cap then
    r.definition?.bind fun (name, span) =>
      ((definitions before).find? fun d => d.1 = name).map fun (_, first) =>
        (Problem.redefined name first.line).locate source span
  else none

def warnings (source : Source) (rs : List Row) : List Diagnostic :=
  (List.range rs.length).filterMap fun k => rs[k]?.bind (warning? source (rs.take k))

def errors (source : Source) (rs : List Row) : List Diagnostic :=
  ((complaints rs).take Diagnostics.cap).map fun (problem, span) => problem.locate source span

def report (source : Source) (rs : List Row) : Diagnostics where
  errors := (errors source rs).toArray
  warnings := (warnings source rs).toArray
  totalErrors := (errors source rs).length
  totalWarnings := (warnings source rs).length

def assembled (source : Source) (rs : List Row) : Option Program × Diagnostics :=
  (if complaints rs = [] then some ⟨(rs.filterMap Row.instruction?).toArray⟩ else none,
    report source rs)

theorem last_cons {α : Type} (pick : Token → Option α) (t : Token) (rest : List Token)
    (otherwise : α) : (last pick (t :: rest)).getD otherwise =
      (last pick rest).getD ((pick t).getD otherwise) := by
  unfold last
  cases picked : pick t with
  | none => simp [picked]
  | some a =>
    simp only [List.filterMap_cons, picked, List.getLast?_cons, Option.getD_some]

theorem last_map {α β : Type} (pick : Token → Option α) (f : α → β) (tokens : List Token) :
    (last pick tokens).map f = last (fun t => (pick t).map f) tokens := by
  rw [last, ← List.getLast?_map, List.map_filterMap]
  rfl

theorem foldl_addArgument (arguments : List Token) (l : Line) :
    arguments.foldl addArgument l =
      ⟨{ l.instruction with
          int := (last (·.kind.integer?) arguments).getD l.instruction.int
          text := (last (·.kind.text?) arguments).getD l.instruction.text
          float := (last (·.kind.float?) arguments).getD l.instruction.float
          args := l.instruction.args || arguments.any (·.kind.isMark) },
        (last (fun t => t.kind.text?.map fun _ => t.span) arguments).getD l.textSpan⟩ := by
  induction arguments generalizing l with
  | nil => simp [last]
  | cons t rest ih =>
    rw [List.foldl_cons, ih]
    simp only [last_cons, List.any_cons]
    cases kind : t.kind <;>
      simp [addArgument, kind, TokenKind.integer?, TokenKind.text?, TokenKind.float?,
        TokenKind.isMark]

section Ends

variable {body rest : List Token}

theorem skipLine_line (inLine : ∀ t ∈ body, t.kind.endsLine = false)
    (stops : ∀ t ∈ rest.head?, t.kind.endsLine = true) : skipLine (body ++ rest) = rest := by
  induction body with
  | nil =>
    cases rest with
    | nil => rfl
    | cons t rest => simp [skipLine, stops t rfl]
  | cons t body ih =>
    have here := inLine t (by simp)
    simp only [List.cons_append, skipLine, here, Bool.false_eq_true, ↓reduceIte]
    exact ih fun u member => inLine u (by simp [member])

theorem takeArguments_line (inLine : ∀ t ∈ body, t.kind.endsLine = false)
    (stops : ∀ t ∈ rest.head?, t.kind.endsLine = true) (l : Line) :
    takeArguments l (body ++ rest) = (body.foldl addArgument l, rest) := by
  apply Prod.ext
  · induction body generalizing l with
    | nil =>
      cases rest with
      | nil => rfl
      | cons t rest => simp [takeArguments, stops t rfl]
    | cons t body ih =>
      have here := inLine t (by simp)
      simp only [List.cons_append, takeArguments, here, Bool.false_eq_true, ↓reduceIte]
      exact ih (fun u member => inLine u (by simp [member])) _
  · rw [takeArguments_rest]
    exact skipLine_line inLine stops

end Ends

namespace Row

theorem text_eq (r : Row) : r.text = (last (·.kind.text?) r.arguments).getD "" := by
  simp [text, lastText?, last_map, Function.comp_def]

theorem textSpan_eq (r : Row) :
    r.textSpan =
      (last (fun t => t.kind.text?.map fun _ => t.span) r.arguments).getD r.head.span := by
  simp [textSpan, lastText?, last_map, Function.comp_def]

theorem fold_eq (r : Row) (opcode : Opcode) :
    r.arguments.foldl addArgument
      ⟨{ opcode, line := UInt32.ofNat r.head.span.line }, r.head.span⟩ =
        ⟨r.instruction opcode, r.textSpan⟩ := by
  rw [foldl_addArgument, textSpan_eq]
  simp [instruction, text_eq]

theorem flaw_eq (r : Row) (opcode : Opcode) :
    flaw? r.head.span ⟨r.instruction opcode, r.textSpan⟩ =
      if opcode = .errh ∧ r.text ≠ "" ∧ FaultKind.ofName? r.text = none then
        some (.unknownFaultKind r.text, r.textSpan)
      else if (opcode = .define ∨ opcode = .call) ∧ r.text = "" then
        some (.missingName opcode, r.head.span)
      else none := by
  have op : (r.instruction opcode).opcode = opcode := rfl
  have text : (r.instruction opcode).text = r.text := rfl
  simp only [flaw?, op, text, Instruction.hasText]
  cases opcode with
  | errh => simp
  | define | call => simp
  | _ => simp

def read (r : Row) : Except (Problem × Span) Line :=
  match r.reading with
  | .error complaint => .error complaint
  | .ok i => .ok ⟨i, r.textSpan⟩

/-- Whatever the line comes to, it is read up to where it ends. -/
theorem readLine_eq (r : Row) {rest : List Token}
    (inLine : ∀ t ∈ r.arguments, t.kind.endsLine = false)
    (stops : ∀ t ∈ rest.head?, t.kind.endsLine = true) :
    readLine r.head (r.arguments ++ rest) = (r.read, rest) := by
  unfold readLine read reading
  cases kind : r.head.kind with
  | word w =>
    simp only
    cases Opcode.ofMnemonic? w with
    | none => simp only [skipLine_line inLine stops]
    | some opcode =>
      simp only [takeArguments_line inLine stops, fold_eq, flaw_eq]
      by_cases kindless : opcode = .errh ∧ r.text ≠ "" ∧ FaultKind.ofName? r.text = none
      · simp only [if_pos kindless]
      · by_cases nameless : (opcode = .define ∨ opcode = .call) ∧ r.text = ""
        · simp only [if_neg kindless, if_pos nameless]
        · simp only [if_neg kindless, if_neg nameless]
  | integer | float | string | args | newline | eof => simp only [skipLine_line inLine stops]

end Row

theorem rows_append (one other : List Token) (place : Span) :
    rows (one ++ ⟨.newline, place⟩ :: other) = rows one ++ rows other := by
  unfold rows
  rw [List.splitOnP_append_cons one other rfl, List.filterMap_append]

theorem rows_line {head : Token} {arguments : List Token}
    (inLine : ∀ t ∈ head :: arguments, t.kind.isNewline = false) :
    rows (head :: arguments) = [⟨head, arguments⟩] := by
  unfold rows
  rw [List.splitOnP_eq_singleton inLine]
  rfl

theorem cut_line (tokens : List Token) :
    (∀ t ∈ tokens, t.kind.isNewline = false) ∨ ∃ body place more,
      tokens = body ++ ⟨.newline, place⟩ :: more ∧ ∀ t ∈ body, t.kind.isNewline = false := by
  induction tokens with
  | nil => exact .inl (by simp)
  | cons t rest ih =>
    by_cases newline : t.kind = .newline
    · obtain ⟨kind, place⟩ := t
      subst newline
      exact .inr ⟨[], place, rest, rfl, by simp⟩
    · have plain : t.kind.isNewline = false := by
        cases kind : t.kind with
        | newline => exact absurd kind newline
        | word | integer | float | string | args | eof => rfl
      rcases ih with none | ⟨body, place, more, rfl, none⟩
      · exact .inl (by simpa [plain] using none)
      · exact .inr ⟨t :: body, place, more, rfl, by simpa [plain] using none⟩

/-- Tokens are one line, or a line, a newline and the lines after it. -/
@[elab_as_elim]
theorem line_induction {motive : List Token → Prop}
    (line : ∀ body, (∀ t ∈ body, t.kind.isNewline = false) → motive body)
    (broken : ∀ body place more, (∀ t ∈ body, t.kind.isNewline = false) → motive body →
      motive more → motive (body ++ ⟨.newline, place⟩ :: more))
    (tokens : List Token) : motive tokens := by
  induction count : tokens.length using Nat.strongRecOn generalizing tokens with
  | ind size ih =>
    rcases cut_line tokens with oneLine | ⟨body, place, more, rfl, oneLine⟩
    · exact line tokens oneLine
    · have shorter : more.length < size := by
        rw [← count, List.length_append, List.length_cons]
        omega
      exact broken body place more oneLine (line body oneLine) (ih more.length shorter more rfl)

section Rows

variable (source : Source) {s : State} {head : Token} {arguments rest : List Token}

theorem addLines_full (full : s.diagnostics.isFull = true) (tokens : List Token) :
    addLines source s tokens = s := by
  induction tokens with
  | nil => rw [addLines]
  | cons t rest ih =>
    rw [addLines]
    split
    · rfl
    · exact ih
    · simp only [full, ↓reduceIte]

theorem addLines_head {head : Token} (starts : head.kind.endsLine = false)
    (room : s.diagnostics.isFull = false) (rest : List Token) :
    addLines source s (head :: rest) =
      addLines source (add source s (readLine head rest).1) (readLine head rest).2 := by
  rw [addLines]
  split
  · rename_i kind
    simp [kind, TokenKind.endsLine] at starts
  · rename_i kind
    simp [kind, TokenKind.endsLine] at starts
  · simp only [room, Bool.false_eq_true, ↓reduceIte]

theorem addLines_row {r : Row} (starts : r.head.kind.endsLine = false)
    (inLine : ∀ t ∈ r.arguments, t.kind.endsLine = false)
    (stops : ∀ t ∈ rest.head?, t.kind.endsLine = true) (room : s.diagnostics.isFull = false) :
    addLines source s (r.head :: (r.arguments ++ rest)) =
      addLines source (add source s r.read) rest := by
  rw [addLines_head source starts room, r.readLine_eq inLine stops]

theorem addLines_newline (place : Span) (rest : List Token) :
    addLines source s (⟨.newline, place⟩ :: rest) = addLines source s rest := by rw [addLines]

def addRows (s : State) : List Row → State
  | [] => s
  | r :: rest =>
    if s.diagnostics.isFull then s else addRows (add source s r.read) rest

theorem addRows_full (full : s.diagnostics.isFull = true) (rs : List Row) :
    addRows source s rs = s := by
  cases rs with
  | nil => rfl
  | cons r rest => simp only [addRows, full, ↓reduceIte]

theorem addRows_append (one other : List Row) (s : State) :
    addRows source s (one ++ other) = addRows source (addRows source s one) other := by
  induction one generalizing s with
  | nil => rfl
  | cons r rest ih =>
    rw [List.cons_append, addRows, addRows]
    split
    · rename_i full
      rw [addRows_full source full]
    · exact ih _

theorem endsLine_eq {t : Token} (goesOn : t.kind ≠ .eof) : t.kind.endsLine = t.kind.isNewline := by
  cases kind : t.kind with
  | eof => exact absurd kind goesOn
  | word | integer | float | string | args | newline => rfl

theorem addLines_body {body : List Token} (goesOn : ∀ t ∈ body, t.kind ≠ .eof)
    (oneLine : ∀ t ∈ body, t.kind.isNewline = false)
    (stops : ∀ t ∈ rest.head?, t.kind.endsLine = true) (s : State) :
    addLines source s (body ++ rest) = addLines source (addRows source s (rows body)) rest := by
  cases body with
  | nil => rfl
  | cons head arguments =>
    have inLine : ∀ t ∈ head :: arguments, t.kind.endsLine = false := by
      intro t member
      rw [endsLine_eq (goesOn t member), oneLine t member]
    rw [rows_line oneLine]
    cases room : s.diagnostics.isFull with
    | true => rw [addRows_full source room, addLines_full source room, addLines_full source room]
    | false =>
      have one : addRows source s [⟨head, arguments⟩] = add source s (Row.read ⟨head, arguments⟩) := by
        simp [addRows, room]
      rw [one, List.cons_append]
      exact addLines_row source (r := ⟨head, arguments⟩) (inLine head (by simp))
        (fun t member => inLine t (by simp [member])) stops room

theorem addLines_rows (place : Span) {tokens : List Token} (goesOn : ∀ t ∈ tokens, t.kind ≠ .eof)
    (s : State) :
    addLines source s (tokens ++ [⟨.eof, place⟩]) = addRows source s (rows tokens) := by
  induction tokens using line_induction generalizing s with
  | line body oneLine =>
    rw [addLines_body source goesOn oneLine (by simp [TokenKind.endsLine]), addLines]
  | broken body mark more oneLine _ ih =>
    have within : ∀ t ∈ body, t.kind ≠ .eof := fun t member => goesOn t (by simp [member])
    have later : ∀ t ∈ more, t.kind ≠ .eof := fun t member => goesOn t (by simp [member])
    rw [List.append_assoc, addLines_body source within oneLine (by simp [TokenKind.endsLine]),
      List.cons_append, addLines_newline, ih later, rows_append, addRows_append]

end Rows

section Tally

variable (source : Source) {done : List Row} {s : State}

theorem filterMap_snoc {α β : Type} (f : α → Option β) (done : List α) (a : α) :
    (done ++ [a]).filterMap f = done.filterMap f ++ (f a).toList := by
  rw [List.filterMap_append]
  cases given : f a with
  | none => simp [given]
  | some b => simp [given]

theorem errors_snoc (done : List Row) (r : Row) :
    errors source (done ++ [r]) = errors source done ++
      if (complaints done).length < Diagnostics.cap then
        r.complaint?.toList.map fun (problem, span) => problem.locate source span
      else [] := by
  have added : complaints (done ++ [r]) = complaints done ++ r.complaint?.toList :=
    filterMap_snoc _ done r
  unfold errors
  rw [added]
  split
  · rename_i room
    have few : (complaints done ++ r.complaint?.toList).length ≤ Diagnostics.cap := by
      rw [List.length_append]
      cases r.complaint? with
      | none => exact Nat.le_of_lt room
      | some complaint => exact room
    rw [List.take_of_length_le few, List.take_of_length_le (Nat.le_of_lt room), List.map_append]
  · rename_i full
    rw [List.take_append_of_le_length (Nat.not_lt.mp full), List.append_nil]

theorem warnings_snoc (done : List Row) (r : Row) :
    warnings source (done ++ [r]) = warnings source done ++ (warning? source done r).toList := by
  have early : ∀ k ∈ List.range done.length,
      (done ++ [r])[k]?.bind (warning? source ((done ++ [r]).take k)) =
        done[k]?.bind (warning? source (done.take k)) := by
    intro k member
    have inside := List.mem_range.mp member
    rw [List.getElem?_append_left inside, List.take_append_of_le_length (Nat.le_of_lt inside)]
  unfold warnings
  rw [List.length_append, List.length_singleton, List.range_succ, filterMap_snoc,
    List.filterMap_congr early]
  simp

/-- What the assembly has done when it has been through these lines. -/
structure Tallied (done : List Row) (s : State) : Prop where
  instructions : s.instructions.toList = done.filterMap Row.instruction?
  diagnostics : s.diagnostics = report source done
  defined : ∀ name, s.defined.lookup name =
    ((definitions done).find? fun d => d.1 = name).map fun d => d.2.line

theorem errors_length (rs : List Row) :
    (errors source rs).length = min Diagnostics.cap (complaints rs).length := by
  simp [errors]

theorem report_full (rs : List Row) :
    (report source rs).isFull = true ↔ Diagnostics.cap ≤ (complaints rs).length := by
  simp only [Diagnostics.isFull, report, errors_length, decide_eq_true_eq]
  omega

theorem report_error {r : Row} {problem : Problem} {span : Span}
    (room : (complaints done).length < Diagnostics.cap)
    (wrong : r.reading = .error (problem, span)) :
    report source (done ++ [r]) = (report source done).pushError (problem.locate source span) := by
  have complaint : r.complaint? = some (problem, span) := by simp [Row.complaint?, wrong]
  have silent : warning? source done r = none := by
    simp [warning?, Row.definition?, wrong]
  have size : (errors source done).length < Diagnostics.cap := by
    rw [errors_length]
    omega
  simp only [report, errors_snoc, warnings_snoc, room, complaint, silent, Diagnostics.pushError]
  simp [size]

theorem report_sound {r : Row} {i : Instruction} (sound : r.reading = .ok i) :
    report source (done ++ [r]) =
      match warning? source done r with
      | none => report source done
      | some warning => (report source done).pushWarning warning := by
  have none : r.complaint? = none := by simp [Row.complaint?, sound]
  simp only [report, errors_snoc, warnings_snoc, none]
  cases warning? source done r with
  | none => simp
  | some warning => simp [Diagnostics.pushWarning]

theorem report_over {r : Row} (full : Diagnostics.cap ≤ (complaints done).length) :
    report source (done ++ [r]) = report source done := by
  have many : ¬ (complaints done).length < Diagnostics.cap := Nat.not_lt.mpr full
  simp [report, errors_snoc, warnings_snoc, warning?, many]

theorem find_snoc (ds : List (String × Span)) (d : String × Span) (name : String) :
    (ds ++ [d]).find? (fun d => d.1 = name) =
      (ds.find? fun d => d.1 = name).or (if d.1 = name then some d else none) := by
  rw [List.find?_append]
  split
  · rename_i same
    simp [same]
  · rename_i other
    simp [other]

theorem Tallied.bad {r : Row} {problem : Problem} {span : Span} (tallied : Tallied source done s)
    (room : (complaints done).length < Diagnostics.cap)
    (wrong : r.reading = .error (problem, span)) :
    Tallied source (done ++ [r]) (add source s r.read) := by
  have read : r.read = .error (problem, span) := by rw [Row.read, wrong]
  have skipped : r.instruction? = none := by simp [Row.instruction?, wrong, Except.toOption]
  have unnamed : r.definition? = none := by simp [Row.definition?, wrong]
  simp only [add, read]
  refine ⟨?_, ?_, ?_⟩
  · simp [skipped, tallied.instructions]
  · rw [report_error source room wrong, tallied.diagnostics]
  · intro name
    rw [definitions, filterMap_snoc, unnamed, ← definitions, tallied.defined]
    simp

theorem noteDefinition_tallied {r : Row} {i : Instruction} (tallied : Tallied source done s)
    (room : (complaints done).length < Diagnostics.cap) (sound : r.reading = .ok i)
    (op : i.opcode = .define) :
    (noteDefinition source s ⟨i, r.textSpan⟩).instructions = s.instructions ∧
      (noteDefinition source s ⟨i, r.textSpan⟩).diagnostics = report source (done ++ [r]) ∧
      ∀ name, (noteDefinition source s ⟨i, r.textSpan⟩).defined.lookup name =
        ((definitions (done ++ [r])).find? fun d => d.1 = name).map fun d => d.2.line := by
  have named : r.definition? = some (i.text, r.textSpan) := by simp [Row.definition?, sound, op]
  have known := tallied.defined i.text
  have more : definitions (done ++ [r]) = definitions done ++ [(i.text, r.textSpan)] := by
    rw [definitions, filterMap_snoc, named]
    rfl
  rw [report_sound source sound, warning?, if_pos room, named, more]
  simp only [noteDefinition, find_snoc]
  cases earlier : (definitions done).find? fun d => d.1 = i.text with
  | none =>
    rw [earlier, Option.map_none] at known
    simp only [known]
    refine ⟨trivial, ?_, ?_⟩
    · simp [earlier, tallied.diagnostics]
    · intro name
      by_cases same : i.text = name
      · subst same
        simp [earlier]
      · have other : (name == i.text) = false := by simpa using Ne.symm same
        simp [List.lookup_cons, other, same, tallied.defined]
  | some first =>
    rw [earlier, Option.map_some] at known
    simp only [known]
    refine ⟨trivial, ?_, ?_⟩
    · simp [earlier, tallied.diagnostics]
    · intro name
      by_cases same : i.text = name
      · subst same
        simp [earlier, known]
      · simp [same, tallied.defined]

theorem Tallied.good {r : Row} {i : Instruction} (tallied : Tallied source done s)
    (room : (complaints done).length < Diagnostics.cap) (sound : r.reading = .ok i) :
    Tallied source (done ++ [r]) (add source s r.read) := by
  have read : r.read = .ok ⟨i, r.textSpan⟩ := by rw [Row.read, sound]
  have added : r.instruction? = some i := by simp [Row.instruction?, sound, Except.toOption]
  simp only [add, read]
  split
  · rename_i op
    obtain ⟨kept, diagnostics, defined⟩ := noteDefinition_tallied source tallied room sound op
    refine ⟨?_, diagnostics, defined⟩
    simp [kept, added, tallied.instructions]
  · rename_i op
    have unnamed : r.definition? = none := by simp [Row.definition?, sound, op]
    refine ⟨?_, ?_, ?_⟩
    · simp [added, tallied.instructions]
    · rw [report_sound source sound, warning?, unnamed]
      simp [tallied.diagnostics]
    · intro name
      rw [definitions, filterMap_snoc, unnamed, ← definitions, tallied.defined]
      simp

theorem Tallied.row (tallied : Tallied source done s)
    (room : (complaints done).length < Diagnostics.cap) (r : Row) :
    Tallied source (done ++ [r]) (add source s r.read) := by
  cases read : r.reading with
  | error complaint => exact tallied.bad source room read
  | ok i => exact tallied.good source room read

def outcome (s : State) : Option Program × Diagnostics :=
  (if s.diagnostics.hasErrors then none else some ⟨s.instructions⟩, s.diagnostics)

theorem report_hasErrors (rs : List Row) :
    (report source rs).hasErrors = true ↔ complaints rs ≠ [] := by
  simp only [Diagnostics.hasErrors, report, errors_length, decide_eq_true_eq, ne_eq,
    ← List.length_eq_zero_iff, Diagnostics.cap]
  omega

theorem Tallied.outcome_eq (tallied : Tallied source done s) :
    outcome s = assembled source done := by
  unfold outcome assembled
  rw [tallied.diagnostics]
  by_cases wrong : complaints done = []
  · have clean : (report source done).hasErrors = false := by
      rw [Bool.eq_false_iff, Ne, report_hasErrors]
      simpa using wrong
    have same : s.instructions = (done.filterMap Row.instruction?).toArray := by
      rw [← tallied.instructions]
    simp [clean, wrong, same]
  · simp [(report_hasErrors source done).mpr wrong, wrong]

theorem assembled_full (full : Diagnostics.cap ≤ (complaints done).length) (rest : List Row) :
    assembled source (done ++ rest) = assembled source done := by
  induction rest generalizing done with
  | nil => rw [List.append_nil]
  | cons r rest ih =>
    have more : Diagnostics.cap ≤ (complaints (done ++ [r])).length := by
      rw [complaints, filterMap_snoc, List.length_append]
      exact Nat.le_trans full (Nat.le_add_right _ _)
    have wrong : ∀ {rs : List Row}, Diagnostics.cap ≤ (complaints rs).length →
        complaints rs ≠ [] := by
      intro rs full none
      simp [none, Diagnostics.cap] at full
    rw [← List.singleton_append, ← List.append_assoc, ih more]
    unfold assembled
    rw [if_neg (wrong full), if_neg (wrong more), report_over source full]

/-- Over all lines the tally goes on until it is full, and then nothing changes any more. -/
theorem addRows_outcome (tallied : Tallied source done s) (rest : List Row) :
    outcome (addRows source s rest) = assembled source (done ++ rest) := by
  induction rest generalizing done s with
  | nil =>
    rw [List.append_nil]
    exact tallied.outcome_eq source
  | cons r rest ih =>
    rw [addRows]
    split
    · rename_i full
      rw [tallied.diagnostics, report_full] at full
      rw [assembled_full source full, tallied.outcome_eq source]
    · rename_i room
      rw [tallied.diagnostics, report_full, Nat.not_le] at room
      rw [ih (tallied.row source room r), List.append_assoc, List.singleton_append]

theorem tallied_nil : Tallied source [] {} := ⟨rfl, rfl, fun _ => rfl⟩

theorem assemble_rows {tokens : List Token} (goesOn : ∀ t ∈ tokens, t.kind ≠ .eof) (place : Span) :
    assemble source (tokens ++ [⟨.eof, place⟩]) = assembled source (rows tokens) := by
  change outcome (addLines source {} (tokens ++ [⟨.eof, place⟩])) = _
  rw [addLines_rows source place goesOn, addRows_outcome source (tallied_nil source),
    List.nil_append]

end Tally

/-- The line is bad, with this number and at this place. -/
inductive Row.Bad (r : Row) : (code : Nat) → Span → Prop where
  | head (other : ∀ w, r.head.kind ≠ .word w) : Bad r 103 r.head.span
  | mnemonic {w : String} (word : r.head.kind = .word w) (unknown : Opcode.ofMnemonic? w = none) :
      Bad r 200 r.head.span
  | kind {w text : String} {span : Span} (word : r.head.kind = .word w)
      (op : Opcode.ofMnemonic? w = some .errh) (last : r.lastText? = some (text, span))
      (filled : text ≠ "") (unknown : FaultKind.ofName? text = none) : Bad r 201 span
  | name {w : String} {opcode : Opcode} (word : r.head.kind = .word w)
      (op : Opcode.ofMnemonic? w = some opcode) (named : opcode = .define ∨ opcode = .call)
      (missing : ∀ text span, r.lastText? = some (text, span) → text = "") : Bad r 202 r.head.span

namespace Row

variable {r : Row}

theorem text_filled (filled : r.text ≠ "") : r.lastText? = some (r.text, r.textSpan) := by
  unfold text textSpan at *
  cases found : r.lastText? with
  | none => simp [found] at filled
  | some place => simp

theorem text_missing :
    r.text = "" ↔ ∀ text span, r.lastText? = some (text, span) → text = "" := by
  unfold text
  cases found : r.lastText? with
  | none => simp
  | some place => simp [Prod.ext_iff]

theorem bad_of_complaint {problem : Problem} {span : Span}
    (complaint : r.complaint? = some (problem, span)) : r.Bad problem.code span := by
  unfold complaint? reading at complaint
  cases kind : r.head.kind with
  | word w =>
    simp only [kind] at complaint
    cases op : Opcode.ofMnemonic? w with
    | none =>
      simp only [op, Option.some.injEq, Prod.mk.injEq] at complaint
      obtain ⟨rfl, rfl⟩ := complaint
      exact .mnemonic kind op
    | some opcode =>
      simp only [op] at complaint
      by_cases kindless : opcode = .errh ∧ r.text ≠ "" ∧ FaultKind.ofName? r.text = none
      · simp only [if_pos kindless, Option.some.injEq, Prod.mk.injEq] at complaint
        obtain ⟨rfl, rfl⟩ := complaint
        obtain ⟨rfl, filled, unknown⟩ := kindless
        exact .kind kind op (text_filled filled) filled unknown
      · by_cases nameless : (opcode = .define ∨ opcode = .call) ∧ r.text = ""
        · simp only [if_neg kindless, if_pos nameless, Option.some.injEq, Prod.mk.injEq]
            at complaint
          obtain ⟨rfl, rfl⟩ := complaint
          exact .name kind op nameless.1 (text_missing.mp nameless.2)
        · simp [if_neg kindless, if_neg nameless] at complaint
  | integer | float | string | args | newline | eof =>
    simp only [kind, Option.some.injEq, Prod.mk.injEq] at complaint
    obtain ⟨rfl, rfl⟩ := complaint
    exact .head (by simp [kind])

theorem complaint_of_bad {code : Nat} {span : Span} (bad : r.Bad code span) :
    ∃ problem, r.complaint? = some (problem, span) ∧ problem.code = code := by
  unfold complaint? reading
  cases bad with
  | head other =>
    cases kind : r.head.kind with
    | word w => exact absurd kind (other w)
    | integer | float | string | args | newline | eof => exact ⟨_, rfl, rfl⟩
  | mnemonic word unknown =>
    simp only [word, unknown]
    exact ⟨_, rfl, rfl⟩
  | @kind w text span word op last filled unknown =>
    have same : r.text = text := by simp [Row.text, last]
    have place : r.textSpan = span := by simp [textSpan, last]
    refine ⟨.unknownFaultKind text, ?_, rfl⟩
    simp [word, op, same, place, filled, unknown]
  | @name w opcode word op named missing =>
    have empty := text_missing.mpr missing
    have kindless : ¬ (opcode = .errh ∧ r.text ≠ "" ∧ FaultKind.ofName? r.text = none) :=
      fun filled => filled.2.1 empty
    simp only [word, op, if_neg kindless, if_pos (And.intro named empty)]
    exact ⟨_, rfl, rfl⟩

theorem reading_ok {i : Instruction} (read : r.reading = .ok i) :
    ∃ w opcode, r.head.kind = .word w ∧ Opcode.ofMnemonic? w = some opcode ∧
      i = r.instruction opcode := by
  unfold reading at read
  cases kind : r.head.kind with
  | word w =>
    simp only [kind] at read
    cases op : Opcode.ofMnemonic? w with
    | none => simp [op] at read
    | some opcode =>
      refine ⟨w, opcode, rfl, op, ?_⟩
      simp only [op] at read
      split at read
      · simp at read
      · split at read
        · simp at read
        · exact (Except.ok.inj read).symm
  | integer | float | string | args | newline | eof => simp [kind] at read

theorem good_reading (good : ∀ code span, ¬ r.Bad code span) :
    ∃ w opcode, r.head.kind = .word w ∧ Opcode.ofMnemonic? w = some opcode ∧
      r.instruction? = some (r.instruction opcode) := by
  cases read : r.reading with
  | error complaint =>
    have told : r.complaint? = some (complaint.1, complaint.2) := by simp [complaint?, read]
    exact absurd (bad_of_complaint told) (good _ _)
  | ok i =>
    obtain ⟨w, opcode, word, op, rfl⟩ := reading_ok read
    exact ⟨w, opcode, word, op, by simp [instruction?, read, Except.toOption]⟩

end Row

/-- Tokens that an end token closes are assembled as their lines are read one by one: the errors
are about the first bad lines, as many as there is room for, the warnings about names defined again
before that, and the program has the instructions of all lines if none is bad. -/
theorem assemble_line_by_line (source : Source) {tokens : List Token}
    (goesOn : ∀ t ∈ tokens, t.kind ≠ .eof) (place : Span) :
    assemble source (tokens ++ [⟨.eof, place⟩]) = assembled source (rows tokens) ∧
      ∀ r ∈ rows tokens,
        (∀ code span, (∃ problem, r.complaint? = some (problem, span) ∧ problem.code = code) ↔
          r.Bad code span) ∧
        ((∀ code span, ¬ r.Bad code span) → ∃ w opcode, r.head.kind = .word w ∧
          Opcode.ofMnemonic? w = some opcode ∧ r.instruction? = some (r.instruction opcode)) := by
  refine ⟨assemble_rows source goesOn place, ?_⟩
  intro r _
  refine ⟨?_, ?_⟩
  · intro code span
    constructor
    · rintro ⟨problem, complaint, rfl⟩
      exact Row.bad_of_complaint complaint
    · exact Row.complaint_of_bad
  · exact Row.good_reading

def repeatedTokens (kind : String) : List Token :=
  [⟨.word "DEF", ⟨1, 1, 3⟩⟩, ⟨.word "f", ⟨1, 5, 5⟩⟩, ⟨.newline, .point 1 6⟩, ⟨.newline, .point 2 1⟩,
    ⟨.word "DEF", ⟨3, 1, 3⟩⟩, ⟨.integer 4, ⟨3, 5, 5⟩⟩, ⟨.string "f", ⟨3, 7, 9⟩⟩,
    ⟨.integer 5, ⟨3, 11, 11⟩⟩, ⟨.newline, .point 3 12⟩,
    ⟨.word "ERRH", ⟨4, 1, 4⟩⟩, ⟨.word kind, ⟨4, 6, 9⟩⟩, ⟨.args, ⟨4, 11, 11⟩⟩]

theorem repeated_tokens_assembled :
    (∀ t ∈ repeatedTokens "OOPS", t.kind ≠ .eof) ∧
      (assemble ⟨"main.whl", ""⟩ (repeatedTokens "OOPS" ++ [⟨.eof, .point 4 12⟩])).1 = none ∧
      (assemble ⟨"main.whl", ""⟩
        (repeatedTokens "OOPS" ++ [⟨.eof, .point 4 12⟩])).2.errors.toList.map
          (fun d => (d.code, d.span)) = [(201, ⟨4, 6, 9⟩)] ∧
      (assemble ⟨"main.whl", ""⟩
        (repeatedTokens "OOPS" ++ [⟨.eof, .point 4 12⟩])).2.warnings.toList.map
          (fun d => (d.code, d.span)) = [(300, ⟨3, 7, 9⟩)] ∧
      (assemble ⟨"main.whl", ""⟩ (repeatedTokens "" ++ [⟨.eof, .point 4 12⟩])).1 = some
        ⟨#[{ opcode := .define, text := "f", line := 1 },
          { opcode := .define, int := 5, text := "f", line := 3 },
          { opcode := .errh, args := true, line := 4 }]⟩ := by
  have goesOn : ∀ kind, ∀ t ∈ repeatedTokens kind, t.kind ≠ .eof := by
    intro kind
    simp [repeatedTokens]
  have bad := (assemble_line_by_line ⟨"main.whl", ""⟩ (goesOn "OOPS") (.point 4 12)).1
  have good := (assemble_line_by_line ⟨"main.whl", ""⟩ (goesOn "") (.point 4 12)).1
  rw [bad, good]
  exact ⟨goesOn "OOPS", rfl, rfl, rfl, rfl⟩

end Assembly
end Wheelwork
