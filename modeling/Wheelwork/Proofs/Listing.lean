import Wheelwork.CommandLine
import Wheelwork.Proofs.Joining

/-!
Listings load back. A line of a listing falls into the words of its instruction, which are read as
that instruction; the lines of a program follow one another, and the comment that a dump puts on top
only moves the line numbers.
-/
namespace Wheelwork

/-- What a source line can say: no fraction, a text that can be quoted, a name where one is needed
and no kind of fault that there is not. -/
structure Instruction.Writable (i : Instruction) : Prop where
  float : i.float = 0
  text : ∀ c ∈ i.text.toList, c ≠ '"' ∧ c ≠ '\n'
  name : i.opcode = .define ∨ i.opcode = .call → i.text ≠ ""
  kind : i.opcode = .errh →
    i.text = "" ∨ ∃ kind : FaultKind, i.text = kind.name ∨ i.text = kind.legacyName

def Instruction.atLine (i : Instruction) (line : Nat) : Instruction :=
  { i with line := UInt32.ofNat line }

/-- The program as it stands in a text whose line `first` is its first one. -/
def Program.numbered (p : Program) (first : Nat) : Program :=
  ⟨p.instructions.mapIdx fun k i => i.atLine (first + k)⟩

theorem mnemonic_plain (op : Opcode) : (TokenKind.word op.mnemonic).Plain := by
  cases op <;> exact ⟨_, _, rfl, rfl, List.all_eq_true.mp rfl⟩

theorem ofMnemonic_mnemonic (op : Opcode) : Opcode.ofMnemonic? op.mnemonic = some op := by
  cases op <;> rfl

theorem FaultKind.ofName_of_spelling {kind : FaultKind} {word : String}
    (spelled : word = kind.name ∨ word = kind.legacyName) : ofName? word = some kind := by
  rcases spelled with rfl | rfl <;> cases kind <;> rfl

namespace Load

open Lexer

variable {text : List Char} {kind : TokenKind} {kinds : List TokenKind} {i : Instruction}

theorem count_feeds (inLine : .newline ∉ (pieces text).filterMap (·.2.kind?)) :
    text.count '\n' = 0 := by
  have counted := scan_line ⟨1, 1⟩ text
  rw [scan_eq, (lay_line inLine).1] at counted
  omega

theorem line_reads (gives : Gives (pieces text) (kind :: kinds)) (inLine : .newline ∉ kind :: kinds)
    (read : ∀ r : Assembly.Row, r.head.kind = kind → r.arguments.map Token.kind = kinds →
      r.head.span.line = 1 → r.reading = .ok i) :
    flaws text = [] ∧ instructions text = [i] ∧ text.count '\n' = 0 := by
  rw [← gives.kinds] at inLine
  obtain ⟨head, arguments, tokens, word, rest⟩ :=
    List.map_eq_cons_iff.mp ((tokens_kinds text).trans gives.kinds)
  have oneLine : ∀ t ∈ head :: arguments, t.kind.isNewline = false := by
    intro t member
    have given : t.kind ∈ (pieces text).filterMap (·.2.kind?) := by
      rw [← tokens_kinds, tokens]
      exact List.mem_map_of_mem member
    cases kind : t.kind with
    | newline => exact absurd (kind ▸ given) inLine
    | word | integer | float | string | args | eof => rfl
  have line : head.span.line = 1 := by
    have member : head ∈ Lexer.tokens text := by simp [tokens]
    obtain ⟨x, found, given⟩ := List.mem_filterMap.mp member
    rw [scan_eq] at found
    exact (lay_line inLine).2 x found head given
  have rows : Assembly.rows (Lexer.tokens text) = [⟨head, arguments⟩] := by
    rw [tokens, Assembly.rows_line oneLine]
  have reading := read ⟨head, arguments⟩ word rest line
  refine ⟨?_, ?_, count_feeds inLine⟩
  · simp [flaws, gives.quiet, rows, Assembly.complaints, Assembly.Row.complaint?, reading]
  · simp [instructions, rows, Assembly.Row.instruction?, reading, Except.toOption]

theorem nothing_read (gives : Gives (pieces text) []) : flaws text = [] ∧ instructions text = [] := by
  have none : Lexer.tokens text = [] := by
    rw [← List.map_eq_nil_iff, tokens_kinds, gives.kinds]
  have rows : Assembly.rows [] = [] := rfl
  simp [flaws, instructions, gives.quiet, none, rows, Assembly.complaints]

end Load

namespace Instruction

variable {i : Instruction}

structure Sayable (i : Instruction) : Prop where
  text : ∀ c ∈ i.text.toList, c ≠ '"' ∧ c ≠ '\n'
  name : i.opcode = .define ∨ i.opcode = .call → i.text ≠ ""
  kind : i.opcode = .errh → i.text = "" ∨ FaultKind.ofName? i.text ≠ none

def front (i : Instruction) : List (List Char × TokenKind) :=
  (if i.hasText then [((TokenKind.string i.text).display.toList, .string i.text)] else []) ++
    (if i.int ≠ 0 then [((TokenKind.integer i.int).display.toList, .integer i.int)] else [])

def fractionWords (i : Instruction) : List (List Char × TokenKind) :=
  if Numeral.magnitude i.float ≠ 0 then [((floatText i.float).toList, .float i.float)] else []

def back (i : Instruction) : List (List Char × TokenKind) :=
  if i.args then [(TokenKind.args.display.toList, .args)] else []

def words (i : Instruction) : List (List Char × TokenKind) := i.front ++ i.fractionWords ++ i.back

/-- The instruction as its source line says it: a zero is not said, whatever its sign. -/
def said (i : Instruction) : Instruction :=
  { i with float := if Numeral.magnitude i.float = 0 then 0 else i.float }

theorem Writable.sayable (writable : i.Writable) : i.Sayable := by
  refine ⟨writable.text, writable.name, ?_⟩
  intro op
  rcases writable.kind op with empty | ⟨kind, spelled⟩
  · exact .inl empty
  · right
    simp [FaultKind.ofName_of_spelling spelled]

theorem Writable.said (writable : i.Writable) : i.said = i := by
  obtain ⟨opcode, int, text, float, args, line⟩ := i
  obtain rfl : float = 0 := writable.float
  rfl

theorem display_words (i : Instruction) :
    i.display.toList = i.opcode.mnemonic.toList ++ Lexer.written i.words := by
  simp only [display, words, front, fractionWords, back, Lexer.written]
  by_cases quoted : i.hasText <;> by_cases number : i.int = 0 <;>
    by_cases fraction : Numeral.magnitude i.float = 0 <;> by_cases mark : i.args <;>
    simp [quoted, number, fraction, mark, TokenKind.display]

theorem front_spelled (sayable : i.Sayable) : ∀ word ∈ i.front, Lexer.Spelled word := by
  intro word member
  rcases List.mem_append.mp member with quoted | number
  · split at quoted
    · rw [List.mem_singleton.mp quoted]
      exact fun rest ends => Lexer.Falls.display sayable.text ends
    · simp at quoted
  · split at number
    · rw [List.mem_singleton.mp number]
      exact fun rest ends => Lexer.Falls.display trivial ends
    · simp at number

theorem words_spelled (sayable : i.Sayable)
    (fraction : ∀ word ∈ i.fractionWords, Lexer.Spelled word) :
    ∀ word ∈ i.words, Lexer.Spelled word := by
  intro word member
  rcases List.mem_append.mp member with before | mark
  · rcases List.mem_append.mp before with early | late
    · exact front_spelled sayable word early
    · exact fraction word late
  · unfold back at mark
    split at mark
    · rw [List.mem_singleton.mp mark]
      exact fun rest ends => Lexer.Falls.display trivial ends
    · simp at mark

theorem words_say (i : Instruction) :
    (i.words.map Prod.snd).filterMap TokenKind.text? = (if i.hasText then [i.text] else []) ∧
      (i.words.map Prod.snd).filterMap TokenKind.integer? =
        (if i.int ≠ 0 then [i.int] else []) ∧
      (i.words.map Prod.snd).filterMap TokenKind.float? =
        (if Numeral.magnitude i.float ≠ 0 then [i.float] else []) ∧
      (i.words.map Prod.snd).any TokenKind.isMark = i.args ∧
      .newline ∉ i.words.map Prod.snd := by
  simp only [words, front, fractionWords, back]
  refine ⟨?_, ?_, ?_, ?_, ?_⟩
  · split_ifs <;> rfl
  · split_ifs <;> rfl
  · split_ifs <;> rfl
  · cases i.args <;> simp only [Bool.false_eq_true, ↓reduceIte] <;> split_ifs <;> rfl
  · split_ifs <;> simp

theorem last_kinds {α : Type} (pick : TokenKind → Option α) (tokens : List Token) :
    Assembly.last (fun t => pick t.kind) tokens =
      ((tokens.map Token.kind).filterMap pick).getLast? := by
  rw [Assembly.last, List.filterMap_map]
  rfl

open Assembly in
theorem reading_words (sayable : i.Sayable) {r : Row} (word : r.head.kind = .word i.opcode.mnemonic)
    (given : r.arguments.map Token.kind = i.words.map Prod.snd) :
    r.reading = .ok (i.said.atLine r.head.span.line) := by
  obtain ⟨texts, ints, floats, mark, _⟩ := words_say i
  rw [← given] at texts ints floats mark
  have text : r.text = i.text := by
    rw [Row.text_eq, last_kinds, texts]
    by_cases empty : i.text = "" <;> simp [hasText, empty]
  have int : (last (·.kind.integer?) r.arguments).getD 0 = i.int := by
    rw [last_kinds, ints]
    by_cases zero : i.int = 0 <;> simp [zero]
  have float : (last (·.kind.float?) r.arguments).getD 0 = i.said.float := by
    rw [last_kinds, floats]
    by_cases zero : Numeral.magnitude i.float = 0 <;> simp [said, zero]
  have args : (r.arguments.any fun t => t.kind.isMark) = i.args := by
    rw [← mark, List.any_map]
    rfl
  have kinds : ¬ (i.opcode = .errh ∧ i.text ≠ "" ∧ FaultKind.ofName? i.text = none) := by
    rintro ⟨handler, filled, unknown⟩
    rcases sayable.kind handler with empty | known
    · exact filled empty
    · exact known unknown
  have named : ¬ ((i.opcode = .define ∨ i.opcode = .call) ∧ i.text = "") := by
    rintro ⟨defines, empty⟩
    exact sayable.name defines empty
  simp only [Row.reading, word, ofMnemonic_mnemonic, text, if_neg kinds, if_neg named,
    Row.instruction, int, float, args]
  rfl

theorem display_gives (spelled : ∀ word ∈ i.words, Lexer.Spelled word) :
    Lexer.Gives (Lexer.pieces i.display.toList)
      (.word i.opcode.mnemonic :: i.words.map Prod.snd) := by
  have head := Lexer.Falls.display (mnemonic_plain i.opcode)
    (Lexer.written_ends i.words Lexer.ends_nil)
  have falls := head.append (Lexer.Falls.written spelled Lexer.ends_nil)
  have shown : i.display.toList =
      (TokenKind.word i.opcode.mnemonic).display.toList ++ Lexer.written i.words := display_words i
  rw [shown, falls.alone]
  exact (Lexer.Gives.token _ _).append (Lexer.gives_written i.words)

theorem display_reads (sayable : i.Sayable) (spelled : ∀ word ∈ i.words, Lexer.Spelled word) :
    Load.flaws i.display.toList = [] ∧ Load.instructions i.display.toList = [i.said.atLine 1] ∧
      i.display.toList.count '\n' = 0 := by
  obtain ⟨_, _, _, _, inLine⟩ := words_say i
  apply Load.line_reads (display_gives spelled) (by simp [inLine])
  intro r word given line
  rw [reading_words sayable word given, line]

theorem atLine_down (i : Instruction) (line lines : Nat) :
    (i.atLine line).down lines = i.atLine (line + lines) := by
  simp only [down, atLine, UInt32.ofNat_add, UInt32.ofNat_toNat]

def inLines (first : Nat) (is : List Instruction) : List Instruction :=
  is.mapIdx fun k i => i.atLine (first + k)

theorem inLines_cons (first : Nat) (i : Instruction) (is : List Instruction) :
    inLines first (i :: is) = i.atLine first :: inLines (first + 1) is := by
  simp [inLines, List.mapIdx_cons, Nat.add_assoc, Nat.add_comm 1]

theorem inLines_down (first lines : Nat) (is : List Instruction) :
    (inLines first is).map (down lines) = inLines (first + lines) is := by
  induction is generalizing first with
  | nil => rfl
  | cons i is ih =>
    rw [inLines_cons, inLines_cons, List.map_cons, atLine_down, ih, Nat.add_right_comm]

end Instruction

namespace Load

variable {is : List Instruction}

def lines (is : List Instruction) : List Char := is.flatMap fun i => i.display.toList ++ ['\n']

theorem lines_cons (i : Instruction) (is : List Instruction) :
    lines (i :: is) = i.display.toList ++ '\n' :: lines is := by
  simp [lines]

theorem lines_read (sayable : ∀ i ∈ is, i.Sayable)
    (spelled : ∀ i ∈ is, ∀ word ∈ i.words, Lexer.Spelled word) :
    flaws (lines is) = [] ∧
      instructions (lines is) = Instruction.inLines 1 (is.map Instruction.said) := by
  induction is with
  | nil =>
    have nothing : Lexer.Gives (Lexer.pieces []) [] := by
      rw [Lexer.pieces_nil]
      exact ⟨rfl, rfl⟩
    exact nothing_read nothing
  | cons i is ih =>
    obtain ⟨sound, later⟩ := ih (fun j member => sayable j (by simp [member]))
      fun j member => spelled j (by simp [member])
    obtain ⟨first, read, oneLine⟩ :=
      Instruction.display_reads (sayable i (by simp)) (spelled i (by simp))
    -- The later lines are read as a text of their own, and then moved down.
    rw [lines_cons, flaws_join, instructions_join, read, later, oneLine, Instruction.inLines_down,
      List.map_cons, Instruction.inLines_cons]
    exact ⟨⟨first, sound⟩, rfl⟩

end Load

theorem listing_toList (p : Program) : p.listing.toList = Load.lines p.instructions.toList := by
  simp [Program.listing, String.toList_join, List.flatMap_map, Load.lines]

theorem numbered_eq (p : Program) (first : Nat) :
    p.numbered first = ⟨(Instruction.inLines first p.instructions.toList).toArray⟩ := by
  rw [Program.numbered, Instruction.inLines, ← Array.toList_mapIdx]

theorem listing_reads {p : Program} (writable : ∀ i ∈ p.instructions.toList, i.Writable) :
    Load.flaws p.listing.toList = [] ∧
      Load.instructions p.listing.toList = Instruction.inLines 1 p.instructions.toList := by
  have spelled : ∀ i ∈ p.instructions.toList, ∀ word ∈ i.words, Lexer.Spelled word := by
    intro i member
    have whole : i.fractionWords = [] := by
      rw [Instruction.fractionWords, (writable i member).float]
      rfl
    exact Instruction.words_spelled (writable i member).sayable (by simp [whole])
  obtain ⟨sound, read⟩ := Load.lines_read (fun i member => (writable i member).sayable) spelled
  have same : p.instructions.toList.map Instruction.said = p.instructions.toList := by
    rw [List.map_congr_left fun i member => (writable i member).said, List.map_id']
  rw [same] at read
  rw [listing_toList]
  exact ⟨sound, read⟩

theorem fingerprint_one_line (p : Program) : '\n' ∉ p.fingerprint.toList := by
  intro member
  simp only [Program.fingerprint, Sha256.hex, String.toList_ofList, List.mem_flatMap] at member
  obtain ⟨word, _, digit⟩ := member
  simp only [Sha256.hexWord, List.mem_map] at digit
  obtain ⟨place, _, digit⟩ := digit
  rw [List.getD_eq_getElem?_getD] at digit
  cases found : Sha256.hexDigits[word.toNat / Nat.pow 16 (7 - place) % 16]? with
  | none =>
    rw [found, Option.getD_none] at digit
    exact absurd digit (by decide)
  | some c =>
    have member := List.mem_of_getElem? found
    rw [found, Option.getD_some] at digit
    subst digit
    revert member
    decide

theorem dump_toList {p : Program} {l : Load} (loaded : l.program = some p) :
    (Outcome.ofDump .text l).stdout.toList =
      ';' :: ((" sha256 ".toList ++ p.fingerprint.toList) ++ '\n' :: p.listing.toList) := by
  simp [Outcome.ofDump, loaded]

theorem load_listing {p : Program} (writable : ∀ i ∈ p.instructions.toList, i.Writable)
    (name : String) : (load ⟨name, p.listing⟩).program = some (p.numbered 1) := by
  obtain ⟨sound, read⟩ := listing_reads writable
  exact Load.program_iff.mpr ⟨sound, by rw [numbered_eq, read]⟩

theorem load_dump {p : Program} (writable : ∀ i ∈ p.instructions.toList, i.Writable)
    (name : String) {l : Load} (loaded : l.program = some p) :
    (load ⟨name, (Outcome.ofDump .text l).stdout⟩).program = some (p.numbered 2) := by
  obtain ⟨sound, read⟩ := listing_reads writable
  let body := " sha256 ".toList ++ p.fingerprint.toList
  have gives : Lexer.Gives (Lexer.pieces (';' :: body)) [] := by
    rw [(Lexer.Falls.comment (by simp [body, fingerprint_one_line p]) (by simp)).alone]
    exact ⟨rfl, rfl⟩
  obtain ⟨quiet, nothing⟩ := Load.nothing_read gives
  have oneLine : (';' :: body).count '\n' = 0 := Load.count_feeds (by simp [gives.kinds])
  have text : (Outcome.ofDump .text l).stdout.toList =
      (';' :: body) ++ '\n' :: p.listing.toList := dump_toList loaded
  refine Load.program_iff.mpr ⟨?_, ?_⟩
  · rw [text]
    exact (Load.flaws_join _ _).mpr ⟨quiet, sound⟩
  · rw [numbered_eq, text, Load.instructions_join, nothing, read, oneLine,
      Instruction.inLines_down]
    rfl

theorem size_le_listing (p : Program) : p.size ≤ p.listing.toList.length := by
  rw [listing_toList, Program.size, ← Array.length_toList]
  -- Every line takes up at least its newline.
  induction p.instructions.toList with
  | nil => simp
  | cons i rest ih =>
    rw [Load.lines_cons, List.length_append, List.length_cons, List.length_cons]
    omega

def Program.LinesFrom (p : Program) (first : Nat) : Prop :=
  ∀ k i, p.get? k = some i → i.line.toNat = first + k

theorem numbered_lines {p : Program} {first : Nat} (fits : first + p.size ≤ 4294967296) :
    (p.numbered first).LinesFrom first := by
  intro k i found
  simp only [Program.get?, Program.numbered, Array.getElem?_mapIdx, Option.map_eq_some_iff] at found
  obtain ⟨j, present, rfl⟩ := found
  have inside : k < p.size := (Array.getElem?_eq_some_iff.mp present).1
  simp only [Instruction.atLine, UInt32.toNat_ofNat']
  omega

/-- A program of writable instructions, of a length at which line and column numbers of 32 bits do
not run over, loads back from its listing and from its dump, with all but the line numbers as it
was. -/
theorem listing_loads_back {p : Program} (writable : ∀ i ∈ p.instructions, i.Writable)
    (short : p.listing.length < 4294967294) (name : String) :
    (load ⟨name, p.listing⟩).program = some (p.numbered 1) ∧ (p.numbered 1).LinesFrom 1 ∧
      ∀ l : Load, l.program = some p →
        (load ⟨name, (Outcome.ofDump .text l).stdout⟩).program = some (p.numbered 2) ∧
          (p.numbered 2).LinesFrom 2 := by
  have each : ∀ i ∈ p.instructions.toList, i.Writable := by simpa using writable
  have lines := size_le_listing p
  rw [String.length_toList] at lines
  refine ⟨load_listing each name, numbered_lines (by omega), ?_⟩
  intro l loaded
  exact ⟨load_dump each name loaded, numbered_lines (by omega)⟩

def awkwardProgram : Program :=
  ⟨#[{ opcode := .newv, int := Int64.minValue, text := "a; \r %é", line := 7 },
    { opcode := .errh, int := -3, text := "NUMERIC_DATA_ERROR", args := true },
    { opcode := .define, text := "f 1.5" }]⟩

theorem awkward_program_loads_back :
    (∀ i ∈ awkwardProgram.instructions, i.Writable) ∧
      awkwardProgram.listing.length < 4294967294 ∧
      (load ⟨"main.whl", awkwardProgram.listing⟩).program = some
        ⟨#[{ opcode := .newv, int := Int64.minValue, text := "a; \r %é", line := 1 },
          { opcode := .errh, int := -3, text := "NUMERIC_DATA_ERROR", args := true, line := 2 },
          { opcode := .define, text := "f 1.5", line := 3 }]⟩ := by
  have writable : ∀ i ∈ awkwardProgram.instructions, i.Writable := by
    intro i member
    simp only [awkwardProgram, List.mem_toArray, List.mem_cons, List.not_mem_nil, or_false]
      at member
    rcases member with rfl | rfl | rfl
    · exact ⟨rfl, by simp, by simp, by simp⟩
    · exact ⟨rfl, by simp, by simp, fun _ => .inr ⟨.numericDataRequired, .inr rfl⟩⟩
    · exact ⟨rfl, by simp, by simp, by simp⟩
  have short : awkwardProgram.listing.length < 4294967294 := by decide
  exact ⟨writable, short, (listing_loads_back writable short "main.whl").1⟩

end Wheelwork
