import Wheelwork.Proofs.Cuts
import Wheelwork.Proofs.ProgramJson
import Wheelwork.Proofs.Relisting

/-!
Loaded programs in their printed forms. What a source text can say can be listed again, so that the
listing and the JSON text of a loaded program are read back if all its fractions are finite, and
otherwise neither is.
-/
namespace Wheelwork

namespace Lexer

theorem word_quotable {c : Char} {tail : List Char} (letter : c.isAlpha = true)
    (inside : ∀ x ∈ tail, isWordChar x = true) : ∀ x ∈ c :: tail, x ≠ '"' ∧ x ≠ '\n' := by
  have letters : ∀ x ∈ c :: tail, isWordChar x = true := by
    intro x member
    rcases List.mem_cons.mp member with rfl | member
    · simp [isWordChar, Char.isAlphanum, letter]
    · exact inside x member
  intro x member
  constructor
  · rintro rfl
    exact absurd (letters _ member) (by decide)
  · rintro rfl
    exact absurd (letters _ member) (by decide)

theorem Shape.quotable {shown after : List Char} {p : Piece} (shape : Shape shown after p)
    {kind : TokenKind} (piece : p.kind? = some kind) {s : String} (given : kind.text? = some s) :
    ∀ c ∈ s.toList, c ≠ '"' ∧ c ≠ '\n' := by
  cases shape with
  | blank | comment | stray => cases piece
  | string inside | openString inside =>
    cases piece
    cases given
    simpa using inside
  | args | integer | outOfRange | float =>
    cases piece
    cases given
  | word letter inside =>
    cases piece
    cases given
    simpa using word_quotable letter inside

theorem token_quotable {text : List Char} {t : Token} (member : t ∈ tokens text) {s : String}
    (given : t.kind.text? = some s) : ∀ c ∈ s.toList, c ≠ '"' ∧ c ≠ '\n' := by
  rw [(read_textCuts text).1] at member
  obtain ⟨x, found, made⟩ := List.mem_filterMap.mp member
  obtain ⟨kind, piece, rfl⟩ := Option.map_eq_some_iff.mp made
  obtain ⟨_, raw, _, _, sound | ⟨rfl, _⟩⟩ := textCuts_sound (Text.splitLines_free text) found
  · exact sound.shape.quotable piece given
  · cases piece
    cases given

end Lexer

namespace Assembly

theorem argument_mem {tokens : List Token} {r : Row} (member : r ∈ rows tokens) :
    ∀ t ∈ r.arguments, t ∈ tokens := by
  induction tokens using line_induction with
  | line body oneLine =>
    cases body with
    | nil => simp [rows, Row.ofTokens?] at member
    | cons head arguments =>
      rw [rows_line oneLine, List.mem_singleton] at member
      intro t inside
      rw [member] at inside
      exact List.mem_cons_of_mem head inside
  | broken body place more _ first later =>
    rw [rows_append, List.mem_append] at member
    intro t inside
    rcases member with early | late
    · exact List.mem_append_left _ (first early t inside)
    · exact List.mem_append_right _ (List.mem_cons_of_mem _ (later late t inside))

theorem Row.sayable {r : Row} {i : Instruction} (read : r.reading = .ok i)
    (quotable : ∀ c ∈ r.text.toList, c ≠ '"' ∧ c ≠ '\n') : i.Sayable := by
  obtain ⟨w, opcode, word, mnemonic, rfl⟩ := reading_ok read
  simp only [reading, word, mnemonic] at read
  split at read
  · cases read
  · split at read
    · cases read
    · rename_i known named
      refine ⟨quotable, ?_, ?_⟩
      · intro defines empty
        exact named ⟨defines, empty⟩
      · intro handler
        by_contra unknown
        rw [not_or, not_not] at unknown
        exact known ⟨handler, unknown⟩

end Assembly

theorem Load.sayable {text : List Char} {i : Instruction} (member : i ∈ instructions text) :
    i.Sayable := by
  obtain ⟨r, row, given⟩ := List.mem_filterMap.mp member
  have read : r.reading = .ok i := by
    unfold Assembly.Row.instruction? at given
    cases reading : r.reading with
    | error complaint => simp [reading, Except.toOption] at given
    | ok j =>
      rw [reading] at given
      cases given
      rfl
  refine Assembly.Row.sayable read ?_
  rw [Assembly.Row.text_eq]
  cases found : Assembly.last (fun t => t.kind.text?) r.arguments with
  | none => simp
  | some s =>
    obtain ⟨t, inside, said⟩ := List.mem_filterMap.mp (List.mem_of_getLast? found)
    exact Lexer.token_quotable (Assembly.argument_mem row t inside) said

namespace Program

variable {p : Program}

def Finite (p : Program) : Prop :=
  ∀ i ∈ p.instructions, Numeral.magnitude i.float < Decimal.infinityBits

theorem listing_lines (p : Program) : p.listing.toList = Load.lines p.instructions.toList :=
  listing_toList p

theorem listing_reads (sayable : ∀ i ∈ p.instructions, i.Sayable) (finite : p.Finite)
    (name : String) :
    ∃ q, (load ⟨name, p.listing⟩).program = some q ∧
      List.Forall₂ Instruction.SameButLine p.instructions.toList q.instructions.toList := by
  have said : ∀ i ∈ p.instructions.toList, i.Sayable := by simpa using sayable
  have bounded : ∀ i ∈ p.instructions.toList, Numeral.magnitude i.float < Decimal.infinityBits := by
    simpa [Finite] using finite
  obtain ⟨sound, same⟩ := Load.lines_same said bounded
  rw [← listing_lines] at sound same
  exact ⟨_, Load.program_iff.mpr ⟨sound, rfl⟩, same⟩

theorem listing_spoiled (sayable : ∀ i ∈ p.instructions, i.Sayable) (infinite : ¬ p.Finite)
    (name : String) : (load ⟨name, p.listing⟩).program = none := by
  simp only [Finite, not_forall] at infinite
  obtain ⟨i, member, infinite⟩ := infinite
  have spoiled := Load.lines_spoiled (Array.mem_toList_iff.mpr member)
    (Instruction.display_spoiled (sayable i member) infinite)
  rw [← listing_lines] at spoiled
  rw [Option.eq_none_iff_forall_ne_some]
  intro q read
  exact spoiled (Load.program_iff.mp read).1

theorem json_reads (finite : p.Finite) :
    ∃ q, ofJsonText? p.json.compress = some q ∧
      List.Forall₂ (fun i j => i.Reread j ∧ (Json.Exact i.float → j = i))
        p.instructions.toList q.instructions.toList := by
  have each : ∀ i ∈ p.instructions.toList, ∃ j, i.Reread j ∧ (Json.Exact i.float → j = i) := by
    intro i member
    obtain ⟨x, read, same⟩ := Json.reread_finite (finite i (Array.mem_toList_iff.mp member))
    refine ⟨_, ⟨x, read, rfl⟩, ?_⟩
    intro exact
    rw [same exact]
  choose! back reread using each
  have all : List.Forall₂ (fun i j => i.Reread j ∧ (Json.Exact i.float → j = i))
      p.instructions.toList (p.instructions.toList.map back) := by
    rw [List.forall₂_map_right_iff, List.forall₂_same]
    exact reread
  exact ⟨⟨(p.instructions.toList.map back).toArray⟩,
    ofJsonText_iff.mpr (all.imp fun i j read => read.1), all⟩

theorem json_spoiled (infinite : ¬ p.Finite) : ofJsonText? p.json.compress = none := by
  simp only [Finite, not_forall] at infinite
  obtain ⟨i, member, infinite⟩ := infinite
  rw [Option.eq_none_iff_forall_ne_some]
  intro q read
  have all := ofJsonText_iff.mp read
  obtain ⟨k, rfl⟩ := List.mem_iff_get.mp (Array.mem_toList_iff.mpr member)
  obtain ⟨x, back, _⟩ := all.get k.isLt (all.length_eq ▸ k.isLt)
  rw [Json.reread_infinite infinite] at back
  cases back

end Program

/-- The listing and the JSON text of a loaded program are read back if all its fractions are finite:
the listing as the same instructions, the JSON text with the fractions that its numbers are read as,
which are the same where those are short. Otherwise neither is read. -/
theorem printed_forms_read_back {source : Source} {p : Program}
    (loaded : (load source).program = some p) (name : String) :
    (p.Finite →
      (∃ q, (load ⟨name, p.listing⟩).program = some q ∧
        List.Forall₂ Instruction.SameButLine p.instructions.toList q.instructions.toList) ∧
      ∃ q, Program.ofJsonText? p.json.compress = some q ∧
        List.Forall₂ (fun i j => i.Reread j ∧ (Json.Exact i.float → j = i))
          p.instructions.toList q.instructions.toList) ∧
    (¬ p.Finite → (load ⟨name, p.listing⟩).program = none ∧
      Program.ofJsonText? p.json.compress = none) := by
  have sayable : ∀ i ∈ p.instructions, i.Sayable := by
    intro i member
    rw [(Load.program_iff.mp loaded).2, List.mem_toArray] at member
    exact Load.sayable member
  constructor
  · intro finite
    exact ⟨Program.listing_reads sayable finite name, Program.json_reads finite⟩
  · intro infinite
    exact ⟨Program.listing_spoiled sayable infinite name, Program.json_spoiled infinite⟩

def fractionsText : String :=
  "NEWV \"a;\t\\ é\" -9223372036854775808 -0.1 %\n\nERRH 0.000000150 \"EMPTY_VWHEEL\""

def fractionsProgram : Program :=
  ⟨#[{ opcode := .newv, int := Int64.minValue, text := "a;\t\\ é",
       float := Numeral.toFloat ⟨true, 0, ['1'], none⟩, args := true, line := 1 },
    { opcode := .errh, text := "EMPTY_VWHEEL",
      float := Numeral.toFloat ⟨false, 0, "000000150".toList, none⟩, line := 3 }]⟩

theorem short_fractions_read_back :
    (load ⟨"main.whl", fractionsText⟩).program = some fractionsProgram ∧
      fractionsProgram.Finite ∧
      (∃ q, (load ⟨"copy.whl", fractionsProgram.listing⟩).program = some q ∧
        List.Forall₂ Instruction.SameButLine fractionsProgram.instructions.toList
          q.instructions.toList) ∧
      Program.ofJsonText? fractionsProgram.json.compress = some fractionsProgram := by
  have loaded : (load ⟨"main.whl", fractionsText⟩).program = some fractionsProgram := by
    with_unfolding_all rfl
  have finite : fractionsProgram.Finite := by
    simp only [Program.Finite, fractionsProgram, List.mem_toArray, List.forall_mem_cons,
      List.not_mem_nil, false_implies, implies_true, and_true]
    decide +kernel
  have exact : ∀ i ∈ fractionsProgram.instructions.toList, Json.Exact i.float := by
    simp only [fractionsProgram, List.forall_mem_cons, List.not_mem_nil, false_implies,
      implies_true, and_true]
    constructor
    · exact ⟨⟨true, 0, ['1'], none⟩, by decide +kernel, by decide +kernel, by decide +kernel⟩
    · exact ⟨⟨false, 1, ['5'], some (-7)⟩, by decide +kernel, by decide +kernel, by decide +kernel⟩
  obtain ⟨listed, q, read, same⟩ := (printed_forms_read_back loaded "copy.whl").1 finite
  have equal : fractionsProgram.instructions.toList = q.instructions.toList := by
    rw [← List.forall₂_eq_eq_eq]
    refine ((List.forall₂_and_left _ _).mpr ⟨exact, same⟩).imp ?_
    rintro i j ⟨short, _, back⟩
    exact (back short).symm
  have whole : fractionsProgram = q := congrArg Program.mk (Array.toList_inj.mp equal)
  exact ⟨loaded, finite, listed, by rw [read, whole]⟩

open Lexer in
theorem Load.literal_reads (whole : ℕ) :
    flaws ("NEWV " ++ toString whole ++ ".0").toList = [] ∧
      ∃ i, instructions ("NEWV " ++ toString whole ++ ".0").toList = [i] ∧
        i.float = Numeral.toFloat ⟨false, whole, ['0'], none⟩ := by
  let number := (Nat.toDigits 10 whole ++ ['.', '0'],
    TokenKind.float (Numeral.toFloat ⟨false, whole, ['0'], none⟩))
  have spelled : Spelled number :=
    spelled_fraction (n := ⟨false, whole, ['0'], none⟩) (by simp) (by simp) rfl
  have word := Falls.display (mnemonic_plain .newv) (written_ends [number] ends_nil)
  have falls := word.append (Falls.written (by simpa using spelled) ends_nil)
  have shown : ("NEWV " ++ toString whole ++ ".0").toList =
      (TokenKind.word Opcode.newv.mnemonic).display.toList ++ written [number] := by
    simp [TokenKind.display, Opcode.mnemonic, Nat.repr, written, number]
  have gives : Gives (pieces ("NEWV " ++ toString whole ++ ".0").toList)
      [.word Opcode.newv.mnemonic, number.2] := by
    rw [shown, falls.alone]
    exact (Gives.token _ _).append (gives_written [number])
  let i : Instruction :=
    { opcode := .newv, float := Numeral.toFloat ⟨false, whole, ['0'], none⟩, line := 1 }
  have read : ∀ r : Assembly.Row, r.head.kind = .word Opcode.newv.mnemonic →
      r.arguments.map Token.kind = [number.2] → r.head.span.line = 1 → r.reading = .ok i := by
    intro r head said line
    have mark : (r.arguments.map Token.kind).any TokenKind.isMark = false := by
      rw [said]
      rfl
    rw [List.any_map] at mark
    simp only [Assembly.Row.reading, head, ofMnemonic_mnemonic, Assembly.Row.instruction,
      Assembly.Row.text_eq, Instruction.last_kinds, said, line]
    simp [i, number, TokenKind.integer?, TokenKind.text?, TokenKind.float?, ← mark,
      Function.comp_def]
  obtain ⟨sound, reads, _⟩ := line_reads gives (by simp [number]) read
  exact ⟨sound, i, reads, rfl⟩

/-- A literal out of range is accepted, and neither printed form of it is read. -/
theorem Load.literal_lost {whole : ℕ} (infinite : ¬ Numeral.magnitude
      (Numeral.toFloat ⟨false, whole, ['0'], none⟩) < Decimal.infinityBits) (name : String) :
    ∃ p, (load ⟨name, "NEWV " ++ toString whole ++ ".0"⟩).program = some p ∧
      (load ⟨name, p.listing⟩).program = none ∧ Program.ofJsonText? p.json.compress = none := by
  obtain ⟨sound, i, read, value⟩ := literal_reads whole
  have member : i ∈ instructions ("NEWV " ++ toString whole ++ ".0").toList := by
    rw [read]
    exact List.mem_singleton_self i
  have sayable : ∀ j ∈ (⟨#[i]⟩ : Program).instructions, j.Sayable := by
    simpa using Load.sayable member
  have unbounded : ¬ (⟨#[i]⟩ : Program).Finite := by
    rw [← value] at infinite
    simpa [Program.Finite] using infinite
  refine ⟨⟨#[i]⟩, program_iff.mpr ⟨sound, by rw [read]⟩, ?_, ?_⟩
  · exact Program.listing_spoiled sayable unbounded name
  · exact Program.json_spoiled unbounded

def oneFraction (x : Float) : Program := ⟨#[{ opcode := .newv, float := x, line := 1 }]⟩

/-- A long fraction is loaded, and its JSON text gives another. A literal out of range is loaded, and
neither of its printed forms is read. -/
theorem fractions_lost :
    ((load ⟨"main.whl", "NEWV 9007199254740991.0"⟩).program =
        some (oneFraction 9007199254740991) ∧
      Program.ofJsonText? (oneFraction 9007199254740991).json.compress =
        some (oneFraction 9007199254740990) ∧
      ((9007199254740991 : Float) == 9007199254740990) = false) ∧
    ∃ p, (load ⟨"main.whl", "NEWV " ++ toString (10 ^ 309) ++ ".0"⟩).program = some p ∧
      (load ⟨"main.whl", p.listing⟩).program = none ∧
      Program.ofJsonText? p.json.compress = none := by
  refine ⟨⟨?_, ?_, ?_⟩, ?_⟩
  · have literal : (9007199254740991 : Float) =
        Numeral.toFloat ⟨false, 9007199254740991, ['0'], none⟩ :=
      Float.toBits_inj.mp (by decide +kernel)
    rw [literal]
    with_unfolding_all rfl
  · obtain ⟨x, read, _⟩ := Json.reread_finite (x := 9007199254740991) (by decide +kernel)
    -- ten times the number has no room in 53 bits, so that it is rounded before it is divided
    have bits : (Json.reread? 9007199254740991).map Float.toBits =
        some (Float.toBits 9007199254740990) := by decide +kernel
    rw [read] at bits
    obtain rfl := Float.toBits_inj.mp (Option.some.inj bits)
    exact Program.ofJsonText_iff.mpr (.cons ⟨_, read, rfl⟩ .nil)
  · decide +kernel
  · exact Load.literal_lost (by decide +kernel) "main.whl"

end Wheelwork
