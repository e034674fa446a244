import Wheelwork.Load
import Wheelwork.Proofs.Lines

/-!
Texts joined by a line feed. No piece of a text reaches over a line feed, so the joined text is cut
into the tokens of the first text, a newline and the tokens of the second one, some lines further
down; and lines are assembled one by one. Hence the joined text loads if both texts do, and its
program is that of the first followed by that of the second.
-/
namespace Wheelwork

section Down

variable (lines : Nat)

def Position.down (p : Position) : Position := { p with line := p.line + lines }

def Span.down (s : Span) : Span := { s with line := s.line + lines }

def Token.down (t : Token) : Token := { t with span := t.span.down lines }

def Lexer.Lexeme.down (x : Lexeme) : Lexeme where
  token := x.token.map (Token.down lines)
  complaint := x.complaint.map fun (problem, span) => (problem, span.down lines)
  stop := x.stop.down lines

def Instruction.down (i : Instruction) : Instruction :=
  { i with line := UInt32.ofNat (i.line.toNat + lines) }

def Assembly.Row.down (r : Row) : Row := ⟨r.head.down lines, r.arguments.map (Token.down lines)⟩

end Down

def Token.moved (f : Span → Span) (t : Token) : Token := { t with span := f t.span }

def Assembly.Row.moved (f : Span → Span) (r : Row) : Row :=
  ⟨r.head.moved f, r.arguments.map (Token.moved f)⟩

namespace Lexer

theorem ends_newline (more : List Char) : Ends ('\n' :: more) := by
  intro c first
  obtain rfl : '\n' = c := by simpa using first
  decide

theorem fraction_before (cs : List Char) {rest : List Char} (ends : Ends rest) :
    fractionDigits (cs ++ rest) = fractionDigits cs := by
  cases cs with
  | nil => exact ends.no_fraction
  | cons c cs =>
    by_cases point : c = '.'
    · subst point
      exact (takeWhile_before _ cs ends.not_digit).1
    · simp [fractionDigits, point]

theorem number_before (negative : Bool) (cs : List Char) {rest : List Char} (ends : Ends rest) :
    number negative (cs ++ rest) = number negative cs := by
  obtain ⟨taken, dropped⟩ := takeWhile_before Char.isDigit cs ends.not_digit
  simp only [number, taken, dropped, fraction_before _ ends]

theorem digit_before (cs : List Char) {rest : List Char} (ends : Ends rest) :
    startsWithDigit (cs ++ rest) = startsWithDigit cs := by
  cases cs with
  | nil =>
    cases rest with
    | nil => rfl
    | cons c rest => exact ends.not_digit c rfl
  | cons c cs => rfl

theorem string_until (cs more : List Char) : string (cs ++ '\n' :: more) = string cs := by
  have stop : ∀ c ∈ ('\n' :: more).head?, (c != '"' && c != '\n') = false := by simp
  obtain ⟨taken, dropped⟩ := takeWhile_before _ cs stop
  simp only [string, taken, dropped]
  cases cs.dropWhile fun c => c != '"' && c != '\n' with
  | nil => rfl
  | cons c tail =>
    by_cases quote : c = '"'
    · subst quote
      rfl
    · simp [quote]

/-- Comments and strings apart, a piece is the same before anything that cannot go on with it. -/
theorem piece_before {c : Char} {rest : List Char} (ends : Ends rest) (code : c ≠ ';')
    (quote : c ≠ '"') (cs : List Char) :
    piece c (cs ++ rest) = piece c cs := by
  have word := (takeWhile_before isWordChar cs fun x first => (ends x first).1).1
  have whole := number_before false (c :: cs) ends
  rw [List.cons_append] at whole
  simp only [piece, code, quote, word, whole, number_before _ _ ends, digit_before _ ends,
    ↓reduceIte]

/-- What follows a line feed has no part in the pieces before it. -/
theorem piece_until (c : Char) (cs more : List Char) :
    piece c (cs ++ '\n' :: more) = piece c cs := by
  by_cases code : c = ';'
  · have comment : ((cs ++ '\n' :: more).takeWhile (· != '\n')) = cs.takeWhile (· != '\n') :=
      (takeWhile_before _ cs (by simp)).1
    simp [code, piece, comment]
  · by_cases quote : c = '"'
    · subst quote
      exact string_until cs more
    · exact piece_before (ends_newline more) code quote cs

theorem fraction_fits {cs : List Char} (some : fractionDigits cs ≠ []) :
    (fractionDigits cs).length + 1 ≤ cs.length := by
  unfold fractionDigits at *
  split
  · exact Nat.succ_le_succ (List.takeWhile_sublist _).length_le
  · simp_all

theorem number_fits (negative : Bool) (cs : List Char) : (number negative cs).1 ≤ cs.length := by
  have split : (cs.takeWhile Char.isDigit).length + (cs.dropWhile Char.isDigit).length =
      cs.length := by
    rw [← List.length_append, List.takeWhile_append_dropWhile]
  unfold number
  by_cases integer : fractionDigits (cs.dropWhile Char.isDigit) = []
  · simp only [integer, List.isEmpty_nil, ↓reduceIte]
    omega
  · have fits := fraction_fits integer
    simp only [List.isEmpty_iff, integer, ↓reduceIte]
    omega

theorem string_fits (cs : List Char) : (string cs).1 ≤ cs.length := by
  have split := congrArg List.length
    (List.takeWhile_append_dropWhile (p := fun c => c != '"' && c != '\n') (l := cs))
  rw [List.length_append] at split
  unfold string
  simp only
  split
  · rename_i closed
    rw [closed, List.length_cons] at split
    omega
  · omega

theorem piece_fits (c : Char) (cs : List Char) : (piece c cs).1 ≤ cs.length := by
  have whole := number_fits false (c :: cs)
  rw [List.length_cons] at whole
  unfold piece
  split_ifs
  · exact Nat.zero_le _
  · exact (List.takeWhile_sublist _).length_le
  · exact Nat.zero_le _
  · exact string_fits cs
  · exact Nat.zero_le _
  · exact Nat.sub_le_of_le_add whole
  · exact number_fits true cs
  · exact (List.takeWhile_sublist _).length_le
  · exact Nat.zero_le _

theorem piece_inLine (c : Char) (cs : List Char) : '\n' ∉ cs.take (piece c cs).1 := by
  -- The piece is that of the text before the first line feed, and it fits in there.
  by_cases more : '\n' ∈ cs
  · obtain ⟨body, tail, rfl, oneLine⟩ := List.eq_append_cons_of_mem more
    rw [piece_until, List.take_append_of_le_length (piece_fits c body)]
    exact fun member => oneLine (List.mem_of_mem_take member)
  · exact fun member => more (List.mem_of_mem_take member)

section Scan

variable {start : Position} {c : Char} {cs : List Char} {count : Nat} {p : Piece} {x : Lexeme}

theorem lexeme_line (cut : piece c cs = (count, p)) (made : lexeme? start count p = some x) :
    x.stop.line = start.line + [c].count '\n' ∧
      ∀ t ∈ x.token, t.kind ≠ .eof ∧ t.span.line = start.line := by
  by_cases newline : c = '\n'
  · subst newline
    cases cut
    cases made
    simp [Span.point]
  · have inner := piece_kind newline cs
    have none : [c].count '\n' = 0 := by simp [newline]
    rw [cut] at inner
    rw [none]
    cases p with
    | blank => simp [lexeme?] at made
    | token kind =>
      cases kind with
      | newline | eof => simp [Piece.kind?, TokenKind.endsLine] at inner
      | word | integer | float | string | args =>
        cases made
        simp
    | flawed problem kind =>
      cases made
      refine ⟨rfl, ?_⟩
      intro t given
      obtain ⟨kind, some, rfl⟩ := Option.map_eq_some_iff.mp given
      refine ⟨?_, rfl⟩
      rintro rfl
      simpa [TokenKind.endsLine] using inner _ some

theorem count_piece (cut : piece c cs = (count, p)) :
    (c :: cs).count '\n' = [c].count '\n' + (cs.drop count).count '\n' := by
  have oneLine := piece_inLine c cs
  rw [cut] at oneLine
  rw [← List.singleton_append, List.count_append]
  conv => lhs; rw [← List.take_append_drop count cs, List.count_append]
  rw [List.count_eq_zero.mpr oneLine, Nat.zero_add]

theorem count_blank (cut : piece c cs = (count, .blank)) :
    (c :: cs).count '\n' = (cs.drop count).count '\n' := by
  have inLine : c ≠ '\n' := by
    rintro rfl
    cases cut
  rw [count_piece cut]
  simp [inLine]

theorem scan_line (start : Position) (cs : List Char) :
    (scan start cs).2.line = start.line + cs.count '\n' := by
  fun_induction scan start cs with
  | case1 start => simp
  | case2 start c cs count p cut made ih =>
    obtain rfl := blank_of_none made
    rw [ih, count_blank cut]
  | case3 start c cs count p cut x made lexemes stop scanned ih =>
    rw [scanned] at ih
    rw [ih, (lexeme_line cut made).1, count_piece cut, Nat.add_assoc]

theorem scan_tokens (start : Position) (cs : List Char) :
    ∀ x ∈ (scan start cs).1, ∀ t ∈ x.token,
      t.kind ≠ .eof ∧ t.span.line ≤ start.line + cs.count '\n' := by
  fun_induction scan start cs with
  | case1 start => simp
  | case2 start c cs count p cut made ih =>
    obtain rfl := blank_of_none made
    rw [count_blank cut]
    exact ih
  | case3 start c cs count p cut x made lexemes stop scanned ih =>
    obtain ⟨next, own⟩ := lexeme_line cut made
    rw [scanned, next, Nat.add_assoc, ← count_piece cut] at ih
    intro y member t given
    rcases List.mem_cons.mp member with rfl | later
    · obtain ⟨kind, line⟩ := own t given
      exact ⟨kind, by omega⟩
    · exact ih y later t given

def breakAt (p : Position) : Lexeme :=
  ⟨some ⟨.newline, .point p.line p.column⟩, none, ⟨p.line + 1, 1⟩⟩

/-- What stands before a line feed falls into the pieces into which it falls alone. -/
theorem pieces_join (cs more : List Char) :
    pieces (cs ++ '\n' :: more) = pieces cs ++ (0, .token .newline) :: pieces more := by
  fun_induction pieces cs with
  | case1 => exact Falls.newline
  | case2 c cs ih =>
    rw [List.cons_append, pieces, piece_until, List.drop_append_of_le_length (piece_fits c cs), ih,
      List.cons_append]

theorem scan_join (start : Position) (cs more : List Char) :
    scan start (cs ++ '\n' :: more) =
      let here := (scan start cs).2
      let later := scan ⟨here.line + 1, 1⟩ more
      ((scan start cs).1 ++ breakAt here :: later.1, later.2) := by
  simp only [scan_eq, pieces_join, lay_append]
  rfl

theorem lexeme_down (lines : Nat) (start : Position) (count : Nat) (p : Piece) :
    lexeme? (start.down lines) count p = (lexeme? start count p).map (Lexeme.down lines) := by
  cases p with
  | blank => rfl
  | token kind =>
    cases kind with
    | newline =>
      simp [lexeme?, Lexeme.down, Token.down, Span.down, Span.point, Position.down,
        Nat.add_right_comm]
    | word | integer | float | string | args | eof => rfl
  | flawed problem kind =>
    simp [lexeme?, Lexeme.down, Token.down, Span.down, Position.down, Function.comp_def]

theorem scan_down (lines : Nat) (start : Position) (cs : List Char) :
    scan (start.down lines) cs =
      ((scan start cs).1.map (Lexeme.down lines), (scan start cs).2.down lines) := by
  fun_induction scan start cs with
  | case1 start => simp [scan]
  | case2 start c cs count p cut made ih =>
    obtain rfl := blank_of_none made
    rw [scan_blank cut, ← ih]
    rfl
  | case3 start c cs count p cut x made lexemes stop scanned ih =>
    have moved : lexeme? (start.down lines) count p = some (x.down lines) := by
      rw [lexeme_down, made, Option.map_some]
    rw [scanned] at ih
    have next : (x.down lines).stop = x.stop.down lines := rfl
    rw [scan_lexeme cut moved, next, ih]
    rfl

end Scan

theorem lexemes_join (one other : List Char) :
    (scan ⟨1, 1⟩ (one ++ '\n' :: other)).1 = (scan ⟨1, 1⟩ one).1 ++
      breakAt (scan ⟨1, 1⟩ one).2 ::
        (scan ⟨1, 1⟩ other).1.map (Lexeme.down (one.count '\n' + 1)) := by
  have next : (⟨(scan ⟨1, 1⟩ one).2.line + 1, 1⟩ : Position) =
      Position.down (one.count '\n' + 1) ⟨1, 1⟩ := by
    rw [scan_line, Position.down, Nat.add_assoc]
  simp only [scan_join, next, scan_down]

theorem tokens_join (one other : List Char) :
    ∃ place, tokens (one ++ '\n' :: other) =
      tokens one ++ ⟨.newline, place⟩ :: (tokens other).map (Token.down (one.count '\n' + 1)) := by
  refine ⟨.point (scan ⟨1, 1⟩ one).2.line (scan ⟨1, 1⟩ one).2.column, ?_⟩
  simp [tokens, lexemes_join, breakAt, List.filterMap_map, List.map_filterMap, Function.comp_def,
    Lexeme.down]

theorem complaints_join (one other : List Char) :
    complaints (one ++ '\n' :: other) = [] ↔ complaints one = [] ∧ complaints other = [] := by
  simp [complaints, lexemes_join, breakAt, Lexeme.down]

theorem totalErrors_foldl (ds : Diagnostics) (more : List Diagnostic) :
    (more.foldl Diagnostics.pushError ds).totalErrors = ds.totalErrors + more.length := by
  induction more generalizing ds with
  | nil => rfl
  | cons d more ih =>
    rw [List.foldl_cons, ih, Diagnostics.pushError, List.length_cons]
    simp only
    omega

theorem lex_hasErrors (source : Source) :
    (lex source).2.hasErrors = true ↔ complaints source.text.toList ≠ [] := by
  have some : Diagnostics.cap ≠ 0 := by decide
  simp [lex, lexWithin_complaints, Diagnostics.hasErrors, totalErrors_foldl, Diagnostics.empty,
    Nat.pos_iff_ne_zero, some]

end Lexer

namespace Assembly

variable (lines : Nat)

theorem rows_moved (f : Span → Span) (tokens : List Token) :
    rows (tokens.map (Token.moved f)) = (rows tokens).map (Row.moved f) := by
  induction tokens using line_induction with
  | line body oneLine =>
    cases body with
    | nil => rfl
    | cons head arguments =>
      have moved : ∀ t ∈ (head :: arguments).map (Token.moved f), t.kind.isNewline = false := by
        intro t member
        obtain ⟨t, original, rfl⟩ := List.mem_map.mp member
        exact oneLine t original
      rw [rows_line oneLine, List.map_cons, rows_line moved]
      rfl
  | broken body place more _ first later =>
    rw [rows_append, List.map_append, List.map_append, List.map_cons, ← first, ← later]
    exact rows_append _ _ (f place)

theorem rows_down (tokens : List Token) :
    rows (tokens.map (Token.down lines)) = (rows tokens).map (Row.down lines) :=
  rows_moved (Span.down lines) tokens

theorem row_mem {tokens : List Token} {r : Row} (member : r ∈ rows tokens) :
    ∀ t ∈ r.head :: r.arguments, t ∈ tokens := by
  induction tokens using line_induction with
  | line body oneLine =>
    cases body with
    | nil => simp [rows, Row.ofTokens?] at member
    | cons head arguments =>
      rw [rows_line oneLine, List.mem_singleton] at member
      simp [member]
  | broken body place more _ first later =>
    rw [rows_append, List.mem_append] at member
    intro t own
    rcases member with early | late
    · simp [first early t own]
    · simp [later late t own]

theorem head_mem {tokens : List Token} {r : Row} (member : r ∈ rows tokens) : r.head ∈ tokens :=
  row_mem member r.head List.mem_cons_self

theorem last_moved {α : Type} (pick : Token → Option α) (f : Span → Span) (tokens : List Token) :
    last pick (tokens.map (Token.moved f)) = last (fun t => pick (t.moved f)) tokens := by
  unfold last
  rw [List.filterMap_map]
  rfl

namespace Row

variable (r : Row)

theorem text_moved (f : Span → Span) : (r.moved f).text = r.text := by
  rw [text_eq, text_eq, moved, last_moved]
  rfl

theorem textSpan_moved (f : Span → Span) : (r.moved f).textSpan = f r.textSpan := by
  rw [textSpan_eq, textSpan_eq, ← Option.getD_map f, last_map, moved, last_moved]
  simp [Token.moved, Function.comp_def]

theorem instruction_moved (f : Span → Span) (opcode : Opcode) :
    (r.moved f).instruction opcode =
      { r.instruction opcode with line := UInt32.ofNat (f r.head.span).line } := by
  simp only [instruction, text_moved]
  simp only [moved, last_moved, List.any_map]
  rfl

theorem reading_moved (f : Span → Span) :
    (r.moved f).reading =
      match r.reading with
      | .error (problem, span) => .error (problem, f span)
      | .ok i => .ok { i with line := UInt32.ofNat (f r.head.span).line } := by
  have kind : (r.moved f).head.kind = r.head.kind := rfl
  unfold reading
  rw [kind]
  cases r.head.kind with
  | word w =>
    simp only
    cases Opcode.ofMnemonic? w with
    | none => rfl
    | some opcode =>
      simp only [text_moved, textSpan_moved, instruction_moved]
      split_ifs <;> rfl
  | integer | float | string | args | newline | eof => rfl

theorem reading_down :
    (r.down lines).reading =
      match r.reading with
      | .error (problem, span) => .error (problem, span.down lines)
      | .ok i => .ok (i.down lines) := by
  have moved : (r.down lines).reading = _ := r.reading_moved (Span.down lines)
  rw [moved]
  cases read : r.reading with
  | error complaint => rfl
  | ok i =>
    obtain ⟨_, opcode, _, _, rfl⟩ := reading_ok read
    have line : UInt32.ofNat (r.head.span.line + lines) =
        UInt32.ofNat ((UInt32.ofNat r.head.span.line).toNat + lines) := by
      rw [UInt32.ofNat_add, UInt32.ofNat_add, UInt32.ofNat_toNat]
    simp only [Instruction.down, Span.down, line]
    rfl

theorem complaint_moved (f : Span → Span) :
    (r.moved f).complaint? = r.complaint?.map (Prod.map id f) := by
  unfold complaint?
  rw [reading_moved]
  cases r.reading <;> rfl

theorem instruction?_down :
    (r.down lines).instruction? = r.instruction?.map (Instruction.down lines) := by
  unfold instruction?
  rw [reading_down]
  cases r.reading <;> rfl

theorem line_le {r : Row} {i : Instruction} (read : r.instruction? = some i) :
    i.line.toNat ≤ r.head.span.line := by
  unfold instruction? at read
  cases reading : r.reading with
  | error complaint => simp [reading, Except.toOption] at read
  | ok j =>
    rw [reading] at read
    cases read
    obtain ⟨_, opcode, _, _, rfl⟩ := reading_ok reading
    exact Nat.mod_le _ _

end Row

theorem complaints_moved (f : Span → Span) (rs : List Row) :
    complaints (rs.map (Row.moved f)) = [] ↔ complaints rs = [] := by
  simp [complaints, Row.complaint_moved]

end Assembly

namespace Load

open Assembly

def flaws (text : List Char) : List (Problem × Span) :=
  Lexer.complaints text ++ complaints (rows (Lexer.tokens text))

def instructions (text : List Char) : List Instruction :=
  (rows (Lexer.tokens text)).filterMap Row.instruction?

theorem flaws_join (one other : List Char) :
    flaws (one ++ '\n' :: other) = [] ↔ flaws one = [] ∧ flaws other = [] := by
  obtain ⟨place, cut⟩ := Lexer.tokens_join one other
  have lines : complaints (rows (Lexer.tokens (one ++ '\n' :: other))) = [] ↔
      complaints (rows (Lexer.tokens one)) = [] ∧ complaints (rows (Lexer.tokens other)) = [] := by
    rw [cut, rows_append, rows_down, complaints, List.filterMap_append, List.append_eq_nil_iff]
    exact and_congr_right fun _ => complaints_moved (Span.down _) _
  simp only [flaws, List.append_eq_nil_iff, Lexer.complaints_join, lines]
  exact and_and_and_comm

theorem instructions_join (one other : List Char) :
    instructions (one ++ '\n' :: other) =
      instructions one ++ (instructions other).map (Instruction.down (one.count '\n' + 1)) := by
  obtain ⟨place, cut⟩ := Lexer.tokens_join one other
  unfold instructions
  rw [cut, rows_append, rows_down, List.filterMap_append, List.filterMap_map, List.map_filterMap]
  simp only [Function.comp_def, Row.instruction?_down]

theorem instruction_line_le {text : List Char} {i : Instruction} (member : i ∈ instructions text) :
    i.line.toNat ≤ 1 + text.count '\n' := by
  obtain ⟨r, row, read⟩ := List.mem_filterMap.mp member
  obtain ⟨x, found, given⟩ := List.mem_filterMap.mp (head_mem row)
  exact Nat.le_trans (Row.line_le read) (Lexer.scan_tokens ⟨1, 1⟩ text x found r.head given).2

/-- Without a complaint of the lexer all lines are assembled. -/
theorem load_quiet {source : Source} (quiet : Lexer.complaints source.text.toList = []) :
    load source = ⟨(assembled source (rows (Lexer.tokens source.text.toList))).1,
      Diagnostics.empty.extend (report source (rows (Lexer.tokens source.text.toList)))⟩ := by
  have goesOn : ∀ t ∈ Lexer.tokens source.text.toList, t.kind ≠ .eof := by
    intro t member
    obtain ⟨x, found, given⟩ := List.mem_filterMap.mp member
    exact (Lexer.scan_tokens ⟨1, 1⟩ source.text.toList x found t given).1
  obtain ⟨place, lexed⟩ : ∃ place, Lexer.lex source =
      (Lexer.tokens source.text.toList ++ [⟨.eof, place⟩], .empty) :=
    ⟨_, Lexer.lex_quiet quiet⟩
  simp [load, lexed, Diagnostics.hasErrors, Diagnostics.empty, assemble_rows source goesOn,
    assembled]

theorem program_eq (source : Source) :
    (load source).program =
      if flaws source.text.toList = [] then some ⟨(instructions source.text.toList).toArray⟩
      else none := by
  by_cases quiet : Lexer.complaints source.text.toList = []
  · simp [load_quiet quiet, assembled, flaws, quiet, instructions]
  · have wrong := (Lexer.lex_hasErrors source).mpr quiet
    simp [load, wrong, flaws, quiet]

theorem program_iff {source : Source} {p : Program} :
    (load source).program = some p ↔
      flaws source.text.toList = [] ∧ p = ⟨(instructions source.text.toList).toArray⟩ := by
  rw [program_eq, Option.ite_none_right_eq_some, Option.some.injEq, eq_comm (b := p)]

theorem success_iff {source : Source} :
    (load source).success = true ↔ flaws source.text.toList = [] := by
  rw [success, Option.isSome_iff_exists]
  simp [program_iff]

end Load

theorem Instruction.down_line {i : Instruction} {lines : Nat}
    (fits : i.line.toNat + lines < 4294967296) :
    (i.down lines).line.toNat = i.line.toNat + lines :=
  UInt32.toNat_ofNat_of_lt' fits

open Load in
/-- A text and another one after a line feed load together if both load, and the second program
follows the first, its lines counted on. -/
theorem load_joined {one other : String} (short : one.length + other.length < 4294967294)
    (name first second : String) :
    ((load ⟨name, one ++ "\n" ++ other⟩).success = true ↔
      (load ⟨first, one⟩).success = true ∧ (load ⟨second, other⟩).success = true) ∧
    ∀ p q, (load ⟨first, one⟩).program = some p → (load ⟨second, other⟩).program = some q →
      (load ⟨name, one ++ "\n" ++ other⟩).program = some ⟨p.instructions ++
        q.instructions.map (Instruction.down (one.toList.count '\n' + 1))⟩ ∧
      ∀ i ∈ q.instructions, (i.down (one.toList.count '\n' + 1)).line.toNat =
        i.line.toNat + (one.toList.count '\n' + 1) := by
  have text : (one ++ "\n" ++ other).toList = one.toList ++ '\n' :: other.toList := by simp
  refine ⟨?_, ?_⟩
  · rw [success_iff, success_iff, success_iff, text, flaws_join]
  · intro p q loaded followed
    obtain ⟨sound, rfl⟩ := program_iff.mp loaded
    obtain ⟨also, rfl⟩ := program_iff.mp followed
    refine ⟨?_, ?_⟩
    · rw [program_iff, text, flaws_join, instructions_join]
      exact ⟨⟨sound, also⟩, by simp⟩
    · intro i member
      have last : i.line.toNat ≤ 1 + other.toList.count '\n' :=
        instruction_line_le (List.mem_toArray.mp member)
      have above : one.toList.count '\n' ≤ one.length := by
        rw [← String.length_toList]
        exact List.count_le_length
      have within : other.toList.count '\n' ≤ other.length := by
        rw [← String.length_toList]
        exact List.count_le_length
      exact Instruction.down_line (by omega)

theorem commented_texts_join :
    "DEF f\nCALL f ; \"".length + "\nADDARG -7".length < 4294967294 ∧
      (load ⟨"main.whl", "DEF f\nCALL f ; \"" ++ "\n" ++ "\nADDARG -7"⟩).program = some
        ⟨#[{ opcode := .define, text := "f", line := 1 },
          { opcode := .call, text := "f", line := 2 },
          { opcode := .addarg, int := -7, line := 4 }]⟩ := by
  have short : "DEF f\nCALL f ; \"".length + "\nADDARG -7".length < 4294967294 := by decide
  have first : (load ⟨"main.whl", "DEF f\nCALL f ; \""⟩).program = some
      ⟨#[{ opcode := .define, text := "f", line := 1 },
        { opcode := .call, text := "f", line := 2 }]⟩ := by
    with_unfolding_all rfl
  have second : (load ⟨"main.whl", "\nADDARG -7"⟩).program = some
      ⟨#[{ opcode := .addarg, int := -7, line := 2 }]⟩ := by
    with_unfolding_all rfl
  have joined := ((load_joined short "main.whl" "main.whl" "main.whl").2 _ _ first second).1
  exact ⟨short, joined.trans (by with_unfolding_all rfl)⟩

end Wheelwork
