import Wheelwork.Proofs.Joining

/-!
Tokens that are displayed one after the other, in one line or in several. A plain token is one piece
of the text that displays it, so they are cut into the same tokens again.
-/
namespace Wheelwork

def TokenKind.inRow (kinds : List TokenKind) : String :=
  String.intercalate " " (kinds.map TokenKind.display)

def TokenKind.inRows (rows : List (List TokenKind)) : String :=
  String.intercalate "\n" (rows.map inRow)

namespace Lexer

theorem falls_row {row : List TokenKind} (plain : ∀ kind ∈ row, kind.Plain) {rest : List Char}
    (ends : Ends rest) :
    ∃ ps, Falls (TokenKind.inRow row).toList rest ps ∧ Gives ps row := by
  simp only [TokenKind.inRow, String.toList_intercalate, List.map_map]
  induction row with
  | nil => exact ⟨[], Falls.nil, rfl, rfl⟩
  | cons kind row ih =>
    have first := plain kind (by simp)
    obtain ⟨ps, later, gives⟩ := ih fun k member => plain k (by simp [member])
    cases row with
    | nil => exact ⟨_, by simpa using Falls.display first ends, .token _ kind⟩
    | cons next row =>
      have falls := Falls.append (Falls.display first (ends_space _)) (Falls.append Falls.space later)
      exact ⟨_, by simpa using falls, (Gives.token _ kind).append (Gives.blank.append gives)⟩

theorem falls_rows {rows : List (List TokenKind)}
    (plain : ∀ row ∈ rows, ∀ kind ∈ row, kind.Plain) :
    ∃ ps, Falls (TokenKind.inRows rows).toList [] ps ∧
      Gives ps ([.newline].intercalate rows) := by
  simp only [TokenKind.inRows, String.toList_intercalate, List.map_map]
  induction rows with
  | nil => exact ⟨[], Falls.nil, rfl, rfl⟩
  | cons row rows ih =>
    have first := plain row (by simp)
    obtain ⟨ps, later, gives⟩ := ih fun other member => plain other (by simp [member])
    cases rows with
    | nil => simpa using falls_row first ends_nil
    | cons next rows =>
      obtain ⟨qs, before, own⟩ := falls_row first (ends_newline _)
      have falls := Falls.append before (Falls.append Falls.newline later)
      exact ⟨_, by simpa using falls, by simpa using own.append ((Gives.token _ _).append gives)⟩

theorem lex_of_falls {source : Source} {kinds : List TokenKind} {ps : List (Nat × Piece)}
    (falls : Falls source.text.toList [] ps) (gives : Gives ps kinds) :
    (lex source).1.map Token.kind = kinds ++ [.eof] ∧ (lex source).2 = .empty := by
  rw [← falls.alone] at gives
  rw [lex_quiet gives.quiet, closed, List.map_append, tokens_kinds, gives.kinds]
  exact ⟨rfl, rfl⟩

/-- Plain tokens that are displayed in one line, a blank between any two, are cut into the same
tokens again, and nothing is complained about. With line feeds in the place of some of the blanks
the tokens stand in rows, and between any two rows there is a newline token. -/
theorem printed_tokens_lex_back (name : String) {kinds : List TokenKind}
    (plain : ∀ kind ∈ kinds, kind.Plain) :
    ((lex ⟨name, TokenKind.inRow kinds⟩).1.map Token.kind = kinds ++ [.eof] ∧
      (lex ⟨name, TokenKind.inRow kinds⟩).2 = .empty) ∧
    ∀ rows : List (List TokenKind), rows.flatten = kinds →
      (lex ⟨name, TokenKind.inRows rows⟩).1.map Token.kind =
          [.newline].intercalate rows ++ [.eof] ∧
        (lex ⟨name, TokenKind.inRows rows⟩).2 = .empty := by
  constructor
  · obtain ⟨ps, falls, gives⟩ := falls_row plain ends_nil
    exact lex_of_falls falls gives
  · rintro rows rfl
    have each : ∀ row ∈ rows, ∀ kind ∈ row, kind.Plain := by
      intro row member kind inside
      exact plain kind (List.mem_flatten.mpr ⟨row, member, inside⟩)
    obtain ⟨ps, falls, gives⟩ := falls_rows each
    exact lex_of_falls falls gives

def awkwardRows : List (List TokenKind) :=
  [[.word "N_9", .string ""], [.integer Int64.minValue, .string "; 1%é\r"], [.args, .integer 0]]

theorem awkward_tokens_lex_back :
    (∀ kind ∈ awkwardRows.flatten, kind.Plain) ∧
      TokenKind.inRows awkwardRows = "N_9 \"\"\n-9223372036854775808 \"; 1%é\r\"\n% 0" ∧
      (lex ⟨"a", TokenKind.inRows awkwardRows⟩).1.map Token.kind =
        [.word "N_9", .string "", .newline, .integer Int64.minValue, .string "; 1%é\r", .newline,
          .args, .integer 0, .eof] ∧
      (lex ⟨"a", TokenKind.inRow awkwardRows.flatten⟩).1.map Token.kind =
        [.word "N_9", .string "", .integer Int64.minValue, .string "; 1%é\r", .args, .integer 0,
          .eof] := by
  have plain : ∀ kind ∈ awkwardRows.flatten, kind.Plain := by
    simp [awkwardRows, TokenKind.Plain, isWordChar]
  have read := printed_tokens_lex_back "a" plain
  exact ⟨plain, by decide +kernel, (read.2 awkwardRows rfl).1, read.1.1⟩

end Lexer
end Wheelwork
