import Wheelwork.Proofs.Scanning

/-!
Texts and the pieces that they fall into, whatever the places of these. What a text gives before
another one is put together from what its parts give; each kind of token is read back from the way
it is displayed, up to a character that cannot continue it.
-/
namespace Wheelwork

open Lexer in
def TokenKind.Plain : TokenKind → Prop
  | .word w => ∃ c tail, w.toList = c :: tail ∧ c.isAlpha = true ∧ ∀ x ∈ tail, isWordChar x = true
  | .string s => ∀ c ∈ s.toList, c ≠ '"' ∧ c ≠ '\n'
  | .integer _ | .args => True
  | .float _ | .newline | .eof => False

namespace Lexer

/-- No word and no number goes on into this text. -/
def Ends (rest : List Char) : Prop :=
  ∀ c ∈ rest.head?, isWordChar c = false ∧ c ≠ '.'

theorem takeWhile_stretch {α : Type} {p : α → Bool} {body rest : List α}
    (inside : ∀ a ∈ body, p a = true) (boundary : ∀ a ∈ rest.head?, p a = false) :
    (body ++ rest).takeWhile p = body ∧ (body ++ rest).dropWhile p = rest := by
  rw [List.takeWhile_append_of_pos inside, List.dropWhile_append_of_pos inside]
  cases rest with
  | nil => simp
  | cons a rest => simp [boundary a rfl]

theorem takeWhile_before {α : Type} (p : α → Bool) (body : List α) {rest : List α}
    (boundary : ∀ a ∈ rest.head?, p a = false) :
    (body ++ rest).takeWhile p = body.takeWhile p ∧
      (body ++ rest).dropWhile p = body.dropWhile p ++ rest := by
  induction body with
  | nil =>
    cases rest with
    | nil => simp
    | cons a rest => simp [boundary a rfl]
  | cons a body ih =>
    cases inside : p a with
    | false => simp [inside]
    | true => simp [inside, ih]

variable {rest : List Char}

theorem Ends.not_digit (ends : Ends rest) : ∀ c ∈ rest.head?, c.isDigit = false := by
  intro c first
  have other := (ends c first).1
  simp only [isWordChar, Char.isAlphanum, Bool.or_eq_false_iff] at other
  exact other.1.2

theorem Ends.no_fraction (ends : Ends rest) : fractionDigits rest = [] := by
  unfold fractionDigits
  split
  · exact absurd rfl (ends '.' rfl).2
  · rfl

theorem alpha_not_digit {c : Char} (letter : c.isAlpha = true) : c.isDigit = false := by
  have above : 65 ≤ c.toNat := by
    rcases (Bool.or_eq_true _ _).mp letter with upper | lower
    · exact UInt32.le_iff_toNat_le.mp (of_decide_eq_true upper).1
    · have least := of_decide_eq_true ((Bool.and_eq_true _ _).mp lower).1
      exact Nat.le_trans (by decide) (UInt32.le_iff_toNat_le.mp least)
  cases digit : c.isDigit with
  | false => rfl
  | true =>
    have below : c.toNat ≤ 57 := (Char.isDigit_iff_toNat.mp digit).2
    omega

theorem piece_word {c : Char} {tail : List Char} (letter : c.isAlpha = true)
    (inside : ∀ x ∈ tail, isWordChar x = true) (ends : Ends rest) :
    piece c (tail ++ rest) = (tail.length, .token (.word (String.ofList (c :: tail)))) := by
  have whole := (takeWhile_stretch inside (fun x first => (ends x first).1)).1
  have digit := alpha_not_digit letter
  have other : ∀ d : Char, d.isAlpha = false → c ≠ d := by
    intro d blank same
    rw [same, blank] at letter
    contradiction
  simp [piece, letter, digit, whole, other ' ' rfl, other '\t' rfl, other '\r' rfl, other ';' rfl,
    other '\n' rfl, other '"' rfl, other '%' rfl, other '-' rfl]

theorem piece_string {body : List Char} (inside : ∀ c ∈ body, c ≠ '"' ∧ c ≠ '\n') :
    piece '"' (body ++ '"' :: rest) =
      (body.length + 1, .token (.string (String.ofList body))) := by
  have free : ∀ c ∈ body, (c != '"' && c != '\n') = true := by
    intro c member
    simpa using inside c member
  have boundary : ∀ c ∈ ('"' :: rest).head?, (c != '"' && c != '\n') = false := by simp
  obtain ⟨taken, dropped⟩ := takeWhile_stretch free boundary
  simp [piece, string, taken, dropped]

theorem number_digits (negative : Bool) (n : Nat) {x : Int64} (ends : Ends rest)
    (fits : Text.toInt64? (if negative then -(n : Int) else n) = some x) :
    number negative (Nat.toDigits 10 n ++ rest) =
      ((Nat.toDigits 10 n).length, .token (.integer x)) := by
  have digits : ∀ c ∈ Nat.toDigits 10 n, c.isDigit = true := by
    intro c member
    exact Nat.isDigit_of_mem_toDigits (by decide) (by decide) member
  obtain ⟨taken, dropped⟩ := takeWhile_stretch digits ends.not_digit
  simp [number, taken, dropped, ends.no_fraction, Nat.ofDigitChars_ten_toDigits, fits]

theorem toInt64_toInt (x : Int64) : Text.toInt64? x.toInt = some x := by
  simp only [Text.toInt64?, x.minValue_le_toInt, x.toInt_le, and_self, ↓reduceIte,
    Int64.ofInt_toInt]

theorem digits_cons (n : Nat) :
    ∃ c tail, Nat.toDigits 10 n = c :: tail ∧ c.isDigit = true := by
  cases digits : Nat.toDigits 10 n with
  | nil => exact absurd digits Nat.toDigits_ne_nil
  | cons c tail =>
    have member : c ∈ Nat.toDigits 10 n := by simp [digits]
    exact ⟨c, tail, rfl, Nat.isDigit_of_mem_toDigits (by decide) (by decide) member⟩

theorem piece_number {c : Char} {tail : List Char} {count : Nat} {p : Piece}
    (digit : c.isDigit = true) (read : number false (c :: tail) = (count, p)) :
    piece c tail = (count - 1, p) := by
  have other : ∀ d : Char, d.isDigit = false → c ≠ d := by
    intro d blank same
    rw [same, blank] at digit
    contradiction
  simp [piece, digit, read, other ' ' rfl, other '\t' rfl, other '\r' rfl, other ';' rfl,
    other '\n' rfl, other '"' rfl, other '%' rfl]

theorem piece_integer (x : Int64) (ends : Ends rest) :
    ∃ c tail, x.toInt.repr.toList = c :: tail ∧
      piece c (tail ++ rest) = (tail.length, .token (.integer x)) := by
  rw [Int.repr_eq_if]
  split
  · rename_i positive
    rw [Nat.toList_repr]
    obtain ⟨c, tail, digits, digit⟩ := digits_cons x.toInt.toNat
    refine ⟨c, tail, digits, ?_⟩
    have value : (x.toInt.toNat : Int) = x.toInt := Int.toNat_of_nonneg positive
    have fits : Text.toInt64? (x.toInt.toNat : Int) = some x := by rw [value, toInt64_toInt]
    have read := number_digits false x.toInt.toNat ends fits
    rw [digits] at read
    exact piece_number digit read
  · rename_i negative
    -- The range is checked after the sign is applied, so the least integer has digits too.
    obtain ⟨c, tail, digits, digit⟩ := digits_cons (-x.toInt).toNat
    refine ⟨'-', Nat.toDigits 10 (-x.toInt).toNat, by simp [Nat.toList_repr], ?_⟩
    have value : -((-x.toInt).toNat : Int) = x.toInt := by omega
    have fits : Text.toInt64? (-((-x.toInt).toNat : Int)) = some x := by rw [value, toInt64_toInt]
    have read := number_digits true (-x.toInt).toNat ends fits
    have starts : startsWithDigit (Nat.toDigits 10 (-x.toInt).toNat ++ rest) = true := by
      simp [digits, startsWithDigit, digit]
    simp [piece, starts, read]

theorem piece_display {kind : TokenKind} (plain : kind.Plain) (ends : Ends rest) :
    ∃ c tail, kind.display.toList = c :: tail ∧
      piece c (tail ++ rest) = (tail.length, .token kind) := by
  cases kind with
  | word w =>
    obtain ⟨c, tail, letters, letter, inside⟩ := plain
    refine ⟨c, tail, letters, ?_⟩
    rw [piece_word letter inside ends, ← letters, String.ofList_toList]
  | string s =>
    refine ⟨'"', s.toList ++ ['"'], by simp [TokenKind.display], ?_⟩
    rw [List.append_assoc, List.singleton_append, piece_string plain]
    simp
  | integer x => exact piece_integer x ends
  | args => exact ⟨'%', [], rfl, rfl⟩
  | float x => exact plain.elim
  | newline => exact plain.elim
  | eof => exact plain.elim

section Pieces

/-- The pieces of a text, each with the number of characters after its first one. -/
def pieces : List Char → List (Nat × Piece)
  | [] => []
  | c :: rest => piece c rest :: pieces (rest.drop (piece c rest).1)
termination_by cs => cs.length
decreasing_by simp only [List.length_cons, List.length_drop]; omega

@[simp] theorem pieces_nil : pieces [] = [] := by rw [pieces]

def lay (start : Position) : List (Nat × Piece) → List Lexeme × Position
  | [] => ([], start)
  | (count, p) :: ps =>
    match lexeme? start count p with
    | none => lay ⟨start.line, start.column + count + 1⟩ ps
    | some x => (x :: (lay x.stop ps).1, (lay x.stop ps).2)

theorem scan_eq (start : Position) (text : List Char) :
    scan start text = lay start (pieces text) := by
  fun_induction scan start text with
  | case1 start => rw [pieces, lay]
  | case2 start c rest count p cut made ih =>
    rw [pieces, cut, lay, made]
    exact ih
  | case3 start c rest count p cut x made lexemes stop scanned ih =>
    rw [scanned] at ih
    rw [pieces, cut, lay, made]
    simp only [← ih]

theorem lay_append (start : Position) (ps qs : List (Nat × Piece)) :
    lay start (ps ++ qs) =
      ((lay start ps).1 ++ (lay (lay start ps).2 qs).1, (lay (lay start ps).2 qs).2) := by
  induction ps generalizing start with
  | nil => rfl
  | cons p ps ih =>
    rw [List.cons_append, lay, lay]
    cases made : lexeme? start p.1 p.2 with
    | none => simp only [ih]
    | some x => simp only [ih, List.cons_append]

def kindsIn (lexemes : List Lexeme) : List TokenKind :=
  (lexemes.filterMap Lexeme.token).map Token.kind

def problemsIn (lexemes : List Lexeme) : List Problem :=
  (lexemes.filterMap Lexeme.complaint).map Prod.fst

/-- The kinds and the problems in a text do not depend on its place. -/
theorem lay_gives (start : Position) (ps : List (Nat × Piece)) :
    kindsIn (lay start ps).1 = ps.filterMap (·.2.kind?) ∧
      problemsIn (lay start ps).1 = ps.filterMap (·.2.problem?) := by
  induction ps generalizing start with
  | nil => exact ⟨rfl, rfl⟩
  | cons p ps ih =>
    obtain ⟨count, p⟩ := p
    rw [lay, List.filterMap_cons, List.filterMap_cons]
    cases p with
    | blank => exact ih _
    | token kind =>
      cases kind <;> exact ⟨congrArg (_ :: ·) (ih _).1, (ih _).2⟩
    | flawed problem kind =>
      cases kind with
      | none => exact ⟨(ih _).1, congrArg (_ :: ·) (ih _).2⟩
      | some kind => exact ⟨congrArg (_ :: ·) (ih _).1, congrArg (_ :: ·) (ih _).2⟩

theorem lay_line {start : Position} {ps : List (Nat × Piece)}
    (inLine : .newline ∉ ps.filterMap (·.2.kind?)) :
    (lay start ps).2.line = start.line ∧
      ∀ x ∈ (lay start ps).1, ∀ t ∈ x.token, t.span.line = start.line := by
  induction ps generalizing start with
  | nil => simp [lay]
  | cons p ps ih =>
    obtain ⟨count, p⟩ := p
    have later : .newline ∉ ps.filterMap (·.2.kind?) := by
      intro member
      obtain ⟨q, inside, given⟩ := List.mem_filterMap.mp member
      exact inLine (List.mem_filterMap.mpr ⟨q, List.mem_cons_of_mem _ inside, given⟩)
    have rest := @ih ⟨start.line, start.column + count + 1⟩ later
    cases p with
    | blank => exact rest
    | token kind =>
      cases kind with
      | newline => simp [Piece.kind?] at inLine
      | word | integer | float | string | args | eof =>
        exact ⟨rest.1, List.forall_mem_cons.mpr ⟨by simp, rest.2⟩⟩
    | flawed problem kind =>
      refine ⟨rest.1, List.forall_mem_cons.mpr ⟨?_, rest.2⟩⟩
      intro t given
      obtain ⟨_, _, rfl⟩ := Option.map_eq_some_iff.mp given
      rfl

theorem tokens_kinds (text : List Char) :
    (tokens text).map Token.kind = (pieces text).filterMap (·.2.kind?) := by
  rw [tokens, scan_eq]
  exact (lay_gives _ _).1

theorem complaints_problems (text : List Char) :
    (complaints text).map Prod.fst = (pieces text).filterMap (·.2.problem?) := by
  rw [complaints, scan_eq]
  exact (lay_gives _ _).2

structure Gives (ps : List (Nat × Piece)) (kinds : List TokenKind) : Prop where
  kinds : ps.filterMap (·.2.kind?) = kinds
  sound : ps.filterMap (·.2.problem?) = []

theorem Gives.blank : Gives [(0, .blank)] [] := ⟨rfl, rfl⟩

theorem Gives.token (count : Nat) (kind : TokenKind) : Gives [(count, .token kind)] [kind] :=
  ⟨rfl, rfl⟩

theorem Gives.append {ps qs : List (Nat × Piece)} {kinds more : List TokenKind}
    (first : Gives ps kinds) (second : Gives qs more) : Gives (ps ++ qs) (kinds ++ more) := by
  constructor
  · rw [List.filterMap_append, first.kinds, second.kinds]
  · rw [List.filterMap_append, first.sound, second.sound, List.append_nil]

theorem Gives.quiet {text : List Char} {kinds : List TokenKind} (gives : Gives (pieces text) kinds) :
    complaints text = [] := by
  rw [← List.map_eq_nil_iff, complaints_problems, gives.sound]

end Pieces

/-- Before `rest`, the text falls into these pieces. -/
def Falls (text rest : List Char) (ps : List (Nat × Piece)) : Prop :=
  pieces (text ++ rest) = ps ++ pieces rest

section Falls

variable {one other tail body : List Char} {ps qs : List (Nat × Piece)} {c : Char} {p : Piece}
  {kind : TokenKind}

theorem Falls.nil : Falls [] rest [] := rfl

theorem Falls.append (first : Falls one (other ++ rest) ps) (second : Falls other rest qs) :
    Falls (one ++ other) rest (ps ++ qs) := by
  unfold Falls at *
  rw [List.append_assoc, first, second, List.append_assoc]

theorem Falls.alone (falls : Falls one [] ps) : pieces one = ps := by
  simpa [Falls] using falls

theorem Falls.piece (cut : Lexer.piece c (tail ++ rest) = (tail.length, p)) :
    Falls (c :: tail) rest [(tail.length, p)] := by
  rw [Falls, List.cons_append, pieces, cut, List.drop_left]
  rfl

theorem Falls.space : Falls [' '] rest [(0, .blank)] := Falls.piece rfl

theorem Falls.newline : Falls ['\n'] rest [(0, .token .newline)] := Falls.piece rfl

theorem Falls.comment (oneLine : '\n' ∉ body) (lineEnd : ∀ c ∈ rest.head?, c = '\n') :
    Falls (';' :: body) rest [(body.length, .blank)] := by
  have inside : ∀ c ∈ body, (c != '\n') = true := by
    intro c member
    have other : c ≠ '\n' := fun same => oneLine (same ▸ member)
    simpa using other
  have whole : (body ++ rest).takeWhile (· != '\n') = body :=
    (takeWhile_stretch inside (by simpa using lineEnd)).1
  apply Falls.piece
  simp [Lexer.piece, whole]

theorem Falls.display (plain : kind.Plain) (ends : Ends rest) :
    Falls kind.display.toList rest [(kind.display.toList.length - 1, .token kind)] := by
  obtain ⟨c, tail, shown, cut⟩ := piece_display plain ends
  rw [shown]
  exact Falls.piece cut

end Falls

section Words

variable {words : List (List Char × TokenKind)}

def written (words : List (List Char × TokenKind)) : List Char :=
  words.flatMap fun word => ' ' :: word.1

def wordPiece (word : List Char × TokenKind) : Nat × Piece := (word.1.length - 1, .token word.2)

/-- The text is one token of its kind, up to what cannot go on with it. -/
def Spelled (word : List Char × TokenKind) : Prop :=
  ∀ rest, Ends rest → Falls word.1 rest [wordPiece word]

def writtenPieces (words : List (List Char × TokenKind)) : List (Nat × Piece) :=
  words.flatMap fun word => [(0, .blank), wordPiece word]

theorem ends_nil : Ends [] := by simp [Ends]

theorem ends_space (more : List Char) : Ends (' ' :: more) := by
  intro c first
  obtain rfl : ' ' = c := by simpa using first
  decide

theorem written_ends (words : List (List Char × TokenKind)) (ends : Ends rest) :
    Ends (written words ++ rest) := by
  cases words with
  | nil => exact ends
  | cons word words => exact ends_space _

theorem Falls.written (spelled : ∀ word ∈ words, Spelled word) (ends : Ends rest) :
    Falls (written words) rest (writtenPieces words) := by
  induction words with
  | nil => exact Falls.nil
  | cons word words ih =>
    have first := spelled word (by simp) _ (written_ends words ends)
    have later := ih fun other member => spelled other (by simp [member])
    have spaced := Falls.append Falls.space first
    exact Falls.append spaced later

theorem gives_written (words : List (List Char × TokenKind)) :
    Gives (writtenPieces words) (words.map Prod.snd) := by
  induction words with
  | nil => exact ⟨rfl, rfl⟩
  | cons word words ih => exact (Gives.blank.append (Gives.token _ word.2)).append ih

end Words

theorem lex_quiet {source : Source} (quiet : complaints source.text.toList = []) :
    lex source = (closed source.text.toList, .empty) := by
  have few : (complaints source.text.toList).length < Diagnostics.cap := by
    rw [quiet]
    decide
  rw [lex, lexWithin_few few, quiet]
  rfl

end Lexer
end Wheelwork
