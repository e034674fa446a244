import Mathlib.Data.List.TakeWhile
import Wheelwork.Proofs.Joining

/-!
How the pieces of a line are spelled. `Shape` says of each kind of piece which characters it takes
and where it stops; `piece_shape` is the only place where the branches of the lexer are taken apart.
From it follows what a token of each kind looks like in its line.
-/
namespace Wheelwork

def signedValue (negative : Bool) (digits : List Char) : Int :=
  if negative then -(Nat.ofDigitChars 10 digits 0 : Int) else Nat.ofDigitChars 10 digits 0

def signText (negative : Bool) : List Char := if negative then ['-'] else []

def InRange (n : Int) : Prop := Int64.minValue.toInt ≤ n ∧ n ≤ Int64.maxValue.toInt

structure Digits (digits after : List Char) : Prop where
  some : digits ≠ []
  all : ∀ c ∈ digits, c.isDigit = true
  longest : ∀ c ∈ after.head?, c.isDigit = false

namespace Digits

variable {digits after : List Char}

theorem stop (longest : Digits digits after) :
    Lexer.startsWithDigit after = false := by
  cases after with
  | nil => rfl
  | cons c after => exact longest.longest c rfl

theorem starts (longest : Digits digits after)
    (more : List Char) : Lexer.startsWithDigit (digits ++ more) = true := by
  cases digits with
  | nil => exact absurd rfl longest.some
  | cons c digits => exact longest.all c (by simp)

end Digits

def NumberStart (before : List Char) : Prop := ∀ c ∈ before.getLast?, c.isDigit = false ∧ c ≠ '-'

/-- The characters `shown`, between `before` and `after` in their line, are a token of this kind,
with just these codes of errors about it. -/
def TokenKind.Spelled (before shown after : List Char) (codes : List Nat) : TokenKind → Prop
  | .word w =>
    (TokenKind.word w).Plain ∧ shown = w.toList ∧
      (∀ c ∈ after.head?, Lexer.isWordChar c = false) ∧ codes = []
  | .args => shown = ['%'] ∧ codes = []
  | .string s =>
    (TokenKind.string s).Plain ∧
      (shown = '"' :: s.toList ++ ['"'] ∧ codes = [] ∨
        shown = '"' :: s.toList ∧ after = [] ∧ codes = [101])
  | .integer n =>
    ∃ negative digits, shown = signText negative ++ digits ∧ Digits digits after ∧
      (negative = false → NumberStart before) ∧
      (n.toInt = signedValue negative digits ∧ codes = [] ∨
        ¬ InRange (signedValue negative digits) ∧ n = 0 ∧ codes = [102])
  | .float x =>
    ∃ negative whole fraction, shown = signText negative ++ whole ++ '.' :: fraction ∧
      Digits whole ['.'] ∧ Digits fraction after ∧ (negative = false → NumberStart before) ∧
      x = Numeral.toFloat ⟨negative, Nat.ofDigitChars 10 whole 0, fraction, none⟩ ∧ codes = []
  | .newline | .eof => False

def Text.Skipped (c : Char) : Prop := c = ' ' ∨ c = '\t' ∨ c = '\r'

instance (c : Char) : Decidable (Text.Skipped c) :=
  inferInstanceAs (Decidable (c = ' ' ∨ c = '\t' ∨ c = '\r'))

namespace Lexer

def Piece.codes (p : Piece) : List Nat := p.problem?.toList.map Problem.code

/-- The pieces of a line by their characters and what follows them. -/
inductive Shape : (shown after : List Char) → Piece → Prop
  | blank {c : Char} {after : List Char} (skipped : Text.Skipped c) : Shape [c] after .blank
  | comment {body : List Char} : Shape (';' :: body) [] .blank
  | string {body after : List Char} (inside : ∀ c ∈ body, c ≠ '"' ∧ c ≠ '\n') :
    Shape ('"' :: body ++ ['"']) after (.token (.string (String.ofList body)))
  | openString {body : List Char} (inside : ∀ c ∈ body, c ≠ '"' ∧ c ≠ '\n') :
    Shape ('"' :: body) [] (.flawed .unterminatedString (some (.string (String.ofList body))))
  | args {after : List Char} : Shape ['%'] after (.token .args)
  | integer {negative : Bool} {digits after : List Char} {n : Int64} (longest : Digits digits after)
    (value : n.toInt = signedValue negative digits) :
    Shape (signText negative ++ digits) after (.token (.integer n))
  | outOfRange {negative : Bool} {digits after : List Char} {literal : String}
    (longest : Digits digits after) (outside : ¬ InRange (signedValue negative digits)) :
    Shape (signText negative ++ digits) after
      (.flawed (.integerOutOfRange literal) (some (.integer 0)))
  | float {negative : Bool} {whole fraction after : List Char} (digits : Digits whole ['.'])
    (longest : Digits fraction after) :
    Shape (signText negative ++ whole ++ '.' :: fraction) after (.token (.float
      (Numeral.toFloat ⟨negative, Nat.ofDigitChars 10 whole 0, fraction, none⟩)))
  | word {c : Char} {tail after : List Char} (letter : c.isAlpha = true)
    (inside : ∀ x ∈ tail, isWordChar x = true) (longest : ∀ x ∈ after.head?, isWordChar x = false) :
    Shape (c :: tail) after (.token (.word (String.ofList (c :: tail))))
  | stray {c : Char} {after : List Char} (solid : ¬ Text.Skipped c) (code : c ≠ ';')
    (noDigit : c.isDigit = false) (noSign : c = '-' → startsWithDigit after = false) :
    Shape [c] after (.flawed (.unexpectedCharacter c) none)

theorem dropWhile_boundary {α : Type} {p : α → Bool} {cs : List α} :
    ∀ c ∈ (cs.dropWhile p).head?, p c = false := by
  intro c first
  have stops := List.head?_dropWhile_not p cs
  rw [Option.mem_def.mp first] at stops
  exact stops

theorem digits_taken {cs : List Char} (starts : startsWithDigit cs = true) :
    Digits (cs.takeWhile Char.isDigit) (cs.dropWhile Char.isDigit) := by
  refine ⟨?_, fun _ => List.mem_takeWhile_imp, dropWhile_boundary⟩
  cases cs with
  | nil => cases starts
  | cons c cs =>
    have digit : c.isDigit = true := starts
    simp [digit]

theorem fraction_split {cs : List Char} (some : fractionDigits cs ≠ []) :
    ∃ more, cs = '.' :: (fractionDigits cs ++ more) ∧ Digits (fractionDigits cs) more := by
  unfold fractionDigits at *
  split
  · rename_i cs
    refine ⟨cs.dropWhile Char.isDigit, ?_, some, fun _ => List.mem_takeWhile_imp, dropWhile_boundary⟩
    rw [List.takeWhile_append_dropWhile]
  · simp_all

theorem toInt64_some {v : Int} {n : Int64} (fits : Text.toInt64? v = some n) : n.toInt = v := by
  unfold Text.toInt64? at fits
  split at fits
  · rename_i range
    cases fits
    exact Int64.toInt_ofInt_of_le range.1 (Int.lt_add_one_of_le range.2)
  · cases fits

theorem toInt64_none {v : Int} (outside : Text.toInt64? v = none) : ¬ InRange v := by
  unfold Text.toInt64? at outside
  split at outside
  · cases outside
  · assumption

theorem number_shape (negative : Bool) {cs : List Char} (starts : startsWithDigit cs = true) :
    Shape (signText negative ++ cs.take (number negative cs).1) (cs.drop (number negative cs).1)
      (number negative cs).2 := by
  have digits := digits_taken starts
  have split : cs = cs.takeWhile Char.isDigit ++ cs.dropWhile Char.isDigit :=
    List.takeWhile_append_dropWhile.symm
  unfold number
  simp only
  generalize cs.takeWhile Char.isDigit = whole at *
  generalize cs.dropWhile Char.isDigit = rest at *
  subst split
  by_cases integer : fractionDigits rest = []
  · simp only [integer, List.isEmpty_nil, ↓reduceIte, List.take_left, List.drop_left]
    split
    · rename_i fits
      exact .integer digits (toInt64_some fits)
    · rename_i outside
      exact .outOfRange digits (toInt64_none outside)
  · obtain ⟨more, point, longest⟩ := fraction_split integer
    have before : Digits whole ['.'] := ⟨digits.some, digits.all, by simp⟩
    simp only [List.isEmpty_iff, integer, ↓reduceIte]
    generalize fractionDigits rest = fraction at *
    have joined : whole ++ rest = (whole ++ '.' :: fraction) ++ more := by simp [point]
    have width : whole.length + 1 + fraction.length = (whole ++ '.' :: fraction).length := by
      rw [List.length_append, List.length_cons]
      omega
    rw [joined, width, List.take_left, List.drop_left, ← List.append_assoc]
    exact .float before longest

theorem string_shape {cs : List Char} (oneLine : '\n' ∉ cs) :
    Shape ('"' :: cs.take (string cs).1) (cs.drop (string cs).1) (string cs).2 := by
  have inside : ∀ c ∈ cs.takeWhile fun c => c != '"' && c != '\n', c ≠ '"' ∧ c ≠ '\n' := by
    intro c member
    simpa using List.mem_takeWhile_imp member
  have boundary : ∀ c ∈ (cs.dropWhile fun c => c != '"' && c != '\n').head?,
      (c != '"' && c != '\n') = false := dropWhile_boundary
  have split : cs = (cs.takeWhile fun c => c != '"' && c != '\n') ++
      cs.dropWhile fun c => c != '"' && c != '\n' := List.takeWhile_append_dropWhile.symm
  unfold string
  simp only
  generalize (cs.takeWhile fun c => c != '"' && c != '\n') = body at *
  generalize (cs.dropWhile fun c => c != '"' && c != '\n') = rest at *
  subst split
  split
  · rename_i more
    have joined : body ++ '"' :: more = (body ++ ['"']) ++ more := by simp
    have width : body.length + 1 = (body ++ ['"']).length := by simp
    rw [joined, width, List.take_left, List.drop_left]
    exact .string inside
  · rename_i unclosed
    -- Only a quote or a line feed stops a string, and the line has no line feed.
    cases rest with
    | nil =>
      simp only [List.append_nil, List.take_length, List.drop_length]
      exact .openString inside
    | cons c more =>
      have quote : c = '"' := by
        have stop := boundary c rfl
        have inLine : c ≠ '\n' := by
          rintro rfl
          simp at oneLine
        simpa [inLine] using stop
      exact absurd (by rw [quote]) (unclosed more)

theorem Shape.ne_nil {shown after : List Char} {p : Piece} (shape : Shape shown after p) :
    shown ≠ [] := by
  cases shape with
  | integer longest | outOfRange longest => simp [longest.some]
  | blank | comment | string | openString | args | float | word | stray => simp

theorem Shape.inLine {shown after : List Char} {p : Piece} (shape : Shape shown after p) :
    ∀ kind ∈ p.kind?, kind.endsLine = false := by
  intro kind given
  cases shape <;> cases given <;> rfl

/-- What the lexer cuts from the front of a line is one of the shapes. -/
theorem piece_shape {c : Char} {rest : List Char} (oneLine : '\n' ∉ c :: rest) :
    Shape (c :: rest.take (piece c rest).1) (rest.drop (piece c rest).1) (piece c rest).2 := by
  have inLine : c ≠ '\n' := by
    rintro rfl
    simp at oneLine
  have free : '\n' ∉ rest := fun member => oneLine (List.mem_cons_of_mem c member)
  unfold piece
  simp only [inLine, ↓reduceIte]
  split_ifs with skipped comment quote args digit minus letter
  · exact .blank skipped
  · have inside : ∀ d ∈ rest, (d != '\n') = true := by
      intro d member
      have other : d ≠ '\n' := fun same => free (same ▸ member)
      simpa using other
    have whole : (rest ++ []).takeWhile (· != '\n') = rest ++ [] :=
      List.takeWhile_append_of_pos inside
    rw [List.append_nil] at whole
    rw [whole, List.take_length, List.drop_length, comment]
    exact .comment
  · rw [quote]
    exact string_shape free
  · rw [args]
    exact .args
  · have starts : startsWithDigit (c :: rest) = true := digit
    have shape := number_shape false starts
    obtain ⟨count, taken⟩ : ∃ count, (number false (c :: rest)).1 = count + 1 := by
      refine Nat.exists_eq_succ_of_ne_zero ?_
      intro none
      exact shape.ne_nil (by simp [none, signText])
    rw [taken] at shape
    simpa [taken, signText] using shape
  · rw [minus.1]
    exact number_shape true minus.2
  · have split : rest = rest.takeWhile isWordChar ++ rest.dropWhile isWordChar :=
      List.takeWhile_append_dropWhile.symm
    have shape : Shape (c :: rest.takeWhile isWordChar) (rest.dropWhile isWordChar) _ :=
      .word letter (fun _ => List.mem_takeWhile_imp) dropWhile_boundary
    simp only
    generalize rest.takeWhile isWordChar = tail at *
    generalize rest.dropWhile isWordChar = after at *
    rw [split, List.take_left, List.drop_left]
    exact shape
  · refine .stray skipped comment (by simpa using digit) ?_
    intro same
    simpa [same] using minus

section Spelled

variable {before shown after : List Char} {p : Piece} {kind : TokenKind}

theorem Shape.numberStart (shape : Shape shown after p) (starts : startsWithDigit after = true) :
    NumberStart (before ++ shown) := by
  have apart : ∀ c ∈ shown.getLast?, c.isDigit = false ∧ c ≠ '-' := by
    cases shape with
    | blank skipped =>
      rcases skipped with rfl | rfl | rfl <;> simp
    | comment | openString => cases starts
    | string inside => simp [List.getLast?_cons]
    | args => simp
    | integer longest | outOfRange longest | float _ longest =>
      rw [longest.stop] at starts
      cases starts
    | word letter inside longest =>
      cases after with
      | nil => cases starts
      | cons c after =>
        have digit : c.isDigit = true := starts
        simpa [isWordChar, Char.isAlphanum, digit] using longest c rfl
    | stray solid code noDigit noSign =>
      intro c last
      obtain rfl := Option.some.inj last
      refine ⟨noDigit, ?_⟩
      intro sign
      rw [noSign sign] at starts
      cases starts
  rw [NumberStart, List.getLast?_append_of_ne_nil _ shape.ne_nil]
  exact apart

theorem Shape.spelled (shape : Shape shown after p)
    (start : startsWithDigit (shown ++ after) = true → NumberStart before)
    (given : p.kind? = some kind) : kind.Spelled before shown after p.codes := by
  cases shape with
  | blank | comment | stray => cases given
  | string inside =>
    cases given
    exact ⟨by simpa [TokenKind.Plain] using inside, .inl ⟨by simp, rfl⟩⟩
  | openString inside =>
    cases given
    exact ⟨by simpa [TokenKind.Plain] using inside, .inr ⟨by simp, rfl, rfl⟩⟩
  | args =>
    cases given
    exact ⟨rfl, rfl⟩
  | integer longest value =>
    cases given
    refine ⟨_, _, rfl, longest, ?_, .inl ⟨value, rfl⟩⟩
    rintro rfl
    exact start (longest.starts _)
  | outOfRange longest outside =>
    cases given
    refine ⟨_, _, rfl, longest, ?_, .inr ⟨outside, rfl, rfl⟩⟩
    rintro rfl
    exact start (longest.starts _)
  | float digits longest =>
    cases given
    refine ⟨_, _, _, rfl, digits, longest, ?_, rfl, rfl⟩
    rintro rfl
    rw [List.append_assoc] at start
    exact start (digits.starts _)
  | word letter inside longest =>
    cases given
    exact ⟨⟨_, _, by simp, letter, inside⟩, by simp, longest, rfl⟩

end Spelled
end Lexer
end Wheelwork
