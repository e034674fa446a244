import Wheelwork.Proofs.Listing
import Wheelwork.Proofs.Numerals

/-!
Listings with fractions. The number that a listing shows for a finite value is cut as one token of
that value, so that each line is read as its instruction; a value that is no number spoils its line.
-/
namespace Wheelwork

namespace Lexer

section Fractions

theorem number_fraction (negative : Bool) {whole fraction rest : List Char}
    (before : ∀ c ∈ whole, c.isDigit = true) (some : fraction ≠ [])
    (after : ∀ c ∈ fraction, c.isDigit = true) (ends : Ends rest) :
    number negative (whole ++ '.' :: (fraction ++ rest)) =
      (whole.length + 1 + fraction.length, .token (.float
        (Numeral.toFloat ⟨negative, Nat.ofDigitChars 10 whole 0, fraction, none⟩))) := by
  have point : ∀ c ∈ ('.' :: (fraction ++ rest)).head?, c.isDigit = false := by simp
  obtain ⟨taken, dropped⟩ := takeWhile_stretch before point
  have digits := (takeWhile_stretch after ends.not_digit).1
  simp [number, taken, dropped, fractionDigits, digits, some]

theorem spelled_fraction {n : Numeral} (some : n.fraction ≠ [])
    (digits : ∀ c ∈ n.fraction, c.isDigit = true) (full : n.exponent = none) :
    Spelled ((if n.negative then ['-'] else []) ++ (Nat.toDigits 10 n.whole ++ '.' :: n.fraction),
      .float n.toFloat) := by
  intro rest ends
  obtain ⟨negative, whole, fraction, _⟩ := n
  simp only at some digits full
  subst full
  have read := number_fraction negative (Numeral.toDigits_digits whole) some digits ends
  rw [Nat.ofDigitChars_ten_toDigits] at read
  obtain ⟨c, tail, shown, digit⟩ := digits_cons whole
  cases negative with
  | false =>
    rw [shown, List.cons_append] at read
    have cut : piece c ((tail ++ '.' :: fraction) ++ rest) = ((tail ++ '.' :: fraction).length,
        .token (.float (Numeral.toFloat ⟨false, whole, fraction, none⟩))) := by
      rw [List.append_assoc, List.cons_append, piece_number digit read]
      simp only [List.length_cons, List.length_append]
      congr 1
      omega
    simp only [shown, Bool.false_eq_true, ↓reduceIte, List.nil_append, List.cons_append]
    exact Falls.piece cut
  | true =>
    have starts : startsWithDigit (Nat.toDigits 10 whole ++ '.' :: (fraction ++ rest)) = true := by
      simp [shown, startsWithDigit, digit]
    apply Falls.piece
    simp [piece, starts, read, Nat.add_assoc, Nat.add_comm 1]

end Fractions

end Lexer

namespace Numeral

/-- The numeral with a point that a listing shows. -/
def pointed (n : Numeral) : Numeral :=
  if n.fraction.isEmpty then { n with fraction := ['0'] } else n

theorem pointed_value (n : Numeral) : n.pointed.decimal.value = n.decimal.value := by
  obtain ⟨negative, whole, fraction, exponent⟩ := n
  cases fraction with
  | cons c fraction => rfl
  | nil =>
    have digit : Nat.ofDigitChars 10 ['0'] whole = whole * 10 := by
      simp [Nat.ofDigitChars_cons, Nat.mul_comm]
    simp only [pointed, List.isEmpty_nil, ↓reduceIte, decimal, digit, Decimal.value,
      Nat.ofDigitChars_nil, List.length_nil, List.length_singleton]
    rw [Nat.cast_one, Nat.cast_zero, sub_zero, zpow_sub_one₀ (by norm_num)]
    push_cast
    field_simp

theorem pointed_digits {n : Numeral} (digits : ∀ c ∈ n.fraction, c.isDigit = true) :
    n.pointed.fraction ≠ [] ∧ ∀ c ∈ n.pointed.fraction, c.isDigit = true := by
  obtain ⟨negative, whole, fraction, exponent⟩ := n
  cases fraction with
  | nil => simp [pointed]
  | cons c fraction => exact ⟨by simp [pointed], digits⟩

theorem floatText_eq {x : Float} {n : Numeral} (shown : ofFloat? display x = some n)
    (full : n.exponent = none) :
    (Instruction.floatText x).toList = (if n.pointed.negative then ['-'] else []) ++
      (Nat.toDigits 10 n.pointed.whole ++ '.' :: n.pointed.fraction) := by
  obtain ⟨negative, whole, fraction, exponent⟩ := n
  simp only at full
  subst full
  have free : '.' ∉ Nat.toDigits 10 whole := by
    intro member
    exact absurd (toDigits_digits whole '.' member) (by decide)
  cases fraction with
  | nil => cases negative <;> simp [Instruction.floatText, format, shown, text, pointed, free]
  | cons c fraction => cases negative <;> simp [Instruction.floatText, format, shown, text, pointed]

theorem display_full (negative : Bool) (x : Decimal) :
    (ofDecimal display negative x).exponent = none := by
  simp only [ofDecimal, display]
  split_ifs <;> rfl

theorem pointed_float {x : Float} (finite : magnitude x < Decimal.infinityBits)
    (filled : magnitude x ≠ 0) :
    ∃ n, ofFloat? display x = some n ∧ n.exponent = none ∧ n.pointed.toFloat = x ∧
      ∀ c ∈ n.fraction, c.isDigit = true := by
  have shown : ofFloat? display x = _ := ofFloat_finite finite
  rw [if_neg filled] at shown
  refine ⟨_, shown, display_full _ _, ?_, ofDecimal_fraction _ _ _⟩
  have sign : ∀ n : Numeral, n.pointed.negative = n.negative := by
    intro n
    unfold pointed
    split <;> rfl
  have bits : (ofDecimal display (isNegative x)
      (Decimal.shortest .up (magnitude x))).pointed.decimal.bits = magnitude x := by
    rw [Decimal.bits_congr ((pointed_value _).trans (ofDecimal_value display _ _)),
      Decimal.shortest_bits .up (Nat.pos_of_ne_zero filled) finite]
  rw [toFloat, Decimal.toFloat, sign, ofDecimal_negative]
  exact (congrArg (Decimal.signed (isNegative x)) bits).trans (Decimal.eq_signed finite).symm

theorem spelled_float {x : Float} (finite : magnitude x < Decimal.infinityBits)
    (filled : magnitude x ≠ 0) :
    Lexer.Spelled ((Instruction.floatText x).toList, .float x) := by
  obtain ⟨n, shown, full, value, digits⟩ := pointed_float finite filled
  obtain ⟨some, all⟩ := pointed_digits digits
  have whole : n.pointed.exponent = none := by
    unfold pointed
    split <;> exact full
  have spelled := Lexer.spelled_fraction some all whole
  rw [value] at spelled
  rw [floatText_eq shown full]
  exact spelled

end Numeral

namespace Instruction

/-- Equal but for the line; fractions are compared as numbers. -/
structure SameButLine (i j : Instruction) : Prop where
  opcode : i.opcode = j.opcode
  int : i.int = j.int
  text : i.text = j.text
  float : (i.float == j.float) = true
  args : i.args = j.args

theorem fraction_spelled {i : Instruction}
    (finite : Numeral.magnitude i.float < Decimal.infinityBits) :
    ∀ word ∈ i.fractionWords, Lexer.Spelled word := by
  intro word member
  unfold fractionWords at member
  split at member
  · rename_i filled
    rw [List.mem_singleton.mp member]
    exact Numeral.spelled_float finite filled
  · simp at member

theorem float_beq {x : Float} (finite : Numeral.magnitude x < Decimal.infinityBits) :
    (x == if Numeral.magnitude x = 0 then 0 else x) = true := by
  have same := Decimal.eq_signed finite
  split_ifs with zero
  · have literal : (0 : Float) = Decimal.signed false 0 := Float.toBits_inj.mp rfl
    rw [zero] at same
    rw [same, literal]
    exact Decimal.zero_beq _ _
  · exact Decimal.beq_self finite

theorem said_same {i : Instruction} (finite : Numeral.magnitude i.float < Decimal.infinityBits)
    (line : Nat) : i.SameButLine (i.said.atLine line) := ⟨rfl, rfl, rfl, float_beq finite, rfl⟩

theorem floatText_infinite {x : Float} (infinite : ¬ Numeral.magnitude x < Decimal.infinityBits) :
    (floatText x).toList = ['i', 'n', 'f', '.', '0'] ∨
      (floatText x).toList = ['-', 'i', 'n', 'f', '.', '0'] ∨
      (floatText x).toList = ['N', 'a', 'N', '.', '0'] := by
  have none : Numeral.ofFloat? Numeral.display x = none := by
    simp [Numeral.ofFloat?, infinite]
  simp only [floatText, Numeral.format, none]
  split_ifs <;> simp_all

end Instruction

namespace Lexer

theorem pieces_stray (c : Char) (more : List Char)
    (stray : piece c more = (0, .flawed (.unexpectedCharacter c) none)) :
    (pieces (c :: more)).filterMap (·.2.problem?) ≠ [] := by
  rw [pieces, stray]
  exact List.cons_ne_nil _ _

theorem pieces_point {c : Char} {tail : List Char} {w : String} (more : List Char)
    (word : piece c (tail ++ '.' :: more) = (tail.length, .token (.word w))) :
    (pieces (c :: tail ++ '.' :: more)).filterMap (·.2.problem?) ≠ [] := by
  rw [Falls.piece word]
  exact pieces_stray '.' more rfl

theorem pieces_infinite {x : Float} (infinite : ¬ Numeral.magnitude x < Decimal.infinityBits)
    (more : List Char) :
    (pieces ((Instruction.floatText x).toList ++ more)).filterMap (·.2.problem?) ≠ [] := by
  rcases Instruction.floatText_infinite infinite with shown | shown | shown <;> rw [shown]
  · exact pieces_point ('0' :: more) (by rfl : piece 'i' (['n', 'f'] ++ '.' :: '0' :: more) = _)
  · exact pieces_stray '-' _ rfl
  · exact pieces_point ('0' :: more) (by rfl : piece 'N' (['a', 'N'] ++ '.' :: '0' :: more) = _)

end Lexer

namespace Instruction

open Lexer in
/-- A value that is no number spoils the source line. -/
theorem display_spoiled {i : Instruction} (sayable : i.Sayable)
    (infinite : ¬ Numeral.magnitude i.float < Decimal.infinityBits) :
    Load.flaws i.display.toList ≠ [] := by
  have filled : Numeral.magnitude i.float ≠ 0 := by
    intro zero
    rw [zero] at infinite
    exact infinite (by decide)
  let rest := (floatText i.float).toList ++ written i.back
  have parts : i.display.toList =
      (i.opcode.mnemonic.toList ++ (written i.front ++ [' '])) ++ rest := by
    rw [display_words, words, fractionWords, if_pos filled]
    simp [written, rest]
  -- What stands before the fraction is cut as ever, so that the fraction is the next piece.
  have front := Falls.written (front_spelled sayable) (ends_space rest)
  have head := Falls.display (mnemonic_plain i.opcode) (written_ends i.front (ends_space rest))
  have falls : Falls (i.opcode.mnemonic.toList ++ (written i.front ++ [' '])) rest _ :=
    Falls.append (by simpa [TokenKind.display] using head) (front.append Falls.space)
  intro sound
  have quiet : (complaints i.display.toList).map Prod.fst = [] := by
    rw [(List.append_eq_nil_iff.mp sound).1]
    rfl
  rw [complaints_problems, parts, falls, List.filterMap_append] at quiet
  exact pieces_infinite infinite _ (List.append_eq_nil_iff.mp quiet).2

end Instruction

namespace Load

variable {is : List Instruction}

theorem lines_same (sayable : ∀ i ∈ is, i.Sayable)
    (finite : ∀ i ∈ is, Numeral.magnitude i.float < Decimal.infinityBits) :
    flaws (lines is) = [] ∧ List.Forall₂ Instruction.SameButLine is (instructions (lines is)) := by
  have spelled : ∀ i ∈ is, ∀ word ∈ i.words, Lexer.Spelled word := by
    intro i member
    exact Instruction.words_spelled (sayable i member)
      (Instruction.fraction_spelled (finite i member))
  obtain ⟨sound, read⟩ := lines_read sayable spelled
  refine ⟨sound, ?_⟩
  rw [read]
  clear sayable spelled sound read
  generalize 1 = first
  induction is generalizing first with
  | nil => exact .nil
  | cons i is ih =>
    rw [List.map_cons, Instruction.inLines_cons]
    exact .cons (Instruction.said_same (finite i (by simp)) first)
      (ih (fun j member => finite j (by simp [member])) (first + 1))

theorem lines_spoiled {i : Instruction} (member : i ∈ is) (spoiled : flaws i.display.toList ≠ []) :
    flaws (lines is) ≠ [] := by
  induction is with
  | nil => cases member
  | cons j is ih =>
    rw [lines_cons, Ne, flaws_join]
    rintro ⟨first, later⟩
    rcases List.mem_cons.mp member with rfl | rest
    · exact spoiled first
    · exact ih rest later

end Load

end Wheelwork
