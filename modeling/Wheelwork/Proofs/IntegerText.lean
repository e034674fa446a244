import Wheelwork.Proofs.Hosts
import Wheelwork.Proofs.Literals

/-!
Whole numbers in texts. An input line is a number exactly if it is a sign and digits between blanks,
with a value that fits a signed 64-bit word; a literal of a source text is read by the same measure.
-/
namespace Wheelwork

namespace Text

/-- What is left of a line without the blanks at its ends. -/
structure Trimmed (line core : List Char) : Prop where
  cut : ∃ front back, line = front ++ core ++ back ∧ ∀ c ∈ front ++ back, isBlank c = true
  first : ∀ c ∈ core.head?, isBlank c = false
  last : ∀ c ∈ core.getLast?, isBlank c = false

/-- The text is a number of this value: one sign at most, and digits. -/
inductive Denotes : List Char → Int → Prop where
  | bare {digits : List Char} (whole : Digits digits []) :
      Denotes digits (signedValue false digits)
  | plus {digits : List Char} (whole : Digits digits []) :
      Denotes ('+' :: digits) (signedValue false digits)
  | minus {digits : List Char} (whole : Digits digits []) :
      Denotes ('-' :: digits) (signedValue true digits)

variable {cs core line digits : List Char} {v : Int} {n : Int64}

theorem dropEndWhile_last (p : Char → Bool) (cs : List Char) :
    ∀ c ∈ (dropEndWhile p cs).getLast?, p c = false := by
  rw [dropEndWhile, List.getLast?_reverse]
  exact Lexer.dropWhile_boundary

theorem trimmed_trim (cs : List Char) : Trimmed cs (trim cs) := by
  obtain ⟨back, split, blank⟩ : ∃ back, cs.dropWhile isBlank = trim cs ++ back ∧
      ∀ c ∈ back, isBlank c = true := dropEndWhile_split isBlank (cs.dropWhile isBlank)
  refine ⟨⟨cs.takeWhile isBlank, back, ?_, ?_⟩, ?_, dropEndWhile_last isBlank _⟩
  · rw [List.append_assoc, ← split, List.takeWhile_append_dropWhile]
  · intro c member
    rcases List.mem_append.mp member with early | late
    · exact List.mem_takeWhile_imp early
    · exact blank c late
  · intro c first
    have boundary : ∀ c ∈ (cs.dropWhile isBlank).head?, isBlank c = false :=
      Lexer.dropWhile_boundary
    apply boundary
    rw [split, List.head?_append, Option.mem_def.mp first]
    rfl

theorem Trimmed.trim (trimmed : Trimmed line core) : Text.trim core = core := by
  have kept : core.dropWhile isBlank = core := by
    cases core with
    | nil => rfl
    | cons c core => simp [trimmed.first c rfl]
  have kept' : core.reverse.dropWhile isBlank = core.reverse := by
    cases reversed : core.reverse with
    | nil => rfl
    | cons c rest =>
      have last := trimmed.last c (by simp [← List.head?_reverse, reversed])
      simp [last]
  rw [Text.trim, kept, trimEnd, dropEndWhile, kept', List.reverse_reverse]

theorem readNat_iff {k : Nat} :
    readNat? cs = some k ↔ Digits cs [] ∧ Nat.ofDigitChars 10 cs 0 = k := by
  unfold readNat?
  constructor
  · intro read
    split at read
    · cases read
    · rename_i some
      split at read
      · rename_i all
        refine ⟨⟨?_, List.all_eq_true.mp all, by simp⟩, Option.some.inj read⟩
        simpa using some
      · cases read
  · rintro ⟨whole, rfl⟩
    have all : cs.all Char.isDigit = true := List.all_eq_true.mpr whole.all
    simp [whole.some, all]

theorem readInt_iff : readInt? cs = some v ↔ Denotes cs v := by
  constructor
  · intro read
    unfold readInt? at read
    split at read
    · obtain ⟨k, digits, rfl⟩ := Option.map_eq_some_iff.mp read
      obtain ⟨whole, rfl⟩ := readNat_iff.mp digits
      exact .plus whole
    · obtain ⟨_, lifted, rfl⟩ := Option.map_eq_some_iff.mp read
      obtain ⟨k, digits, ⟨⟩⟩ := Option.bind_eq_some_iff.mp lifted
      obtain ⟨whole, rfl⟩ := readNat_iff.mp digits
      exact .minus whole
    · obtain ⟨k, digits, rfl⟩ := Option.map_eq_some_iff.mp read
      obtain ⟨whole, rfl⟩ := readNat_iff.mp digits
      exact .bare whole
  · intro denotes
    cases denotes with
    | plus whole => simp [readInt?, readNat_iff.mpr ⟨whole, rfl⟩, signedValue]
    | minus whole => simp [readInt?, readNat_iff.mpr ⟨whole, rfl⟩, signedValue]
    | bare whole =>
      have unsigned : readInt? cs = (readNat? cs).map Int.ofNat := by
        unfold readInt?
        split
        · exact absurd (whole.all '+' (by simp)) (by decide)
        · exact absurd (whole.all '-' (by simp)) (by decide)
        · rfl
      rw [unsigned, readNat_iff.mpr ⟨whole, rfl⟩]
      rfl

theorem readInt64_iff : readInt64? cs = some n ↔ Denotes cs n.toInt := by
  rw [← readInt_iff, readInt64?, Option.bind_eq_some_iff]
  constructor
  · rintro ⟨v, read, fits⟩
    rw [Lexer.toInt64_some fits, read]
  · intro read
    exact ⟨n.toInt, read, Lexer.toInt64_toInt n⟩

theorem digits_repr (k : Nat) : Digits (Nat.toDigits 10 k) [] where
  some := Nat.toDigits_ne_nil
  all _ member := Nat.isDigit_of_mem_toDigits (by decide) (by decide) member
  longest := by simp

theorem denotes_repr (v : Int) : Denotes v.repr.toList v := by
  rw [Int.repr_eq_if]
  split
  · rename_i positive
    have value : signedValue false (Nat.toDigits 10 v.toNat) = v := by
      rw [signedValue, Nat.ofDigitChars_ten_toDigits]
      exact Int.toNat_of_nonneg positive
    have denotes := Denotes.bare (digits_repr v.toNat)
    rwa [value, ← Nat.toList_repr] at denotes
  · rename_i negative
    have value : signedValue true (Nat.toDigits 10 (-v).toNat) = v := by
      rw [signedValue, Nat.ofDigitChars_ten_toDigits, if_pos rfl]
      omega
    have denotes := Denotes.minus (digits_repr (-v).toNat)
    rw [value, ← Nat.toList_repr] at denotes
    simpa using denotes

theorem Denotes.solid (denotes : Denotes cs v) : ∀ c ∈ cs, isBlank c = false := by
  have digit : ∀ {ds : List Char}, Digits ds [] → ∀ c ∈ ds, isBlank c = false := by
    intro ds whole c member
    obtain ⟨low, high⟩ : 48 ≤ c.toNat ∧ c.toNat ≤ 57 :=
      Char.isDigit_iff_toNat.mp (whole.all c member)
    simp only [isBlank, Bool.or_eq_false_iff, Bool.and_eq_false_iff, decide_eq_false_iff_not,
      beq_eq_false_iff_ne]
    omega
  cases denotes with
  | bare whole => exact digit whole
  | plus whole | minus whole =>
    intro c member
    rcases List.mem_cons.mp member with rfl | later
    · decide
    · exact digit whole c later

theorem Denotes.trim (denotes : Denotes cs v) : Text.trim cs = cs := by
  have trimmed : Trimmed cs cs :=
    { cut := ⟨[], [], by simp, by simp⟩
      first := fun c first => denotes.solid c (List.mem_of_mem_head? first)
      last := fun c last => denotes.solid c (List.mem_of_mem_getLast? last) }
  exact trimmed.trim

end Text

namespace Value

theorem ofInput_integer {line : String} {n : Int64} :
    ofInput line = .integer n ↔ Text.Denotes (Text.trim line.toList) n.toInt := by
  rw [← Text.readInt64_iff, ofInput]
  cases Text.readInt64? (Text.trim line.toList) <;> simp

theorem ofInput_text {line : String} :
    ofInput line = .text (String.ofList (Text.trim line.toList)) ↔
      ∀ v, Text.Denotes (Text.trim line.toList) v → ¬ InRange v := by
  constructor
  · intro entered v denotes range
    have value : (Int64.ofInt v).toInt = v :=
      Int64.toInt_ofInt_of_le range.1 (Int.lt_add_one_of_le range.2)
    rw [← value] at denotes
    simp [ofInput_integer.mpr denotes] at entered
  · intro other
    cases read : Text.readInt64? (Text.trim line.toList) with
    | none => simp only [ofInput, read]
    | some n =>
      exact absurd ⟨n.minValue_le_toInt, n.toInt_le⟩ (other _ (Text.readInt64_iff.mp read))

theorem ofInput_display (n : Int64) : ofInput (display (.integer n)) = .integer n := by
  have shown := Text.denotes_repr n.toInt
  have same : (display (.integer n)).toList = n.toInt.repr.toList := rfl
  rw [ofInput_integer, same, shown.trim]
  exact shown

theorem ofInput_again (line : String) : ofInput (ofInput line).display = ofInput line := by
  cases read : Text.readInt64? (Text.trim line.toList) with
  | some n =>
    have entered : ofInput line = .integer n := by simp only [ofInput, read]
    rw [entered]
    exact ofInput_display n
  | none =>
    have entered : ofInput line = .text (String.ofList (Text.trim line.toList)) := by
      simp only [ofInput, read]
    have trimmed := (Text.trimmed_trim line.toList).trim
    rw [entered]
    simp only [display, ofInput, String.toList_ofList, trimmed, read]

end Value

/-- An input line stands for an integer exactly if, without the blanks at its ends, it is a number
in the range of the integers, and otherwise for the text between the blanks; the display of what was
entered can be entered again. A literal in a source text stands for its value by the same measure,
and out of range for a zero with one error, unless there were errors enough before it to stop the
lexer. -/
theorem integer_text_is_exact :
    (∀ line : String, Text.Trimmed line.toList (Text.trim line.toList) ∧
      (∀ n, Value.ofInput line = .integer n ↔ Text.Denotes (Text.trim line.toList) n.toInt) ∧
      (Value.ofInput line = .text (String.ofList (Text.trim line.toList)) ↔
        ∀ v, Text.Denotes (Text.trim line.toList) v → ¬ InRange v) ∧
      Value.ofInput (Value.ofInput line).display = Value.ofInput line) ∧
    (∀ n, Value.ofInput (Value.integer n).display = .integer n) ∧
    ∀ (slot : Lexer.Slot) (name : String) (negative : Bool) (digits : List Char),
      Digits digits [] → (Lexer.codesOf slot.before).length < Diagnostics.cap →
      (InRange (signedValue negative digits) →
        ∃ n : Int64, n.toInt = signedValue negative digits ∧
          slot.Reads name (signText negative ++ digits) n []) ∧
      (¬ InRange (signedValue negative digits) →
        slot.Reads name (signText negative ++ digits) 0 [102]) := by
  refine ⟨?_, Value.ofInput_display, ?_⟩
  · intro line
    exact ⟨Text.trimmed_trim _, fun n => Value.ofInput_integer, Value.ofInput_text,
      Value.ofInput_again line⟩
  · intro slot name negative digits whole reached
    exact slot.reads_literal name negative whole reached

def crowdedSlot : Lexer.Slot where
  above := ['@', '\n']
  front := ['P', ' ', '"', 'a', ';', 'b', '"']
  gap := '\t'
  after := [';', '"', 'c', '\n', '"', 'd']
  lines := .inr rfl
  closed := by
    have inside : ∀ c ∈ ['a', ';', 'b'], c ≠ '"' ∧ c ≠ '\n' := by simp
    have quoted := Lexer.Closed.string inside .nil
    have spaced := Lexer.Closed.char (c := ' ') (by decide) (by decide) (by decide) quoted
    exact .char (by decide) (by decide) (by decide) spaced
  blank := .inr (.inl rfl)
  apart := by simp

theorem extreme_texts_read :
    Value.ofInput "\u2003+007\u00a0\t" = .integer 7 ∧
      Value.ofInput " 9223372036854775808" = .text "9223372036854775808" ∧
      Lexer.codesOf crowdedSlot.before = [100] ∧
      crowdedSlot.Reads "a" "-9223372036854775808".toList Int64.minValue [] ∧
      crowdedSlot.Reads "a" "9223372036854775808".toList 0 [102] := by
  obtain ⟨lines, _, literals⟩ := integer_text_is_exact
  have whole : Digits "9223372036854775808".toList [] :=
    ⟨by simp, List.all_eq_true.mp (by decide +kernel), by simp⟩
  have outside : ¬ InRange (signedValue false "9223372036854775808".toList) := by
    unfold InRange
    decide
  have inside : InRange (signedValue true "9223372036854775808".toList) := by
    unfold InRange
    decide
  have before : Lexer.codesOf crowdedSlot.before = [100] := by decide +kernel
  have reached : (Lexer.codesOf crowdedSlot.before).length < Diagnostics.cap := by
    rw [before]
    decide
  refine ⟨?_, ?_, before, ?_, ?_⟩
  · have core : Text.trim "\u2003+007\u00a0\t".toList = ['+', '0', '0', '7'] := by decide +kernel
    have value : signedValue false ['0', '0', '7'] = (7 : Int64).toInt := by decide
    apply ((lines _).2.1 7).mpr
    rw [core, ← value]
    exact .plus ⟨by simp, by simp, by simp⟩
  · have core : Text.trim " 9223372036854775808".toList = "9223372036854775808".toList := by
      decide +kernel
    have entered := (lines " 9223372036854775808").2.2.1
    rw [core, String.ofList_toList] at entered
    apply entered.mpr
    intro v denotes
    have value : some v = some (signedValue false "9223372036854775808".toList) := by
      rw [← Text.readInt_iff.mpr denotes, Text.readInt_iff.mpr (.bare whole)]
    rw [Option.some.inj value]
    exact outside
  · obtain ⟨n, value, reads⟩ := (literals crowdedSlot "a" true _ whole reached).1 inside
    obtain rfl : n = Int64.minValue := Int64.toInt_inj.mp (value.trans (by decide))
    exact reads
  · exact (literals crowdedSlot "a" false _ whole reached).2 outside

end Wheelwork
