import Wheelwork.Json.Printer
import Wheelwork.Json.Reader
import Wheelwork.Proofs.Numerals
import Wheelwork.Proofs.Reading

/-!
JSON text read back. Numbers, strings and the values built of them are read from their compact text
as they were, up to what follows the text.
-/
namespace Wheelwork.Json

open Numeral (toDigits_digits digits_lt)

section Numbers

variable {rest : List Char}

def Stops (rest : List Char) : Prop :=
  ∀ c ∈ rest.head?, c.isDigit = false ∧ c ≠ '.' ∧ c ≠ 'e' ∧ c ≠ 'E'

theorem readDigits_text {digits : List Char} (some : digits ≠ [])
    (all : ∀ c ∈ digits, c.isDigit = true) (stop : ∀ c ∈ rest.head?, c.isDigit = false) :
    readDigits? (digits ++ rest) = .some (digits, rest) := by
  obtain ⟨taken, dropped⟩ := Lexer.takeWhile_stretch all stop
  simp [readDigits?, taken, dropped, some]

theorem no_idle_zero (n : ℕ) :
    ¬ ((Nat.toDigits 10 n).head? = some '0' ∧ 1 < (Nat.toDigits 10 n).length) := by
  rintro ⟨zero, long⟩
  have value : Nat.ofDigitChars 10 (Nat.toDigits 10 n) 0 = n := Nat.ofDigitChars_ten_toDigits
  have digits := toDigits_digits n
  cases shown : Nat.toDigits 10 n with
  | nil => exact Nat.toDigits_ne_nil shown
  | cons c cs =>
    rw [shown] at zero long value digits
    obtain rfl : c = '0' := by simpa using zero
    simp only [List.length_cons] at long
    -- Without its first digit the number has the same value, and so one digit less.
    have less := digits_lt fun d member => digits d (List.mem_cons_of_mem '0' member)
    have short := (Nat.length_toDigits_le_iff (by decide : 1 < 10) (by omega)).mpr less
    have same : Nat.ofDigitChars 10 cs 0 = n := by simpa [Nat.ofDigitChars_cons] using value
    rw [same, shown, List.length_cons] at short
    omega

def fractionText (fraction : List Char) : List Char :=
  if fraction.isEmpty then [] else '.' :: fraction

def exponentText : Option ℤ → List Char
  | none => []
  | some e => 'e' :: (if e < 0 then ['-'] else ['+']) ++ Nat.toDigits 10 e.natAbs

theorem text_eq (n : Numeral) :
    n.text ['+'] = (if n.negative then ['-'] else []) ++
      (Nat.toDigits 10 n.whole ++ (fractionText n.fraction ++ exponentText n.exponent)) := by
  cases exponent : n.exponent <;>
    simp [Numeral.text, fractionText, exponentText, exponent]

theorem readFraction_text {fraction : List Char} (all : ∀ c ∈ fraction, c.isDigit = true)
    (stop : ∀ c ∈ rest.head?, c.isDigit = false ∧ c ≠ '.') :
    readFraction? (fractionText fraction ++ rest) = some (fraction, rest) := by
  cases fraction with
  | nil =>
    simp only [fractionText, List.isEmpty_nil, ↓reduceIte, List.nil_append]
    unfold readFraction?
    split
    · exact absurd rfl (stop '.' rfl).2
    · rfl
  | cons c fraction =>
    simp only [fractionText, List.isEmpty_cons, Bool.false_eq_true, ↓reduceIte, List.cons_append,
      readFraction?]
    exact readDigits_text (by simp) all fun d first => (stop d first).1

theorem readExponent_text (exponent : Option ℤ) (stop : Stops rest) :
    readExponent? (exponentText exponent ++ rest) = some (exponent, rest) := by
  cases exponent with
  | none =>
    cases rest with
    | nil => rfl
    | cons c rest =>
      obtain ⟨_, _, small, large⟩ := stop c rfl
      simp [exponentText, readExponent?, small, large]
  | some e =>
    have read : readDigits? (Nat.toDigits 10 e.natAbs ++ rest) = _ :=
      readDigits_text Nat.toDigits_ne_nil (toDigits_digits e.natAbs) fun c first => (stop c first).1
    by_cases negative : e < 0
    · simp [exponentText, readExponent?, negative, read, Nat.ofDigitChars_ten_toDigits,
        abs_of_neg negative]
    · simp [exponentText, readExponent?, negative, read, Nat.ofDigitChars_ten_toDigits,
        abs_of_nonneg (not_lt.mp negative)]

theorem exponent_stops (exponent : Option ℤ) (stop : Stops rest) :
    ∀ c ∈ (exponentText exponent ++ rest).head?, c.isDigit = false ∧ c ≠ '.' := by
  intro c first
  cases exponent with
  | none =>
    obtain ⟨digit, point, _⟩ := stop c first
    exact ⟨digit, point⟩
  | some e =>
    obtain rfl : c = 'e' := by simpa [exponentText] using first.symm
    decide

theorem fraction_stops (fraction : List Char)
    (stop : ∀ c ∈ rest.head?, c.isDigit = false ∧ c ≠ '.') :
    ∀ c ∈ (fractionText fraction ++ rest).head?, c.isDigit = false := by
  intro c first
  cases fraction with
  | nil => exact (stop c first).1
  | cons d fraction =>
    obtain rfl : c = '.' := by simpa [fractionText] using first.symm
    rfl

theorem toDigits_unsigned (n : ℕ) (more : List Char) :
    ∀ tail, Nat.toDigits 10 n ++ more ≠ '-' :: tail := by
  intro tail same
  obtain ⟨c, digits, shown, digit⟩ := Lexer.digits_cons n
  rw [shown, List.cons_append] at same
  rw [(List.cons.inj same).1] at digit
  exact absurd digit (by decide)

/-- A numeral is read back from its text. -/
theorem readNumeral_text {n : Numeral} (all : ∀ c ∈ n.fraction, c.isDigit = true)
    (stop : Stops rest) : readNumeral? (n.text ['+'] ++ rest) = some (n, rest) := by
  have ended := exponent_stops n.exponent stop
  have digits := readDigits_text Nat.toDigits_ne_nil (toDigits_digits n.whole)
    (fraction_stops n.fraction ended)
  have fraction := readFraction_text all ended
  have exponent := readExponent_text n.exponent stop
  have parts : n.text ['+'] ++ rest = (if n.negative then ['-'] else []) ++
      (Nat.toDigits 10 n.whole ++ (fractionText n.fraction ++ (exponentText n.exponent ++ rest))) := by
    rw [text_eq]
    simp only [List.append_assoc]
  obtain ⟨negative, whole, _, _⟩ := n
  rw [parts]
  simp only at *
  unfold readNumeral?
  cases negative with
  | true =>
    simp [digits, no_idle_zero, fraction, exponent, Nat.ofDigitChars_ten_toDigits]
  | false =>
    simp only [Bool.false_eq_true, ↓reduceIte, List.nil_append]
    split
    · rename_i signed
      exact absurd signed (toDigits_unsigned _ _ _)
    · simp [digits, no_idle_zero, fraction, exponent, Nat.ofDigitChars_ten_toDigits]

end Numbers

section Strings

theorem hexValue_hexDigit {n : ℕ} (digit : n < 16) : hexValue? (hexDigit n) = some n := by
  revert n
  decide

theorem readUnits_letter {e c : Char} (named : unescape? e = some c) (rest : List Char) :
    readUnits? ('\\' :: e :: rest) = (readUnits? rest).map fun r => (c.toNat :: r.1, r.2) := by
  have short : e ≠ 'u' := by
    rintro rfl
    cases named
  rw [readUnits?.eq_def]
  simp only [show '\\' ≠ '"' by decide, ↓reduceIte]
  split
  · rename_i long
    exact absurd (List.cons.inj long).1 short
  · rename_i same
    obtain ⟨rfl, rfl⟩ := List.cons.inj same
    cases read : readUnits? rest <;> simp [named]
  · rename_i none
    cases none

theorem readUnits_escape (c : Char) (rest : List Char) :
    readUnits? (escape c ++ rest) = (readUnits? rest).map fun r => (c.toNat :: r.1, r.2) := by
  unfold escape
  split_ifs with quote slash back feed line carriage tab control
  · exact readUnits_letter (by rw [quote]; rfl) rest
  · exact readUnits_letter (by rw [slash]; rfl) rest
  · exact readUnits_letter (by rw [back]; rfl) rest
  · exact readUnits_letter (by rw [feed]; rfl) rest
  · exact readUnits_letter (by rw [line]; rfl) rest
  · exact readUnits_letter (by rw [carriage]; rfl) rest
  · exact readUnits_letter (by rw [tab]; rfl) rest
  · have high := hexValue_hexDigit (by omega : c.toNat / 16 < 16)
    have low := hexValue_hexDigit (by omega : c.toNat % 16 < 16)
    have zero : hexValue? '0' = some 0 := rfl
    have unit : c.toNat / 16 * 16 + c.toNat % 16 = c.toNat := by omega
    cases read : readUnits? rest <;> simp [readUnits?, read, high, low, zero, unit]
  · rw [List.singleton_append, readUnits?.eq_def]
    cases read : readUnits? rest <;> simp [read, quote, slash, control]

theorem readUnits_text (cs rest : List Char) :
    readUnits? (cs.flatMap escape ++ '"' :: rest) = some (cs.map Char.toNat, rest) := by
  induction cs with
  | nil =>
    rw [List.flatMap_nil, List.nil_append, readUnits?.eq_def]
    simp
  | cons c cs ih => simp [List.flatMap_cons, readUnits_escape, ih]

theorem not_surrogate (c : Char) : isHigh c.toNat = false ∧ isLow c.toNat = false := by
  have valid : c.toNat < 0xD800 ∨ 0xDFFF < c.toNat ∧ c.toNat < 0x110000 := c.valid
  simp only [isHigh, isLow, Bool.and_eq_false_iff, decide_eq_false_iff_not]
  omega

theorem joinUnits_text (cs : List Char) : joinUnits? (cs.map Char.toNat) = some cs := by
  induction cs with
  | nil => rfl
  | cons c cs ih =>
    obtain ⟨high, low⟩ := not_surrogate c
    cases cs with
    | nil => simp [joinUnits?, high, low]
    | cons d cs => simp_all [joinUnits?]

theorem readString_quote (s : String) (rest : List Char) :
    readString? (s.toList.flatMap escape ++ '"' :: rest) = some (some s, rest) := by
  simp [readString?, readUnits_text, joinUnits_text]

end Strings

mutual

/-- The values whose text is their own: digits after the point, and no broken string. -/
def Plain : Json → Prop
  | .number n => ∀ c ∈ n.fraction, c.isDigit = true
  | .array items => PlainItems items
  | .object fields => PlainFields fields
  | .garbled => False
  | .null | .bool _ | .string _ => True

def PlainItems : List Json → Prop
  | [] => True
  | item :: rest => Plain item ∧ PlainItems rest

def PlainFields : List (String × Json) → Prop
  | [] => True
  | (_, value) :: rest => Plain value ∧ PlainFields rest

end

section Values

variable {rest : List Char} {fuel : ℕ}

theorem skip_solid {c : Char} {cs : List Char} (solid : isSpace c = false) :
    skipSpace (c :: cs) = c :: cs := by
  simp [skipSpace, solid]

theorem stops_cons {c : Char} (cs : List Char) (mark : c = ',' ∨ c = ']' ∨ c = '\x7d') :
    Stops (c :: cs) := by
  intro d first
  obtain rfl : c = d := by simpa using first
  rcases mark with rfl | rfl | rfl <;> decide

theorem ofFields_some (fields : List (String × Json)) :
    ofFields (fields.map fun field => (some field.1, field.2)) = .object fields := by
  have all : (fields.map fun field => (some field.1, field.2)).mapM
      (fun field : Option String × Json => field.1.map (·, field.2)) = some fields := by
    induction fields with
    | nil => rfl
    | cons field fields ih => simp [ih]
  simp [ofFields, all]

theorem start_ne {c d : Char} (start : c.isDigit = true ∨ c = '-') (digit : d.isDigit = false)
    (sign : d ≠ '-') : c ≠ d := by
  rintro rfl
  rcases start with one | one
  · rw [digit] at one
    cases one
  · exact sign one

theorem start_solid {c : Char} (start : c.isDigit = true ∨ c = '-') : isSpace c = false := by
  simp [isSpace, start_ne start (by rfl : ' '.isDigit = false) (by decide),
    start_ne start (by rfl : '\n'.isDigit = false) (by decide),
    start_ne start (by rfl : '\t'.isDigit = false) (by decide),
    start_ne start (by rfl : '\r'.isDigit = false) (by decide)]

theorem readValue_number {c : Char} {cs : List Char} (start : c.isDigit = true ∨ c = '-') :
    readValue? (fuel + 1) (c :: cs) =
      (readNumeral? (c :: cs)).map fun r => (.number r.1, r.2) := by
  unfold readValue?
  rw [skip_solid (start_solid start)]
  split
  case h_1 same => exact absurd (List.cons.inj same).1 (start_ne start rfl (by decide))
  case h_2 same => exact absurd (List.cons.inj same).1 (start_ne start rfl (by decide))
  case h_3 same => exact absurd (List.cons.inj same).1 (start_ne start rfl (by decide))
  case h_4 same => exact absurd (List.cons.inj same).1 (start_ne start rfl (by decide))
  case h_5 same => exact absurd (List.cons.inj same).1 (start_ne start rfl (by decide))
  case h_6 same => exact absurd (List.cons.inj same).1 (start_ne start rfl (by decide))
  case h_7 => cases readNumeral? (c :: cs) <;> rfl

theorem text_cons (n : Numeral) :
    ∃ c cs, n.text ['+'] = c :: cs ∧ (c.isDigit = true ∨ c = '-') := by
  rw [text_eq]
  cases n.negative with
  | true => exact ⟨'-', _, rfl, .inr rfl⟩
  | false =>
    obtain ⟨c, digits, shown, digit⟩ := Lexer.digits_cons n.whole
    exact ⟨c, _, by simp [shown]; rfl, .inl digit⟩

theorem compact_cons (j : Json) :
    ∃ c cs, compact j = c :: cs ∧ isSpace c = false ∧ c ≠ ']' := by
  cases j with
  | null | garbled => exact ⟨'n', _, by rw [compact], by decide⟩
  | bool b =>
    cases b with
    | true => exact ⟨'t', _, by rw [compact], by decide⟩
    | false => exact ⟨'f', _, by rw [compact], by decide⟩
  | number n =>
    obtain ⟨c, cs, shown, start⟩ := text_cons n
    exact ⟨c, cs, by rw [compact, shown], start_solid start, start_ne start rfl (by decide)⟩
  | string s => exact ⟨'"', _, by rw [compact, quote]; rfl, by decide⟩
  | array items => exact ⟨'[', _, by rw [compact]; rfl, by decide⟩
  | object fields => exact ⟨'\x7b', _, by rw [compact]; rfl, by decide⟩

theorem readValue_string (s : String) :
    readValue? (fuel + 1) (quote s ++ rest) = some (.string s, rest) := by
  have read := readString_quote s rest
  simp [readValue?, quote, skip_solid, isSpace, read]

theorem compactItems_more (item next : Json) (more : List Json) :
    compactItems (item :: next :: more) = compact item ++ ',' :: compactItems (next :: more) := by
  rw [compactItems]
  simp

theorem compactFields_more (key : String) (value : Json) (next : String × Json)
    (more : List (String × Json)) :
    compactFields ((key, value) :: next :: more) =
      quote key ++ ':' :: (compact value ++ ',' :: compactFields (next :: more)) := by
  rw [compactFields]
  · simp
  · simp

theorem compactItems_cons (item : Json) (more : List Json) :
    ∃ c cs, compactItems (item :: more) = c :: cs ∧ isSpace c = false ∧ c ≠ ']' := by
  obtain ⟨c, cs, shown, solid⟩ := compact_cons item
  cases more with
  | nil => exact ⟨c, cs, by rw [compactItems, shown], solid⟩
  | cons next more => exact ⟨c, _, by rw [compactItems_more, shown]; rfl, solid⟩

theorem compactFields_cons (field : String × Json) (more : List (String × Json)) :
    ∃ cs, compactFields (field :: more) = '"' :: cs := by
  cases more with
  | nil => exact ⟨_, by rw [compactFields, quote]; rfl⟩
  | cons next more => exact ⟨_, by rw [compactFields_more, quote]; rfl⟩

theorem readValue_array {text : List Char} {items : List Json} {c : Char} {cs : List Char}
    (shown : text = c :: cs) (solid : isSpace c = false) (more : c ≠ ']')
    (read : readItems? fuel text = some (items, rest)) :
    readValue? (fuel + 1) ('[' :: text) = some (.array items, rest) := by
  have bracket : skipSpace ('[' :: text) = '[' :: text := skip_solid rfl
  have inside : skipSpace text = text := by
    rw [shown]
    exact skip_solid solid
  unfold readValue?
  simp only [bracket, inside]
  split
  · exact absurd (List.cons.inj shown).1.symm more
  · rw [read]
    rfl

theorem readValue_object {text : List Char} {fields : List (String × Json)} {cs : List Char}
    (shown : text = '"' :: cs)
    (read : readFields? fuel text =
      some (fields.map fun field => (some field.1, field.2), rest)) :
    readValue? (fuel + 1) ('\x7b' :: text) = some (.object fields, rest) := by
  have brace : skipSpace ('\x7b' :: text) = '\x7b' :: text := skip_solid rfl
  have inside : skipSpace text = text := by
    rw [shown]
    exact skip_solid rfl
  unfold readValue?
  simp only [brace, inside]
  split
  · exact absurd (List.cons.inj shown).1 (by decide)
  · rw [read]
    simp [ofFields_some]

theorem readFields_last {key : String} {text : List Char} {value : Json}
    (read : readValue? fuel text = some (value, '\x7d' :: rest)) :
    readFields? (fuel + 1) (quote key ++ ':' :: text) = some ([(some key, value)], rest) := by
  have name := readString_quote key (':' :: text)
  simp [readFields?, quote, skipSpace, isSpace, name, read]

theorem readFields_more {key : String} {text more : List Char} {value : Json}
    {fields : List (Option String × Json)}
    (read : readValue? fuel text = some (value, ',' :: more))
    (later : readFields? fuel more = some (fields, rest)) :
    readFields? (fuel + 1) (quote key ++ ':' :: text) =
      some ((some key, value) :: fields, rest) := by
  have name := readString_quote key (':' :: text)
  simp [readFields?, quote, skipSpace, isSpace, name, read, later]

mutual

/-- A plain value is read back from its text. -/
theorem readValue_compact (j : Json) (plain : Plain j) (fuel : ℕ) (rest : List Char)
    (enough : (compact j).length < fuel) (stop : Stops rest) :
    readValue? fuel (compact j ++ rest) = some (j, rest) := by
  obtain ⟨fuel, rfl⟩ : ∃ left, fuel = left + 1 := ⟨fuel - 1, by omega⟩
  cases j with
  | null => simp [readValue?, compact, skipSpace, isSpace]
  | bool b => cases b <;> simp [readValue?, compact, skipSpace, isSpace]
  | number n =>
    have read := readNumeral_text plain stop
    obtain ⟨c, cs, shown, start⟩ := text_cons n
    rw [shown, List.cons_append] at read
    rw [compact, shown, List.cons_append, readValue_number start, read]
    rfl
  | string s =>
    rw [compact]
    exact readValue_string s
  | array items =>
    rw [compact] at *
    cases items with
    | nil => simp [readValue?, compactItems, skipSpace, isSpace]
    | cons item more =>
      simp only [List.length_append, List.length_cons] at enough
      have read := readItems_compact (item :: more) (by simp) plain fuel rest (by omega)
      obtain ⟨c, cs, shown, solid, inside⟩ := compactItems_cons item more
      have text : '[' :: compactItems (item :: more) ++ [']'] ++ rest =
          '[' :: (compactItems (item :: more) ++ ']' :: rest) := by simp
      rw [text]
      exact readValue_array (by rw [shown]; rfl) solid inside read
  | object fields =>
    rw [compact] at *
    cases fields with
    | nil => simp [readValue?, compactFields, skipSpace, isSpace]
    | cons field more =>
      simp only [List.length_append, List.length_cons] at enough
      have read := readFields_compact (field :: more) (by simp) plain fuel rest (by omega)
      obtain ⟨cs, shown⟩ := compactFields_cons field more
      have text : '\x7b' :: compactFields (field :: more) ++ ['\x7d'] ++ rest =
          '\x7b' :: (compactFields (field :: more) ++ '\x7d' :: rest) := by simp
      rw [text]
      exact readValue_object (by rw [shown]; rfl) read
  | garbled => exact plain.elim

theorem readItems_compact (items : List Json) (some : items ≠ []) (plain : PlainItems items)
    (fuel : ℕ) (rest : List Char) (enough : (compactItems items).length + 2 ≤ fuel) :
    readItems? fuel (compactItems items ++ ']' :: rest) = .some (items, rest) := by
  obtain ⟨fuel, rfl⟩ : ∃ left, fuel = left + 1 := ⟨fuel - 1, by omega⟩
  match items with
  | [] => exact absurd rfl some
  | [item] =>
    rw [compactItems] at *
    have read := readValue_compact item plain.1 fuel _ (by omega)
      (stops_cons rest (.inr (.inl rfl)))
    simp [readItems?, read, skipSpace, isSpace]
  | item :: next :: more =>
    rw [compactItems_more] at *
    simp only [List.length_append, List.length_cons] at enough
    have read := readValue_compact item plain.1 fuel _ (by omega)
      (stops_cons (compactItems (next :: more) ++ ']' :: rest) (.inl rfl))
    have later := readItems_compact (next :: more) (by simp) plain.2 fuel rest (by omega)
    simp [readItems?, read, later, skipSpace, isSpace]

theorem readFields_compact (fields : List (String × Json)) (some : fields ≠ [])
    (plain : PlainFields fields) (fuel : ℕ) (rest : List Char)
    (enough : (compactFields fields).length + 2 ≤ fuel) :
    readFields? fuel (compactFields fields ++ '\x7d' :: rest) =
      .some (fields.map fun field => (.some field.1, field.2), rest) := by
  obtain ⟨fuel, rfl⟩ : ∃ left, fuel = left + 1 := ⟨fuel - 1, by omega⟩
  match fields with
  | [] => exact absurd rfl some
  | [(key, value)] =>
    rw [compactFields] at *
    simp only [List.length_append, List.length_cons] at enough
    have read := readValue_compact value plain.1 fuel _ (by omega)
      (stops_cons rest (.inr (.inr rfl)))
    rw [List.append_assoc, List.cons_append]
    exact readFields_last read
  | (key, value) :: next :: more =>
    rw [compactFields_more] at *
    simp only [List.length_append, List.length_cons] at enough
    have read := readValue_compact value plain.1 fuel _ (by omega)
      (stops_cons (compactFields (next :: more) ++ '\x7d' :: rest) (.inl rfl))
    have later := readFields_compact (next :: more) (by simp) plain.2 fuel rest (by omega)
    simp only [List.append_assoc, List.cons_append]
    exact readFields_more read later

end

theorem read_compress {j : Json} (plain : Plain j) : read? j.compress = some j := by
  have stop : Stops [] := by simp [Stops]
  have read := readValue_compact j plain ((compact j).length + 1) [] (by omega) stop
  rw [List.append_nil] at read
  simp only [read?, compress, String.toList_ofList, read, Option.bind_eq_bind, Option.bind_some]
  rfl

end Values

end Wheelwork.Json
