import Wheelwork.Proofs.Layout

/-!
Integer literals in their lines. What stands before a literal in its line, with all strings closed
and no comment begun, and what stands in the other lines, is cut as it would be without the literal.
The literal itself is one piece: a number if it fits a signed 64-bit word, and otherwise a zero with
one complaint.
-/
namespace Wheelwork.Lexer

/-- A part of a line in which every string is closed and no comment begins. -/
inductive Closed : List Char → Prop where
  | nil : Closed []
  | char {c : Char} {cs : List Char} (quote : c ≠ '"') (code : c ≠ ';') (inLine : c ≠ '\n')
      (later : Closed cs) : Closed (c :: cs)
  | string {body cs : List Char} (inside : ∀ c ∈ body, c ≠ '"' ∧ c ≠ '\n') (later : Closed cs) :
      Closed ('"' :: (body ++ '"' :: cs))

/-- A place for a literal, between a blank and the end of the line, a blank or a comment. -/
structure Slot where
  /-- The lines above it, with their ends. -/
  above : List Char
  /-- The line up to the blank before the literal. -/
  front : List Char
  gap : Char
  after : List Char
  lines : above = [] ∨ above.getLast? = some '\n'
  closed : Closed front
  blank : Text.Skipped gap
  apart : ∀ c ∈ after.head?, Text.Skipped c ∨ c = '\n' ∨ c = ';'

def Slot.before (s : Slot) : List Char := s.above ++ (s.front ++ [s.gap])

def Slot.source (s : Slot) (name : String) (literal : List Char) : Source :=
  ⟨name, String.ofList (s.before ++ (literal ++ s.after))⟩

def kindsOf (text : List Char) : List TokenKind := kindsIn (scan ⟨1, 1⟩ text).1

def codesOf (text : List Char) : List Nat := (problemsIn (scan ⟨1, 1⟩ text).1).map Problem.code

/-- The lexer takes the literal for this integer, and these codes are those of its errors about it;
all else is as in the texts around the literal. -/
structure Slot.Reads (s : Slot) (name : String) (literal : List Char) (n : Int64)
    (flaws : List Nat) : Prop where
  token : kindsOf s.before ++ [.integer n] <+: (lex (s.source name literal)).1.map Token.kind
  errors : (lex (s.source name literal)).2.errors.toList.map Diagnostic.code =
    (codesOf s.before ++ flaws ++ codesOf s.after).take Diagnostics.cap
  /-- Without errors enough to stop the lexer, it goes on to the end. -/
  rest : (codesOf s.before ++ flaws ++ codesOf s.after).length < Diagnostics.cap →
    (lex (s.source name literal)).1.map Token.kind =
      kindsOf s.before ++ .integer n :: kindsOf s.after ++ [.eof]

variable {c : Char} {cs rest one other more front : List Char} {p : Piece} {start : Position}

section Alone

theorem Falls.both (first : Falls one other (pieces one))
    (before : Falls one (other ++ more) (pieces one)) (second : Falls other more (pieces other)) :
    Falls (one ++ other) more (pieces (one ++ other)) := by
  have whole := before.append second
  rwa [← first] at whole

theorem falls_lines (lines : one = [] ∨ one.getLast? = some '\n') (other : List Char) :
    Falls one other (pieces one) := by
  rcases lines with rfl | feed
  · rw [pieces_nil]
    exact Falls.nil
  · obtain ⟨before, rfl⟩ := List.getLast?_eq_some_iff.mp feed
    rw [Falls, List.append_assoc, List.singleton_append, pieces_join, pieces_join, pieces_nil]
    simp

theorem falls_blank (skipped : Text.Skipped c) (other : List Char) :
    Falls [c] other (pieces [c]) := by
  have falls : ∀ rest, Falls [c] rest [(0, .blank)] := fun rest =>
    Falls.piece (piece_skipped skipped rest)
  rw [(falls []).alone]
  exact falls other

end Alone

section Closed

theorem Shape.unquoted {shown after : List Char} (shape : Shape shown after p)
    (quote : shown.head? ≠ some '"') (code : shown.head? ≠ some ';') : '"' ∉ shown := by
  have digit : ∀ {ds : List Char}, (∀ d ∈ ds, d.isDigit = true) → '"' ∉ ds := by
    intro ds all member
    exact absurd (all _ member) (by decide)
  have sign : ∀ negative, '"' ∉ signText negative := by decide
  cases shape with
  | blank | stray => simpa [eq_comm] using quote
  | args => decide
  | comment => exact absurd rfl code
  | string | openString => exact absurd rfl quote
  | integer longest | outOfRange longest => simp [sign, digit longest.all]
  | float whole fraction => simp [sign, digit whole.all, digit fraction.all]
  | word letter inside =>
    have tail : ∀ tail : List Char, (∀ x ∈ tail, isWordChar x = true) → '"' ∉ tail := by
      intro tail inside member
      exact absurd (inside _ member) (by decide)
    simpa [tail _ inside, eq_comm] using quote

theorem Closed.inLine (closed : Closed cs) : '\n' ∉ cs := by
  induction closed with
  | nil => simp
  | char _ _ inLine _ ih => simp [ih, inLine.symm]
  | string inside _ ih =>
    have body : ∀ c ∈ _, c ≠ '\n' := fun c member => (inside c member).2
    simp only [List.mem_cons, List.mem_append, not_or]
    exact ⟨by decide, fun member => body _ member rfl, by decide, ih⟩

theorem Closed.drop (closed : Closed cs) {count : Nat} (unquoted : '"' ∉ cs.take count) :
    Closed (cs.drop count) := by
  induction closed generalizing count with
  | nil => simpa using Closed.nil
  | char quote code inLine later ih =>
    cases count with
    | zero => exact .char quote code inLine later
    | succ count =>
      rw [List.take_succ_cons, List.mem_cons, not_or] at unquoted
      exact ih unquoted.2
  | string inside later =>
    cases count with
    | zero => exact .string inside later
    | succ count => simp at unquoted

/-- A piece of a closed part ends in it, whatever follows, and leaves a closed part. -/
theorem Closed.piece (closed : Closed (c :: cs)) (ends : Ends rest) :
    Lexer.piece c (cs ++ rest) = Lexer.piece c cs ∧ Closed (cs.drop (Lexer.piece c cs).1) := by
  have oneLine := closed.inLine
  cases closed with
  | char quote code _ later =>
    have free := (piece_shape oneLine).unquoted (by simpa using quote) (by simpa using code)
    rw [List.mem_cons, not_or] at free
    exact ⟨piece_before ends code quote cs, later.drop free.2⟩
  | string inside later =>
    rw [List.append_assoc, List.cons_append, piece_string inside, piece_string inside]
    refine ⟨rfl, ?_⟩
    simpa using later

theorem falls_closed (closed : Closed front) (ends : Ends rest) :
    Falls front rest (pieces front) := by
  fun_induction pieces front with
  | case1 => exact Falls.nil
  | case2 c cs ih =>
    obtain ⟨same, left⟩ := closed.piece ends
    rw [Falls, List.cons_append, pieces, same, List.drop_append_of_le_length (piece_fits c cs),
      ih left, List.cons_append]

end Closed

section Literal

variable {digits : List Char} {n : Int64}

theorem number_alone (negative : Bool) (whole : Digits digits []) :
    number negative digits = (digits.length,
      match Text.toInt64? (signedValue negative digits) with
      | some n => .token (.integer n)
      | none => .flawed (.integerOutOfRange (String.ofList (signText negative ++ digits)))
          (some (.integer 0))) := by
  have taken : digits.takeWhile Char.isDigit = digits := List.takeWhile_eq_self_iff.mpr whole.all
  have dropped : digits.dropWhile Char.isDigit = [] := List.dropWhile_eq_nil_iff.mpr whole.all
  simp only [number, taken, dropped, fractionDigits]
  rfl

theorem piece_literal (negative : Bool) (whole : Digits digits []) (ends : Ends rest) :
    ∃ c tail, signText negative ++ digits = c :: tail ∧
      piece c (tail ++ rest) = (tail.length, (number negative digits).2) := by
  have read : number negative (digits ++ rest) = (digits.length, (number negative digits).2) := by
    rw [number_before negative digits ends, number_alone negative whole]
  generalize (number negative digits).2 = p at read ⊢
  cases negative with
  | false =>
    obtain ⟨c, tail, rfl⟩ := List.exists_cons_of_ne_nil whole.some
    exact ⟨c, tail, rfl, piece_number (whole.all c (by simp)) read⟩
  | true =>
    have signed : piece '-' (digits ++ rest) = number true (digits ++ rest) := by
      simp [piece, whole.starts rest]
    exact ⟨'-', digits, rfl, signed.trans read⟩

theorem Slot.ends (s : Slot) : Ends s.after := by
  intro c first
  rcases s.apart c first with (rfl | rfl | rfl) | rfl | rfl <;> decide

theorem Slot.falls (s : Slot) (text : List Char) : Falls s.before text (pieces s.before) := by
  have ends : ∀ more, Ends (s.gap :: more) := fun more => (Tail.blank s.blank .done).ends
  have line : ∀ more, Falls (s.front ++ [s.gap]) more (pieces (s.front ++ [s.gap])) := fun more =>
    (falls_closed s.closed (ends [])).both (falls_closed s.closed (ends more))
      (falls_blank s.blank more)
  exact (falls_lines s.lines _).both (falls_lines s.lines _) (line text)

theorem keep_reached {stop here : Position} {room : Nat} {before after : List Lexeme} {x : Lexeme}
    (reached : (before.filterMap Lexeme.complaint).length < room) :
    (before ++ [x]).filterMap Lexeme.token <+: (keep stop room here (before ++ x :: after)).1 := by
  obtain ⟨place, left, _, kept⟩ := keep_past here reached
  rw [kept, List.filterMap_append, filterMap_cons_toList, List.filterMap_nil, List.append_nil]
  exact (List.prefix_append_right_inj _).mpr (List.prefix_append _ _)

theorem Slot.pieces_around (s : Slot) {literal tail : List Char} (starts : literal = c :: tail)
    (cut : piece c (tail ++ s.after) = (tail.length, p)) :
    pieces (s.before ++ (literal ++ s.after)) =
      pieces s.before ++ (tail.length, p) :: pieces s.after := by
  rw [s.falls, starts, Falls.piece cut]
  rfl

theorem Slot.scan_around (s : Slot) {literal tail : List Char} (starts : literal = c :: tail)
    (cut : piece c (tail ++ s.after) = (tail.length, p)) {kind : TokenKind}
    (given : p.kind? = some kind) :
    ∃ place x, lexeme? place tail.length p = some x ∧ ∃ later,
      (scan ⟨1, 1⟩ (s.before ++ (literal ++ s.after))).1 = (scan ⟨1, 1⟩ s.before).1 ++ x :: later := by
  cases made : lexeme? (lay ⟨1, 1⟩ (pieces s.before)).2 tail.length p with
  | none =>
    obtain rfl := blank_of_none made
    cases given
  | some x =>
    refine ⟨_, x, made, (lay x.stop (pieces s.after)).1, ?_⟩
    rw [scan_eq, scan_eq, s.pieces_around starts cut, lay_append, lay, made]

theorem kindsOf_eq (text : List Char) : kindsOf text = (pieces text).filterMap (·.2.kind?) := by
  rw [kindsOf, scan_eq]
  exact (lay_gives _ _).1

theorem codesOf_eq (text : List Char) :
    codesOf text = ((pieces text).filterMap (·.2.problem?)).map Problem.code := by
  rw [codesOf, scan_eq, (lay_gives _ _).2]

theorem lex_codes (source : Source) :
    (lex source).2.errors.toList.map Diagnostic.code =
      (codesOf source.text.toList).take Diagnostics.cap := by
  rw [(lex_errors source).1, List.map_take, located, List.map_map, codesOf, problemsIn,
    List.map_map]
  rfl

theorem lex_kinds {source : Source} (few : (codesOf source.text.toList).length < Diagnostics.cap) :
    (lex source).1.map Token.kind = kindsOf source.text.toList ++ [.eof] := by
  rw [codesOf, List.length_map, problemsIn, List.length_map] at few
  rw [lex, lexWithin_few few, closed, List.map_append]
  rfl

theorem Slot.reads_piece (s : Slot) (name : String) {literal tail : List Char}
    (starts : literal = c :: tail) (cut : piece c (tail ++ s.after) = (tail.length, p))
    (given : p.kind? = some (.integer n)) (reached : (codesOf s.before).length < Diagnostics.cap) :
    s.Reads name literal n p.codes := by
  have around := s.pieces_around starts cut
  have text : (s.source name literal).text.toList = s.before ++ (literal ++ s.after) :=
    String.toList_ofList
  have codes : codesOf (s.source name literal).text.toList =
      codesOf s.before ++ p.codes ++ codesOf s.after := by
    rw [text, codesOf_eq, codesOf_eq, codesOf_eq, around, List.filterMap_append, List.filterMap_cons]
    cases told : p.problem? <;> simp [Piece.codes, told]
  have shown : kindsOf (s.source name literal).text.toList =
      kindsOf s.before ++ .integer n :: kindsOf s.after := by
    simp [text, kindsOf_eq, around, given]
  refine ⟨?_, ?_, ?_⟩
  · -- Up to the literal there is room, so that its lexeme is the next to be kept.
    obtain ⟨place, x, made, later, scanned⟩ := s.scan_around starts cut given
    have single : kindsIn [x] = [.integer n] := by
      have laid : (lay place [(tail.length, p)]).1 = [x] := by simp [lay, made]
      rw [← laid, (lay_gives _ _).1]
      simp [given]
    rw [codesOf, List.length_map, problemsIn, List.length_map] at reached
    have kept : (scan ⟨1, 1⟩ s.before).1.filterMap Lexeme.token ++ [x].filterMap Lexeme.token <+:
        (lex (s.source name literal)).1 := by
      rw [← List.filterMap_append, lex, lexWithin_some, text, scanned]
      exact keep_reached reached
    rw [← single, kindsOf, kindsIn, kindsIn, ← List.map_append]
    exact kept.map Token.kind
  · rw [lex_codes, codes]
  · intro few
    rw [lex_kinds (codes ▸ few), shown]

theorem Slot.reads_literal (s : Slot) (name : String) (negative : Bool) (whole : Digits digits [])
    (reached : (codesOf s.before).length < Diagnostics.cap) :
    (InRange (signedValue negative digits) → ∃ n : Int64, n.toInt = signedValue negative digits ∧
      s.Reads name (signText negative ++ digits) n []) ∧
    (¬ InRange (signedValue negative digits) →
      s.Reads name (signText negative ++ digits) 0 [102]) := by
  obtain ⟨c, tail, starts, cut⟩ := piece_literal negative whole s.ends
  rw [number_alone negative whole] at cut
  cases fits : Text.toInt64? (signedValue negative digits) with
  | some n =>
    have value := toInt64_some fits
    rw [fits] at cut
    refine ⟨fun _ => ⟨n, value, s.reads_piece name starts cut rfl reached⟩, fun outside => ?_⟩
    exact absurd (value ▸ ⟨n.minValue_le_toInt, n.toInt_le⟩) outside
  | none =>
    rw [fits] at cut
    refine ⟨fun inside => absurd inside (toInt64_none fits), fun _ => ?_⟩
    exact s.reads_piece name starts cut rfl reached

end Literal
end Wheelwork.Lexer
