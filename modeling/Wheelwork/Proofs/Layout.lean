import Wheelwork.Proofs.Definitions

/-!
Layout. Blanks around a line and a comment after it add no token and change none of its tokens but
in their columns, as long as no string is open where the line ends; and assembly looks at the lines
of tokens only. So a text that loads can be laid out in any such way, with carriage returns before
its line feeds for one.
-/
namespace Wheelwork

namespace Layout

/-- What is put around a line: blanks on both sides and, if one is wanted, a comment. -/
structure Margin where
  front : List Char := []
  back : List Char := []
  comment : Option (List Char) := none
  blank : ∀ c ∈ front ++ back, Text.Skipped c
  oneLine : ∀ body ∈ comment, '\n' ∉ body

def Margin.tail (m : Margin) : List Char := m.back ++ (m.comment.map (';' :: ·)).getD []

def Margin.around (m : Margin) (raw : List Char) : List Char := m.front ++ raw ++ m.tail

def relaid (margin : Nat → Margin) (text : List Char) : List Char :=
  ['\n'].intercalate ((Text.splitLines text).mapIdx fun n raw => (margin n).around raw)

def crlf (text : List Char) : List Char :=
  text.flatMap fun c => if c = '\n' then ['\r', '\n'] else [c]

def Margin.none : Margin := { blank := by simp, oneLine := by simp }

def Margin.ending : Margin :=
  { back := ['\r'], blank := by simp [Text.Skipped], oneLine := by simp }

theorem relaid_line {raw : List Char} (oneLine : '\n' ∉ raw) (margin : Nat → Margin) :
    relaid margin raw = (margin 0).around raw := by
  simp [relaid, Text.splitLines_line oneLine]

theorem relaid_join {raw : List Char} (oneLine : '\n' ∉ raw) (more : List Char)
    (margin : Nat → Margin) :
    relaid margin (raw ++ '\n' :: more) =
      (margin 0).around raw ++ '\n' :: relaid (fun n => margin (n + 1)) more := by
  obtain ⟨next, rest, lines⟩ := List.exists_cons_of_ne_nil (Text.splitLines_ne_nil more)
  simp [relaid, Text.splitLines_join oneLine, lines, List.mapIdx_cons]

theorem crlf_relaid (text : List Char) :
    crlf text = relaid (fun n =>
      if n + 1 < (Text.splitLines text).length then Margin.ending else Margin.none) text := by
  have plain : ∀ raw : List Char, '\n' ∉ raw → crlf raw = raw := by
    intro raw oneLine
    induction raw with
    | nil => rfl
    | cons c raw ih =>
      rw [List.mem_cons, not_or] at oneLine
      simp only [crlf, List.flatMap_cons, if_neg (Ne.symm oneLine.1)]
      exact congrArg (c :: ·) (ih oneLine.2)
  induction text using Text.text_induction with
  | line raw oneLine =>
    rw [relaid_line oneLine, plain raw oneLine]
    simp [Text.splitLines_line oneLine, Margin.around, Margin.tail, Margin.none]
  | broken raw more oneLine ih =>
    have lines := List.length_pos_iff.mpr (Text.splitLines_ne_nil more)
    have before : crlf (raw ++ '\n' :: more) = crlf raw ++ ['\r', '\n'] ++ crlf more := by
      simp [crlf]
    rw [relaid_join oneLine, before, plain raw oneLine, ih, Text.splitLines_join oneLine]
    simp [Margin.around, Margin.tail, Margin.ending, lines]

end Layout

namespace Lexer

open Layout

/-- What may follow a line without a word or a number of its own. -/
inductive Tail : List Char → Prop where
  | done : Tail []
  | blank {c : Char} {rest : List Char} (skipped : Text.Skipped c) (tail : Tail rest) :
      Tail (c :: rest)
  | comment {body : List Char} (oneLine : '\n' ∉ body) : Tail (';' :: body)

variable {c : Char} {cs raw rest : List Char} {start : Position} {count : Nat} {p : Piece}
  {x : Lexeme}

theorem tail_margin (m : Margin) : Tail m.tail := by
  have written : ∀ back : List Char, (∀ c ∈ back, Text.Skipped c) →
      Tail (back ++ (m.comment.map (';' :: ·)).getD []) := by
    intro back blank
    induction back with
    | nil =>
      cases given : m.comment with
      | none => exact .done
      | some body => exact .comment (m.oneLine body given)
    | cons c back ih =>
      exact .blank (blank c (by simp)) (ih fun d member => blank d (by simp [member]))
  exact written m.back fun c member => m.blank c (List.mem_append_right _ member)

theorem piece_skipped (skipped : Text.Skipped c) (cs : List Char) : piece c cs = (0, .blank) := by
  simp only [piece]
  exact if_pos skipped

theorem piece_comment (oneLine : '\n' ∉ cs) : piece ';' cs = (cs.length, .blank) := by
  have inside : ∀ d ∈ cs, (d != '\n') = true := by
    intro d member
    have other : d ≠ '\n' := fun same => oneLine (same ▸ member)
    simpa using other
  simp [piece, List.takeWhile_eq_self_iff.mpr inside]

theorem Tail.ends (tail : Tail rest) : Ends rest := by
  cases tail with
  | done => simp [Ends]
  | blank skipped =>
    intro c first
    obtain rfl := Option.some.inj first
    rcases skipped with rfl | rfl | rfl <;> decide
  | comment =>
    intro c first
    obtain rfl := Option.some.inj first
    decide

theorem scan_tail (tail : Tail rest) (start : Position) : (scan start rest).1 = [] := by
  induction tail generalizing start with
  | done => simp [scan]
  | blank skipped _ ih =>
    rw [scan_blank (piece_skipped skipped _)]
    exact ih _
  | comment oneLine =>
    rw [scan_blank (piece_comment oneLine), List.drop_length]
    simp [scan]

theorem scan_front {front : List Char} (blank : ∀ c ∈ front, Text.Skipped c) (start : Position)
    (cs : List Char) :
    scan start (front ++ cs) = scan ⟨start.line, start.column + front.length⟩ cs := by
  induction front generalizing start with
  | nil => rfl
  | cons c front ih =>
    have later := ih fun d member => blank d (by simp [member])
    rw [List.cons_append, scan_blank (piece_skipped (blank c (by simp)) _), List.drop_zero, later,
      List.length_cons, Nat.add_zero, Nat.add_assoc, Nat.add_comm 1]

theorem string_quote (body more other : List Char) :
    string (body ++ '"' :: more) = string (body ++ '"' :: other) := by
  have stop : ∀ rest, ∀ c ∈ ('"' :: rest).head?, (c != '"' && c != '\n') = false := by simp
  obtain ⟨taken, dropped⟩ := takeWhile_before _ body (stop more)
  obtain ⟨taken', dropped'⟩ := takeWhile_before _ body (stop other)
  simp only [string, taken, dropped, taken', dropped']
  cases body.dropWhile fun c => c != '"' && c != '\n' with
  | nil => rfl
  | cons d tail =>
    by_cases quote : d = '"'
    · subst quote
      rfl
    · simp [quote]

theorem string_closed_iff (oneLine : '\n' ∉ cs) : (string cs).2.problem? = none ↔ '"' ∈ cs := by
  have inside : ∀ c ∈ cs, c ≠ '"' → (c != '"' && c != '\n') = true := by
    intro c member other
    have inLine : c ≠ '\n' := fun same => oneLine (same ▸ member)
    simp [other, inLine]
  cases after : cs.dropWhile fun c => c != '"' && c != '\n' with
  | nil =>
    have free : '"' ∉ cs := by
      intro member
      simpa using List.dropWhile_eq_nil_iff.mp after '"' member
    simp [string, after, Piece.problem?, free]
  | cons d more =>
    have stops := List.head?_dropWhile_not (fun c => c != '"' && c != '\n') cs
    have member : d ∈ cs := List.dropWhile_subset _ (after ▸ List.mem_cons_self)
    obtain rfl : d = '"' := by
      by_contra other
      simp [after, inside d member other] at stops
    simp [string, after, Piece.problem?, member]

theorem piece_sound (ends : Ends rest) (oneLine : '\n' ∉ cs) (code : c ≠ ';')
    (sound : (piece c cs).2.problem? = none) : piece c (cs ++ rest) = piece c cs := by
  by_cases quote : c = '"'
  · subst quote
    obtain ⟨body, more, rfl⟩ := List.append_of_mem ((string_closed_iff oneLine).mp sound)
    rw [List.append_assoc]
    exact string_quote body (more ++ rest) more
  · exact piece_before ends code quote cs

/-- Blanks neither close a string nor mend anything else. -/
theorem piece_unmended (ends : Ends rest) (blank : ∀ d ∈ rest, Text.Skipped d) (oneLine : '\n' ∉ cs)
    (code : c ≠ ';') (sound : (piece c (cs ++ rest)).2.problem? = none) :
    (piece c cs).2.problem? = none := by
  by_cases quote : c = '"'
  · subst quote
    have longer : '\n' ∉ cs ++ rest := by
      intro member
      rcases List.mem_append.mp member with early | late
      · exact oneLine early
      · simpa [Text.Skipped] using blank _ late
    apply (string_closed_iff oneLine).mpr
    rcases List.mem_append.mp ((string_closed_iff longer).mp sound) with early | late
    · exact early
    · simpa [Text.Skipped] using blank _ late
  · rwa [piece_before ends code quote] at sound

theorem problem_none (made : lexeme? start count p = some x) :
    x.complaint = none ↔ p.problem? = none := by
  cases p with
  | blank => cases made
  | token kind => cases kind <;> cases made <;> simp [Piece.problem?]
  | flawed problem kind =>
    cases made
    simp [Piece.problem?]

theorem code_of_lexeme (cut : piece c cs = (count, p)) (made : lexeme? start count p = some x) :
    c ≠ ';' := by
  rintro rfl
  cases cut
  cases made

def Clean (start : Position) (text : List Char) : Prop :=
  ∀ x ∈ (scan start text).1, x.complaint = none

theorem clean_blank (cut : piece c cs = (count, .blank)) :
    Clean start (c :: cs) ↔ Clean ⟨start.line, start.column + count + 1⟩ (cs.drop count) := by
  rw [Clean, scan_blank cut, Clean]

theorem clean_lexeme (cut : piece c cs = (count, p)) (made : lexeme? start count p = some x) :
    Clean start (c :: cs) ↔ p.problem? = none ∧ Clean x.stop (cs.drop count) := by
  rw [Clean, scan_lexeme cut made, List.forall_mem_cons, problem_none made, Clean]

theorem clean_head (clean : Clean start (c :: cs)) : (piece c cs).2.problem? = none := by
  cases made : lexeme? start (piece c cs).1 (piece c cs).2 with
  | none => rw [blank_of_none made, Piece.problem?]
  | some x => exact ((clean_lexeme rfl made).mp clean).1

theorem Tail.oneLine (tail : Tail rest) : '\n' ∉ rest := by
  induction tail with
  | done => simp
  | blank skipped _ ih =>
    rcases skipped with rfl | rfl | rfl <;> simpa using ih
  | comment oneLine => simpa using oneLine

/-- A line has the same lexemes before a tail, if there are no complaints about it alone, or none
about it and the tail, which is blank. -/
theorem scan_trailing (tail : Tail rest) (oneLine : '\n' ∉ raw)
    (clean : Clean start raw ∨ (∀ d ∈ rest, Text.Skipped d) ∧ Clean start (raw ++ rest)) :
    (scan start (raw ++ rest)).1 = (scan start raw).1 := by
  -- Along the scan of the line alone: a comment takes the whole tail in, and every other piece is
  -- without a complaint, so that the tail leaves it as it is.
  fun_induction scan start raw with
  | case1 start => exact scan_tail tail start
  | case2 start c cs count p cut made ih =>
    obtain rfl := blank_of_none made
    have inLine : '\n' ∉ cs := fun member => oneLine (List.mem_cons_of_mem c member)
    by_cases code : c = ';'
    · subst code
      obtain rfl : cs.length = count := congrArg Prod.fst ((piece_comment inLine).symm.trans cut)
      have longer : '\n' ∉ cs ++ rest := by simp [inLine, tail.oneLine]
      rw [List.cons_append, scan_tail (.comment longer), List.drop_length]
      simp [scan]
    · have fits := piece_fits c cs
      have same := piece_sound tail.ends inLine code (by rw [cut]; rfl)
      rw [cut] at fits same
      rw [List.cons_append, clean_blank cut, clean_blank same,
        List.drop_append_of_le_length fits] at clean
      rw [List.cons_append, scan_blank same, List.drop_append_of_le_length fits]
      exact ih (fun member => inLine (List.mem_of_mem_drop member)) clean
  | case3 start c cs count p cut x made lexemes stop scanned ih =>
    have inLine : '\n' ∉ cs := fun member => oneLine (List.mem_cons_of_mem c member)
    have code := code_of_lexeme cut made
    have sound : (piece c cs).2.problem? = none := by
      rcases clean with alone | ⟨blank, both⟩
      · exact clean_head alone
      · exact piece_unmended tail.ends blank inLine code (clean_head both)
    have fits := piece_fits c cs
    have same := piece_sound tail.ends inLine code sound
    rw [cut] at fits same sound
    simp only [List.cons_append, clean_lexeme cut made, clean_lexeme same made, sound, true_and,
      List.drop_append_of_le_length fits] at clean
    rw [scanned] at ih
    rw [List.cons_append, scan_lexeme same made, List.drop_append_of_le_length fits,
      ih (fun member => inLine (List.mem_of_mem_drop member)) clean]

def flat (s : Span) : Span := .point s.line 0

/-- What assembly needs of a lexeme: its token but for the columns, and the complaint about it. -/
def Lexeme.gist (x : Lexeme) : Option Token × Option Problem :=
  (x.token.map (Token.moved flat), x.complaint.map Prod.fst)

theorem lexeme_flat {other : Position} (sameLine : other.line = start.line)
    (made : lexeme? start count p = some x) :
    ∃ y, lexeme? other count p = some y ∧ y.gist = x.gist ∧ y.stop.line = x.stop.line := by
  cases p with
  | blank => cases made
  | token kind =>
    cases kind <;> cases made <;>
      exact ⟨_, rfl, by simp [Lexeme.gist, Token.moved, flat, Span.point, sameLine],
        by simp [sameLine]⟩
  | flawed problem kind =>
    cases made
    refine ⟨_, rfl, ?_, sameLine⟩
    simp [Lexeme.gist, Token.moved, flat, sameLine, Function.comp_def]

theorem scan_flat {other : Position} (sameLine : other.line = start.line) (text : List Char) :
    (scan other text).1.map Lexeme.gist = (scan start text).1.map Lexeme.gist := by
  fun_induction scan start text generalizing other with
  | case1 start => simp [scan]
  | case2 start c cs count p cut made ih =>
    obtain rfl := blank_of_none made
    rw [scan_blank cut]
    exact ih sameLine
  | case3 start c cs count p cut x made lexemes stop scanned ih =>
    obtain ⟨y, moved, gist, line⟩ := lexeme_flat sameLine made
    have later := ih line
    rw [scanned] at later
    rw [scan_lexeme cut moved, List.map_cons, List.map_cons, gist, later]

theorem clean_iff : Clean start raw ↔ ∀ g ∈ (scan start raw).1.map Lexeme.gist, g.2 = none := by
  simp [Clean, Lexeme.gist]

theorem gist_join (oneLine : '\n' ∉ raw) (more : List Char) :
    (scan start (raw ++ '\n' :: more)).1.map Lexeme.gist =
      (scan start raw).1.map Lexeme.gist ++ (breakAt start).gist ::
        (scan ⟨start.line + 1, 1⟩ more).1.map Lexeme.gist := by
  have here : (scan start raw).2.line = start.line := by
    rw [scan_line, List.count_eq_zero.mpr oneLine, Nat.add_zero]
  simp [scan_join, here, breakAt, Lexeme.gist, Token.moved, flat, Span.point]

theorem clean_join (oneLine : '\n' ∉ raw) (more : List Char) :
    Clean start (raw ++ '\n' :: more) ↔ Clean start raw ∧ Clean ⟨start.line + 1, 1⟩ more := by
  simp [clean_iff, gist_join oneLine, Lexeme.gist, breakAt, or_imp, forall_and]

theorem around_oneLine (m : Margin) (oneLine : '\n' ∉ raw) : '\n' ∉ m.around raw := by
  have front : '\n' ∉ m.front := by
    intro member
    simpa [Text.Skipped] using m.blank _ (List.mem_append_left _ member)
  simp [Margin.around, front, oneLine, (tail_margin m).oneLine]

theorem gist_around (m : Margin) (oneLine : '\n' ∉ raw)
    (clean : Clean start raw ∨ m.comment = none ∧ Clean start (m.around raw)) :
    (scan start (m.around raw)).1.map Lexeme.gist = (scan start raw).1.map Lexeme.gist := by
  have front : ∀ c ∈ m.front, Text.Skipped c := fun c member =>
    m.blank c (List.mem_append_left _ member)
  have moved : (scan start (m.around raw)).1.map Lexeme.gist =
      (scan start (raw ++ m.tail)).1.map Lexeme.gist := by
    rw [Margin.around, List.append_assoc, scan_front front]
    apply scan_flat
    rfl
  rw [moved, scan_trailing (tail_margin m) oneLine]
  refine clean.imp id ?_
  rintro ⟨plain, both⟩
  refine ⟨?_, ?_⟩
  · simpa [Margin.tail, plain] using fun c member => m.blank c (List.mem_append_right _ member)
  · rwa [clean_iff, moved, ← clean_iff] at both

/-- Margins leave the gist of a text as it is, if there are no complaints about the text, or none
about the text in its margins, which have no comments. -/
theorem gist_relaid (line : Nat) (margin : Nat → Margin) (text : List Char)
    (clean : Clean ⟨line, 1⟩ text ∨
      (∀ n, (margin n).comment = none) ∧ Clean ⟨line, 1⟩ (relaid margin text)) :
    (scan ⟨line, 1⟩ (relaid margin text)).1.map Lexeme.gist =
      (scan ⟨line, 1⟩ text).1.map Lexeme.gist := by
  induction text using Text.text_induction generalizing line margin with
  | line raw oneLine =>
    rw [relaid_line oneLine] at clean ⊢
    exact gist_around (margin 0) oneLine (clean.imp id fun both => ⟨both.1 0, both.2⟩)
  | broken raw more oneLine ih =>
    have wrapped := around_oneLine (margin 0) oneLine
    rw [relaid_join oneLine, clean_join oneLine, clean_join wrapped] at clean
    rw [relaid_join oneLine, gist_join oneLine, gist_join wrapped,
      gist_around (margin 0) oneLine (clean.imp And.left fun both => ⟨both.1 0, both.2.1⟩),
      ih (line + 1) (fun n => margin (n + 1))
        (clean.imp And.right fun both => ⟨fun n => both.1 (n + 1), both.2.2⟩)]

theorem tokens_gist (text : List Char) :
    (tokens text).map (Token.moved flat) =
      ((scan ⟨1, 1⟩ text).1.map Lexeme.gist).filterMap Prod.fst := by
  simp [tokens, Lexeme.gist, List.map_filterMap, List.filterMap_map, Function.comp_def]

theorem complaints_clean (text : List Char) : complaints text = [] ↔ Clean ⟨1, 1⟩ text :=
  List.filterMap_eq_nil_iff

end Lexer

namespace Assembly

theorem Row.instruction?_flat (r : Row) : (r.moved Lexer.flat).instruction? = r.instruction? := by
  unfold Row.instruction?
  rw [Row.reading_moved]
  cases read : r.reading with
  | error complaint => rfl
  | ok i =>
    have line : UInt32.ofNat (Lexer.flat r.head.span).line = i.line := (line_of_reading read).symm
    rw [line]

theorem instructions_flat (rs : List Row) :
    (rs.map (Row.moved Lexer.flat)).filterMap Row.instruction? =
      rs.filterMap Row.instruction? := by
  rw [List.filterMap_map]
  exact congrArg (rs.filterMap ·) (funext Row.instruction?_flat)

end Assembly

namespace Load

open Assembly Layout

theorem program_gist {one other : Source}
    (same : (Lexer.scan ⟨1, 1⟩ one.text.toList).1.map Lexer.Lexeme.gist =
      (Lexer.scan ⟨1, 1⟩ other.text.toList).1.map Lexer.Lexeme.gist) :
    (load one).program = (load other).program := by
  have clean : Lexer.complaints one.text.toList = [] ↔ Lexer.complaints other.text.toList = [] := by
    rw [Lexer.complaints_clean, Lexer.complaints_clean, Lexer.clean_iff, Lexer.clean_iff, same]
  have lines : (rows (Lexer.tokens one.text.toList)).map (Row.moved Lexer.flat) =
      (rows (Lexer.tokens other.text.toList)).map (Row.moved Lexer.flat) := by
    rw [← rows_moved, ← rows_moved, Lexer.tokens_gist, Lexer.tokens_gist, same]
  have sound : flaws one.text.toList = [] ↔ flaws other.text.toList = [] := by
    rw [flaws, flaws, List.append_eq_nil_iff, List.append_eq_nil_iff, clean,
      ← complaints_moved Lexer.flat, lines, complaints_moved]
  have read : instructions one.text.toList = instructions other.text.toList := by
    rw [instructions, instructions, ← instructions_flat, lines, instructions_flat]
  rw [program_eq, program_eq, read]
  simp only [sound]

theorem program_relaid (name other : String) {text : String} (margin : Nat → Margin)
    (clean : Lexer.Clean ⟨1, 1⟩ text.toList ∨ (∀ n, (margin n).comment = none) ∧
      Lexer.Clean ⟨1, 1⟩ (relaid margin text.toList)) :
    (load ⟨other, .ofList (relaid margin text.toList)⟩).program = (load ⟨name, text⟩).program := by
  apply program_gist
  rw [String.toList_ofList]
  exact Lexer.gist_relaid 1 margin text.toList clean

theorem program_unclean (source : Source) (unclean : ¬ Lexer.Clean ⟨1, 1⟩ source.text.toList) :
    (load source).program = none := by
  rw [← Lexer.complaints_clean] at unclean
  rw [program_eq, flaws, if_neg]
  exact fun sound => unclean (List.append_eq_nil_iff.mp sound).1

theorem program_blank (name other text : String) {margin : Nat → Margin}
    (blank : ∀ n, (margin n).comment = none) :
    (load ⟨other, .ofList (relaid margin text.toList)⟩).program = (load ⟨name, text⟩).program := by
  by_cases clean : Lexer.Clean ⟨1, 1⟩ text.toList
  · exact program_relaid name other margin (.inl clean)
  · by_cases both : Lexer.Clean ⟨1, 1⟩ (relaid margin text.toList)
    · exact program_relaid name other margin (.inr ⟨blank, both⟩)
    · have spoiled := program_unclean ⟨other, .ofList (relaid margin text.toList)⟩
        (by rwa [String.toList_ofList])
      rw [spoiled, program_unclean ⟨name, text⟩ clean]

theorem warnings_of_program {one other : Source} {p : Program}
    (loaded : (load one).program = some p) (same : (load other).program = some p) :
    (load other).diagnostics.totalWarnings = (load one).diagnostics.totalWarnings := by
  have first := warnings_counted loaded
  have second := warnings_counted same
  omega

end Load

open Layout

/-- A text that loads is the same program in any margins, with as many warnings. Carriage returns
before the line feeds make no difference to any text. -/
theorem layout_is_immaterial (name other text : String) (margin : Nat → Margin) :
    (∀ p, (load ⟨name, text⟩).program = some p →
      (load ⟨other, .ofList (relaid margin text.toList)⟩).program = some p ∧
      (load ⟨other, .ofList (relaid margin text.toList)⟩).fingerprint =
        (load ⟨name, text⟩).fingerprint ∧
      (load ⟨other, .ofList (relaid margin text.toList)⟩).diagnostics.totalWarnings =
        (load ⟨name, text⟩).diagnostics.totalWarnings) ∧
    (load ⟨other, .ofList (crlf text.toList)⟩).program = (load ⟨name, text⟩).program := by
  refine ⟨?_, ?_⟩
  · intro p loaded
    have clean := (List.append_eq_nil_iff.mp (Load.program_iff.mp loaded).1).1
    have same := Load.program_relaid name other margin (.inl ((Lexer.complaints_clean _).mp clean))
    rw [loaded] at same
    refine ⟨same, ?_, Load.warnings_of_program loaded same⟩
    rw [Load.fingerprint, Load.fingerprint, same, loaded]
  · rw [crlf_relaid]
    apply Load.program_blank
    intro n
    split_ifs <;> rfl

def twiceDefined : String := "DEF f ; \"\nDEF \"f\"\n\nADDARG -7"

def unevenly : Nat → Margin
  | 0 => { front := ['\t'], back := ['\r'], blank := by simp [Text.Skipped], oneLine := by simp }
  | 1 => { front := [' '], comment := some ['"', '%'], blank := by simp [Text.Skipped],
           oneLine := by simp }
  | 2 => { back := [' ', '\r'], comment := some [], blank := by simp [Text.Skipped],
           oneLine := by simp }
  | _ => { comment := some [';', '"'], blank := by simp, oneLine := by simp }

def twiceUneven : String := "\tDEF f ; \"\r\n DEF \"f\";\"%\n \r;\nADDARG -7;;\""

def twiceProgram : Program :=
  ⟨#[{ opcode := .define, text := "f", line := 1 }, { opcode := .define, text := "f", line := 2 },
    { opcode := .addarg, int := -7, line := 4 }]⟩

theorem uneven_layout_loads :
    (load ⟨"main.whl", twiceDefined⟩).program = some twiceProgram ∧
    (load ⟨"main.whl", twiceDefined⟩).diagnostics.totalWarnings = 1 ∧
    (load ⟨"copy.whl", twiceUneven⟩).program = some twiceProgram ∧
    (load ⟨"copy.whl", twiceUneven⟩).diagnostics.totalWarnings = 1 ∧
    (load ⟨"copy.whl", "DEF f ; \"\r\nDEF \"f\"\r\n\r\nADDARG -7"⟩).program =
      some twiceProgram := by
  have loaded : (load ⟨"main.whl", twiceDefined⟩).program = some twiceProgram := by
    with_unfolding_all rfl
  have warned : (load ⟨"main.whl", twiceDefined⟩).diagnostics.totalWarnings = 1 := by
    decide +kernel
  have copied : String.ofList (relaid unevenly twiceDefined.toList) = twiceUneven := by
    decide +kernel
  have returned : String.ofList (crlf twiceDefined.toList) =
      "DEF f ; \"\r\nDEF \"f\"\r\n\r\nADDARG -7" := by
    decide +kernel
  obtain ⟨kept, breaks⟩ := layout_is_immaterial "main.whl" "copy.whl" twiceDefined unevenly
  obtain ⟨same, _, alsoWarned⟩ := kept _ loaded
  rw [copied] at same alsoWarned
  rw [returned] at breaks
  exact ⟨loaded, warned, same, alsoWarned.trans warned, breaks.trans loaded⟩

end Wheelwork
