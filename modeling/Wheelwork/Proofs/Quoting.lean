import Wheelwork.Proofs.IntegerText
import Wheelwork.Proofs.Truncation

/-!
What complaints quote. The lines of a source text are its pieces between line feeds, and cutting the
bytes of the text at the offsets of its line feeds gives the same lines. Every complaint about a
text stands at characters of one of its lines, and that line is the one that it quotes.
-/
namespace Wheelwork

namespace Text

def afterFeeds (offset : Nat) : List Char → List Nat
  | [] => []
  | c :: cs =>
    let next := offset + c.utf8Size
    if c = '\n' then next :: afterFeeds next cs else afterFeeds next cs

def cutAt (bytes : ByteArray) (starts : List Nat) (n : Nat) : Option ByteArray :=
  starts[n]?.map fun start =>
    bytes.extract start ((starts[n + 1]?.map (· - 1)).getD bytes.size)

structure Uncarried (raw kept : List Char) : Prop where
  cut : ∃ count, raw = kept ++ List.replicate count '\r'
  last : kept.getLast? ≠ some '\r'

end Text

namespace Source

def lineStarts (s : Source) : List Nat := 0 :: Text.afterFeeds 0 s.text.toList

/-- The line as cut out of the bytes of the text at the offsets. -/
def lineByOffset? (s : Source) : Nat → Option String
  | 0 => none
  | n + 1 => do
    let bytes ← Text.cutAt s.text.toUTF8 s.lineStarts n
    let line ← String.fromUTF8? bytes
    some (String.ofList (Text.dropEndWhile (· == '\r') line.toList))

end Source

structure Span.Inside (lines : List (List Char)) (s : Span) : Prop where
  line : 1 ≤ s.line
  columns : ∃ raw, lines[s.line - 1]? = some raw ∧ 1 ≤ s.column ∧ s.column ≤ s.endColumn ∧
    s.endColumn ≤ raw.length

/-- The complaint stands in the text, and it quotes the line that it stands in. -/
structure Diagnostic.Quotes (source : Source) (d : Diagnostic) : Prop where
  inside : d.span.Inside (source.text.toList.splitOn '\n')
  counted : d.span.line ≤ source.lineCount
  quoted : source.line? d.span.line = some d.sourceLine

namespace Text

variable {raw : List Char}

theorem no_feed (oneLine : '\n' ∉ raw) : ∀ c ∈ raw, (c == '\n') = false := by
  intro c member
  rw [beq_eq_false_iff_ne]
  intro feed
  exact oneLine (feed ▸ member)

theorem splitLines_eq (text : List Char) : splitLines text = text.splitOn '\n' := by
  rw [List.splitOn_eq_splitOnP]
  induction text using text_induction with
  | line raw oneLine => rw [splitLines_line oneLine, List.splitOnP_eq_singleton (no_feed oneLine)]
  | broken raw more oneLine ih =>
    rw [splitLines_join oneLine, ih, List.splitOnP_append_cons _ _ rfl,
      List.splitOnP_eq_singleton (no_feed oneLine), List.singleton_append]

theorem splitLines_count (text : List Char) :
    (splitLines text).length = text.count '\n' + 1 := by
  induction text using text_induction with
  | line raw oneLine => simp [splitLines_line oneLine, List.count_eq_zero.mpr oneLine]
  | broken raw more oneLine ih =>
    rw [splitLines_join oneLine, List.length_cons, ih, List.count_append,
      List.count_eq_zero.mpr oneLine, List.count_cons_self]
    omega

theorem uncarried (raw : List Char) : Uncarried raw (dropEndWhile (· == '\r') raw) := by
  obtain ⟨tail, split, carriage⟩ := dropEndWhile_split (· == '\r') raw
  refine ⟨⟨tail.length, ?_⟩, ?_⟩
  · have all : tail = List.replicate tail.length '\r' := by
      rw [List.eq_replicate_iff]
      exact ⟨rfl, fun c member => by simpa using carriage c member⟩
    rw [← all]
    exact split
  · intro carried
    have other := dropEndWhile_last (· == '\r') raw '\r' carried
    simp at other

theorem bytes_cons (c : Char) (cs : List Char) :
    (c :: cs).utf8Encode.size = c.utf8Size + cs.utf8Encode.size := by
  rw [List.utf8Encode_cons, ByteArray.size_append]
  simp [List.utf8Encode]

theorem afterFeeds_line (oneLine : '\n' ∉ raw) (offset : Nat) : afterFeeds offset raw = [] := by
  induction raw generalizing offset with
  | nil => rfl
  | cons c raw ih =>
    simp only [List.mem_cons, not_or] at oneLine
    simp [afterFeeds, Ne.symm oneLine.1, ih oneLine.2]

theorem afterFeeds_join (oneLine : '\n' ∉ raw) (more : List Char) (offset : Nat) :
    afterFeeds offset (raw ++ '\n' :: more) =
      (offset + raw.utf8Encode.size + 1) :: afterFeeds (offset + raw.utf8Encode.size + 1) more := by
  induction raw generalizing offset with
  | nil => simp [afterFeeds, List.utf8Encode, show '\n'.utf8Size = 1 from rfl]
  | cons c raw ih =>
    simp only [List.mem_cons, not_or] at oneLine
    have other : c ≠ '\n' := Ne.symm oneLine.1
    simp only [List.cons_append, afterFeeds, other, ↓reduceIte, ih oneLine.2, bytes_cons,
      Nat.add_assoc]

theorem afterFeeds_length (text : List Char) (offset : Nat) :
    (afterFeeds offset text).length + 1 = (splitLines text).length := by
  induction text using text_induction generalizing offset with
  | line raw oneLine => simp [afterFeeds_line oneLine, splitLines_line oneLine]
  | broken raw more oneLine ih =>
    rw [afterFeeds_join oneLine, splitLines_join oneLine, List.length_cons, List.length_cons, ih]

/-- Cutting a text at its line feeds cuts its bytes after their offsets. -/
theorem cutAt_lines (before text : List Char) (n : Nat) :
    cutAt (before ++ text).utf8Encode
      (before.utf8Encode.size :: afterFeeds before.utf8Encode.size text) n =
        (splitLines text)[n]?.map List.utf8Encode := by
  -- What stands before the text is generalised: each line of it goes over to it in turn.
  induction text using text_induction generalizing before n with
  | line raw oneLine =>
    rw [splitLines_line oneLine, afterFeeds_line oneLine, List.utf8Encode_append]
    cases n with
    | zero =>
      exact congrArg some (ByteArray.extract_append_eq_right rfl ByteArray.size_append)
    | succ n => rfl
  | broken raw more oneLine ih =>
    rw [splitLines_join oneLine, afterFeeds_join oneLine]
    cases n with
    | zero =>
      rw [List.utf8Encode_append, List.utf8Encode_append]
      exact congrArg some (ByteArray.extract_append_size_add (i := 0).trans
        (ByteArray.extract_append_eq_left rfl))
    | succ n =>
      have whole : before ++ (raw ++ '\n' :: more) = (before ++ raw ++ ['\n']) ++ more := by simp
      have origin : (before ++ raw ++ ['\n']).utf8Encode.size =
          before.utf8Encode.size + raw.utf8Encode.size + 1 := by
        rw [List.utf8Encode_append, List.utf8Encode_append, ByteArray.size_append,
          ByteArray.size_append]
        rfl
      have later := ih (before ++ raw ++ ['\n']) n
      rw [origin, ← whole] at later
      exact later

theorem fromUTF8_encode (cs : List Char) :
    String.fromUTF8? cs.utf8Encode = some (String.ofList cs) := by
  have valid : cs.utf8Encode.IsValidUTF8 := ByteArray.isValidUTF8_utf8Encode
  simp [String.fromUTF8?, valid, String.fromUTF8, ← String.toByteArray_inj]

end Text

namespace Source

variable (s : Source)

theorem lineCount_eq : s.lineCount = (Text.splitLines s.text.toList).length :=
  (Text.splitLines_count s.text.toList).symm

theorem line_at {n : Nat} {raw : List Char}
    (found : (Text.splitLines s.text.toList)[n]? = some raw) :
    s.line? (n + 1) = some (String.ofList (Text.dropEndWhile (· == '\r') raw)) := by
  simp [line?, found]

theorem line_none {n : Nat} (outside : n = 0 ∨ s.lineCount < n) : s.line? n = none := by
  cases n with
  | zero => rfl
  | succ n =>
    rw [lineCount_eq] at outside
    have beyond : (Text.splitLines s.text.toList)[n]? = none := by
      rw [List.getElem?_eq_none_iff]
      omega
    simp [line?, beyond]

theorem lineByOffset_eq (n : Nat) : s.lineByOffset? n = s.line? n := by
  cases n with
  | zero => rfl
  | succ n =>
    have bytes : s.text.toUTF8 = s.text.toList.utf8Encode := by simp
    have cut : Text.cutAt s.text.toUTF8 s.lineStarts n =
        (Text.splitLines s.text.toList)[n]?.map List.utf8Encode := by
      rw [bytes]
      exact Text.cutAt_lines [] s.text.toList n
    simp only [lineByOffset?, line?, cut]
    cases (Text.splitLines s.text.toList)[n]? with
    | none => rfl
    | some raw => simp [Text.fromUTF8_encode]

end Source

theorem Problem.locate_quotes (problem : Problem) {source : Source} {span : Span}
    (inside : span.Inside (Text.splitLines source.text.toList)) :
    (problem.locate source span).Quotes source := by
  obtain ⟨raw, found, _⟩ := inside.columns
  have next : span.line - 1 + 1 = span.line := Nat.sub_add_cancel inside.line
  have shown := source.line_at found
  rw [next] at shown
  refine ⟨Text.splitLines_eq _ ▸ inside, ?_, ?_⟩
  · have within := (List.getElem?_eq_some_iff.mp found).1
    rw [source.lineCount_eq]
    change span.line ≤ _
    omega
  · change source.line? span.line = some ((source.line? span.line).getD "")
    rw [shown]
    rfl

namespace Lexer

variable {text : List Char}

theorem cut_inside {x : Cut} (member : x ∈ textCuts 1 (Text.splitLines text))
    (inLine : x.piece ≠ .token .newline) : x.span.Inside (Text.splitLines text) := by
  obtain ⟨n, raw, found, line, sound | ⟨rfl, _⟩⟩ :=
    textCuts_sound (Text.splitLines_free text) member
  · have proper := cut_proper member
    have fits := sound.fits
    have place : x.span.line = n + 1 := by
      have same : x.span.line = 1 + n := line
      omega
    refine ⟨by omega, raw, ?_, Nat.le_add_left 1 _, proper, ?_⟩
    · rw [place, Nat.add_sub_cancel]
      exact found
    · simp only [Cut.span]
      omega
  · exact absurd rfl inLine

theorem token_inside {t : Token} (own : t ∈ tokens text) (inLine : t.kind.isNewline = false) :
    t.span.Inside (Text.splitLines text) := by
  obtain ⟨x, member, read, same⟩ := tokens_inLine own
  rw [← same]
  apply cut_inside member
  intro newline
  have kind : TokenKind.newline = t.kind := by simpa [newline, Piece.kind?] using read
  rw [← kind] at inLine
  cases inLine

theorem complaint_inside {problem : Problem} {span : Span}
    (given : (problem, span) ∈ complaints text) : span.Inside (Text.splitLines text) := by
  rw [(read_textCuts text).2] at given
  obtain ⟨x, member, own⟩ := List.mem_filterMap.mp given
  obtain ⟨_, flaw, same⟩ := Option.map_eq_some_iff.mp own
  cases same
  apply cut_inside member
  intro newline
  rw [newline] at flaw
  cases flaw

end Lexer

namespace Assembly

theorem row_oneLine {tokens : List Token} {r : Row} (member : r ∈ rows tokens) :
    ∀ t ∈ r.head :: r.arguments, t.kind.isNewline = false := by
  induction tokens using line_induction with
  | line body oneLine =>
    cases body with
    | nil => simp [rows, Row.ofTokens?] at member
    | cons head arguments =>
      rw [rows_line oneLine, List.mem_singleton] at member
      subst member
      exact oneLine
  | broken body place more _ first later =>
    rw [rows_append, List.mem_append] at member
    rcases member with early | late
    · exact first early
    · exact later late

variable {text : List Char} {r : Row}

theorem head_inside (member : r ∈ rows (Lexer.tokens text)) :
    r.head.span.Inside (Text.splitLines text) :=
  Lexer.token_inside (head_mem member) (row_oneLine member r.head List.mem_cons_self)

theorem textSpan_inside (member : r ∈ rows (Lexer.tokens text)) :
    r.textSpan.Inside (Text.splitLines text) := by
  unfold Row.textSpan
  cases given : r.lastText? with
  | none => exact head_inside member
  | some last =>
    obtain ⟨t, own, said⟩ := List.mem_filterMap.mp (List.mem_of_getLast? given)
    obtain ⟨_, _, rfl⟩ := Option.map_eq_some_iff.mp said
    have argument := List.mem_cons_of_mem r.head own
    exact Lexer.token_inside (row_mem member t argument) (row_oneLine member t argument)

theorem complaint_inside {problem : Problem} {span : Span}
    (member : r ∈ rows (Lexer.tokens text)) (complaint : r.complaint? = some (problem, span)) :
    span.Inside (Text.splitLines text) := by
  have bad := Row.bad_of_complaint complaint
  generalize problem.code = code at bad
  cases bad with
  | head | mnemonic | name => exact head_inside member
  | kind _ _ last _ _ =>
    have place : r.textSpan = span := by simp [Row.textSpan, last]
    rw [← place]
    exact textSpan_inside member

theorem warning_located {source : Source} {rs : List Row} {w : Diagnostic}
    (given : w ∈ warnings source rs) :
    ∃ r ∈ rs, ∃ problem : Problem, w = problem.locate source r.textSpan := by
  obtain ⟨k, _, warned⟩ := List.mem_filterMap.mp given
  obtain ⟨r, found, warned⟩ := Option.bind_eq_some_iff.mp warned
  obtain ⟨_, warned⟩ := Option.ite_none_right_eq_some.mp warned
  obtain ⟨⟨name, span⟩, named, warned⟩ := Option.bind_eq_some_iff.mp warned
  obtain ⟨first, _, rfl⟩ := Option.map_eq_some_iff.mp warned
  have place : span = r.textSpan := by
    unfold Row.definition? at named
    cases read : r.reading with
    | error => simp [read] at named
    | ok i =>
      simp only [read, Option.ite_none_right_eq_some] at named
      cases named.2
      rfl
  exact ⟨r, List.mem_of_getElem? found, _, by rw [place]⟩

variable {source : Source} {d : Diagnostic}

theorem error_quotes (given : d ∈ errors source (rows (Lexer.tokens source.text.toList))) :
    d.Quotes source := by
  obtain ⟨⟨problem, span⟩, kept, rfl⟩ := List.mem_map.mp given
  obtain ⟨r, member, complaint⟩ := List.mem_filterMap.mp (List.mem_of_mem_take kept)
  exact problem.locate_quotes (complaint_inside member complaint)

theorem warning_quotes (given : d ∈ warnings source (rows (Lexer.tokens source.text.toList))) :
    d.Quotes source := by
  obtain ⟨r, member, problem, rfl⟩ := warning_located given
  exact problem.locate_quotes (textSpan_inside member)

end Assembly

theorem Load.reported_quotes {source : Source} {d : Diagnostic}
    (given : d ∈ (load source).diagnostics.errors.toList ++
      (load source).diagnostics.warnings.toList) :
    d.Quotes source := by
  by_cases quiet : Lexer.complaints source.text.toList = []
  · rw [load_quiet quiet, Diagnostics.extend_errors, (Diagnostics.extend_warnings _ _).1] at given
    rcases List.mem_append.mp given with error | warning
    · exact Assembly.error_quotes (List.mem_of_mem_take error)
    · exact Assembly.warning_quotes warning
  · have wrong := (Lexer.lex_hasErrors source).mpr quiet
    have stopped : (load source).diagnostics = (Lexer.lex source).2 := by simp [load, wrong]
    have silent : (Lexer.lex source).2.warnings = #[] := (Diagnostics.pushErrors_warnings _ _).1
    rw [stopped, silent, List.append_nil, (Lexer.lex_errors source).1] at given
    obtain ⟨⟨problem, span⟩, complaint, rfl⟩ := List.mem_map.mp (List.mem_of_mem_take given)
    exact problem.locate_quotes (Lexer.complaint_inside complaint)

/-- The lines of a source text are its pieces between line feeds without the carriage returns at
their ends, also when they are cut out at offsets in bytes, and there are no others; 32 bits hold
their numbers and columns. Every error and every warning about the text stands at characters of a
line, which it quotes. -/
theorem diagnostics_quote_their_lines {source : Source} (short : source.text.length < 4294967295) :
    let pieces := source.text.toList.splitOn '\n'
    source.lineCount = source.text.toList.count '\n' + 1 ∧
    source.lineCount = pieces.length ∧ source.lineCount = source.lineStarts.length ∧
    source.lineCount < 4294967296 ∧ (∀ raw ∈ pieces, raw.length + 1 < 4294967296) ∧
    (∀ n raw, pieces[n]? = some raw →
      ∃ kept, Text.Uncarried raw kept ∧ source.line? (n + 1) = some (String.ofList kept)) ∧
    (∀ n, n = 0 ∨ source.lineCount < n → source.line? n = none) ∧
    (∀ n, source.lineByOffset? n = source.line? n) ∧
    ∀ d ∈ (load source).diagnostics.errors.toList ++ (load source).diagnostics.warnings.toList,
      d.Quotes source := by
  intro pieces
  have split : Text.splitLines source.text.toList = pieces := Text.splitLines_eq _
  have counted := source.lineCount_eq
  have starts := Text.afterFeeds_length source.text.toList 0
  obtain ⟨lines, columns⟩ := Text.splitLines_length source.text.toList
  rw [String.length_toList] at lines columns
  rw [split] at counted starts lines columns
  refine ⟨rfl, counted, ?_, by omega, ?_, ?_, fun n => source.line_none, source.lineByOffset_eq,
    fun d given => Load.reported_quotes given⟩
  · exact counted.trans starts.symm
  · intro raw member
    have narrow := columns raw member
    omega
  · intro n raw found
    exact ⟨_, Text.uncarried raw, source.line_at (split ▸ found)⟩

def mixedEndings : Source := ⟨"main.whl", "OUT \"é\"\r\nDEF f\nRET\n\tDEF f\r\r\n\r\nnope"⟩

theorem mixed_endings_quoted :
    mixedEndings.text.length < 4294967295 ∧ mixedEndings.lineCount = 6 ∧
    mixedEndings.lineStarts = [0, 10, 16, 20, 29, 31] ∧
    (load mixedEndings).diagnostics.errors.toList.map (fun d => (d.span, d.sourceLine)) =
      [(⟨6, 1, 4⟩, "nope")] ∧
    (load mixedEndings).diagnostics.warnings.toList.map (fun d => (d.span, d.sourceLine)) =
      [(⟨4, 6, 6⟩, "\tDEF f")] ∧
    ∀ d ∈ (load mixedEndings).diagnostics.errors.toList ++
      (load mixedEndings).diagnostics.warnings.toList, d.Quotes mixedEndings := by
  have short : mixedEndings.text.length < 4294967295 := by decide
  obtain ⟨_, _, _, _, _, _, _, _, quoted⟩ := diagnostics_quote_their_lines short
  exact ⟨short, by decide +kernel, by decide +kernel, by decide +kernel, by decide +kernel, quoted⟩

end Wheelwork
