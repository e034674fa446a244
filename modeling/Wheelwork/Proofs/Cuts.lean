import Wheelwork.Proofs.Spelling

/-!
The pieces that a text is cut into, in their places. `cuts` lists those of a line with the
characters around them, `textCuts` those of a whole text. They follow each other without a gap, and
the tokens and complaints of the text are read off them.
-/
namespace Wheelwork

namespace Span

def Covers (s : Span) (line column : Nat) : Prop :=
  s.line = line ∧ s.column ≤ column ∧ column ≤ s.endColumn

def Before (a b : Span) : Prop := a.line < b.line ∨ a.line = b.line ∧ a.endColumn < b.column

theorem Before.not_covers {a b : Span} (before : a.Before b) : ¬ a.Covers b.line b.column := by
  rintro ⟨line, _, column⟩
  rcases before with above | ⟨_, left⟩ <;> omega

theorem Before.not_covered {a b : Span} (before : a.Before b) (proper : a.column ≤ a.endColumn) :
    ¬ b.Covers a.line a.column := by
  rintro ⟨line, column, _⟩
  rcases before with above | ⟨_, left⟩ <;> omega

end Span

namespace Text

theorem splitLines_cons {c : Char} (inLine : '\n' ≠ c) {cs first : List Char}
    {lines : List (List Char)} (later : splitLines cs = first :: lines) :
    splitLines (c :: cs) = (c :: first) :: lines := by
  have other : c ≠ '\n' := inLine.symm
  simp [splitLines, later]

theorem splitLines_line {raw : List Char} (oneLine : '\n' ∉ raw) : splitLines raw = [raw] := by
  induction raw with
  | nil => rfl
  | cons c raw ih =>
    simp only [List.mem_cons, not_or] at oneLine
    exact splitLines_cons oneLine.1 (ih oneLine.2)

theorem splitLines_join {raw : List Char} (oneLine : '\n' ∉ raw) (more : List Char) :
    splitLines (raw ++ '\n' :: more) = raw :: splitLines more := by
  induction raw with
  | nil => rfl
  | cons c raw ih =>
    simp only [List.mem_cons, not_or] at oneLine
    exact splitLines_cons oneLine.1 (ih oneLine.2)

/-- A text is one line, or a line and a text after its line feed. -/
@[elab_as_elim]
theorem text_induction {motive : List Char → Prop} (text : List Char)
    (line : ∀ raw, '\n' ∉ raw → motive raw)
    (broken : ∀ raw more, '\n' ∉ raw → motive more → motive (raw ++ '\n' :: more)) :
    motive text := by
  induction size : text.length using Nat.strongRecOn generalizing text with
  | ind size ih =>
    by_cases several : '\n' ∈ text
    · obtain ⟨raw, more, rfl, oneLine⟩ := List.eq_append_cons_of_mem several
      refine broken raw more oneLine (ih more.length ?_ more rfl)
      rw [← size, List.length_append, List.length_cons]
      omega
    · exact line text several

theorem splitLines_ne_nil (text : List Char) : splitLines text ≠ [] := by
  induction text using text_induction with
  | line raw oneLine => simp [splitLines_line oneLine]
  | broken raw more oneLine ih => simp [splitLines_join oneLine]

theorem splitLines_free (text : List Char) : ∀ raw ∈ splitLines text, '\n' ∉ raw := by
  induction text using text_induction with
  | line raw oneLine => simp [splitLines_line oneLine, oneLine]
  | broken raw more oneLine ih =>
    rw [splitLines_join oneLine]
    intro other member
    rcases List.mem_cons.mp member with rfl | later
    · exact oneLine
    · exact ih other later

theorem splitLines_length (text : List Char) :
    (splitLines text).length ≤ text.length + 1 ∧ ∀ raw ∈ splitLines text, raw.length ≤ text.length := by
  induction text using text_induction with
  | line raw oneLine => simp [splitLines_line oneLine]
  | broken raw more oneLine ih =>
    rw [splitLines_join oneLine, List.length_append, List.length_cons, List.length_cons]
    refine ⟨by omega, ?_⟩
    intro other member
    rcases List.mem_cons.mp member with rfl | later
    · omega
    · have short := ih.2 other later
      omega

end Text

namespace Lexer

/-- A piece of a line, in its place. -/
structure Cut where
  line : Nat
  before : List Char
  shown : List Char
  after : List Char
  piece : Piece

namespace Cut

def span (x : Cut) : Span := ⟨x.line, x.before.length + 1, x.before.length + x.shown.length⟩

def token? (x : Cut) : Option Token := x.piece.kind?.map (⟨·, x.span⟩)

def complaint? (x : Cut) : Option (Problem × Span) := x.piece.problem?.map (·, x.span)

def lexeme? (x : Cut) : Option Lexeme :=
  Lexer.lexeme? ⟨x.line, x.before.length + 1⟩ (x.shown.length - 1) x.piece

def lineEnd (line : Nat) (raw : List Char) : Cut := ⟨line, raw, ['\n'], [], .token .newline⟩

/-- The piece is the one that stands there in the line. -/
structure Sound (raw : List Char) (x : Cut) : Prop where
  text : raw = x.before ++ x.shown ++ x.after
  shape : Shape x.shown x.after x.piece
  start : startsWithDigit (x.shown ++ x.after) = true → NumberStart x.before

end Cut

def cuts (line : Nat) (before : List Char) : List Char → List Cut
  | [] => []
  | c :: rest =>
    let shown := c :: rest.take (piece c rest).1
    let after := rest.drop (piece c rest).1
    ⟨line, before, shown, after, (piece c rest).2⟩ :: cuts line (before ++ shown) after
termination_by cs => cs.length
decreasing_by simp only [List.length_cons, List.length_drop]; omega

def textCuts : (line : Nat) → List (List Char) → List Cut
  | _, [] => []
  | line, [raw] => cuts line [] raw
  | line, raw :: next :: more =>
    cuts line [] raw ++ Cut.lineEnd line raw :: textCuts (line + 1) (next :: more)

section Line

variable {line : Nat} {before cs : List Char}

theorem cuts_past :
    ∀ x ∈ cuts line before cs, x.line = line ∧ before.length ≤ x.before.length := by
  fun_induction cuts line before cs with
  | case1 before => simp
  | case2 before c rest shown after ih =>
    intro x member
    rcases List.mem_cons.mp member with rfl | later
    · exact ⟨rfl, Nat.le_refl _⟩
    · have past := ih x later
      rw [List.length_append] at past
      exact ⟨past.1, by omega⟩

theorem cuts_ordered :
    (cuts line before cs).Pairwise fun x y => x.span.Before y.span := by
  fun_induction cuts line before cs with
  | case1 before => exact .nil
  | case2 before c rest shown after ih =>
    refine .cons ?_ ih
    intro x later
    obtain ⟨same, past⟩ := cuts_past x later
    rw [List.length_append] at past
    refine .inr ⟨same.symm, ?_⟩
    simp only [Cut.span]
    omega

theorem cuts_cover {column : Nat} (past : before.length < column)
    (within : column ≤ before.length + cs.length) :
    ∃ x ∈ cuts line before cs, x.span.Covers line column := by
  fun_induction cuts line before cs with
  | case1 before =>
    rw [List.length_nil] at within
    omega
  | case2 before c rest shown after ih =>
    have split : (shown ++ after).length = (c :: rest).length := by simp [shown, after]
    rw [List.length_append] at split
    by_cases here : column ≤ before.length + shown.length
    · exact ⟨_, List.mem_cons_self, rfl, past, here⟩
    · rw [List.length_append] at ih
      obtain ⟨x, later, covers⟩ := ih (by omega) (by omega)
      exact ⟨x, List.mem_cons_of_mem _ later, covers⟩

theorem cuts_sound (oneLine : '\n' ∉ cs)
    (start : startsWithDigit cs = true → NumberStart before) :
    ∀ x ∈ cuts line before cs, x.Sound (before ++ cs) := by
  fun_induction cuts line before cs with
  | case1 before => simp
  | case2 before c rest shown after ih =>
    have shape := piece_shape oneLine
    have split : shown ++ after = c :: rest := by simp [shown, after]
    have free : '\n' ∉ after := by
      intro member
      rw [← split] at oneLine
      exact oneLine (List.mem_append_right shown member)
    have later := ih free shape.numberStart
    rw [List.append_assoc, split] at later
    intro x member
    rcases List.mem_cons.mp member with rfl | old
    · refine ⟨?_, shape, ?_⟩
      · simp only [List.append_assoc, split]
      · rw [split]
        exact start
    · exact later x old

theorem lexeme_stop {start : Position} {count : Nat} {p : Piece} {x : Lexeme}
    (inLine : p ≠ .token .newline) (made : lexeme? start count p = some x) :
    x.stop = ⟨start.line, start.column + count + 1⟩ := by
  cases p with
  | blank => cases made
  | token kind =>
    cases kind with
    | newline => exact absurd rfl inLine
    | word | integer | float | string | args | eof =>
      cases made
      rfl
  | flawed problem kind =>
    cases made
    rfl

theorem scan_cuts (oneLine : '\n' ∉ cs) :
    scan ⟨line, before.length + 1⟩ cs =
      ((cuts line before cs).filterMap Cut.lexeme?, ⟨line, before.length + cs.length + 1⟩) := by
  fun_induction cuts line before cs with
  | case1 before => simp [scan]
  | case2 before c rest shown after ih =>
    have shape := piece_shape oneLine
    have inLine : (piece c rest).2 ≠ .token .newline := by
      intro same
      have kind := shape.inLine .newline (by rw [same]; rfl)
      cases kind
    have free : '\n' ∉ after := by
      intro member
      exact oneLine (List.mem_cons_of_mem c (List.mem_of_mem_drop member))
    have fits := piece_fits c rest
    have width : shown.length = (piece c rest).1 + 1 := by simp [shown, fits]
    have rest_length : rest.length = (piece c rest).1 + after.length := by
      simp [after]
      omega
    have later := ih free
    have place : before.length + 1 + (piece c rest).1 + 1 = (before ++ shown).length + 1 := by
      rw [List.length_append]
      omega
    have stop : before.length + (c :: rest).length + 1 =
        (before ++ shown).length + after.length + 1 := by
      rw [List.length_append, List.length_cons]
      omega
    have same : Cut.lexeme? ⟨line, before, shown, after, (piece c rest).2⟩ =
        lexeme? ⟨line, before.length + 1⟩ (piece c rest).1 (piece c rest).2 := by
      simp [Cut.lexeme?, width]
    rw [stop, List.filterMap_cons, same]
    cases made : lexeme? ⟨line, before.length + 1⟩ (piece c rest).1 (piece c rest).2 with
    | none =>
      have blank := blank_of_none made
      rw [scan_blank (Prod.ext rfl blank)]
      simp only [place]
      exact later
    | some x =>
      have cut : piece c rest = ((piece c rest).1, (piece c rest).2) := rfl
      rw [scan_lexeme cut made, lexeme_stop inLine made]
      simp only [place]
      rw [later]

end Line

section Text

variable {line : Nat} {lines : List (List Char)}

theorem mem_textCuts {x : Cut} :
    x ∈ textCuts line lines ↔ ∃ n raw, lines[n]? = some raw ∧
      (x ∈ cuts (line + n) [] raw ∨ x = Cut.lineEnd (line + n) raw ∧ n + 1 < lines.length) := by
  fun_induction textCuts line lines with
  | case1 => simp
  | case2 line raw =>
    constructor
    · intro member
      exact ⟨0, raw, rfl, .inl member⟩
    · rintro ⟨n, other, found, own | ⟨_, more⟩⟩
      · obtain ⟨rfl, rfl⟩ : n = 0 ∧ raw = other := by
          simpa [List.getElem?_singleton] using found
        exact own
      · simp at more
  | case3 line raw next more ih =>
    rw [List.mem_append, List.mem_cons, ih]
    constructor
    · rintro (first | rfl | ⟨n, other, found, own⟩)
      · exact ⟨0, raw, rfl, .inl first⟩
      · exact ⟨0, raw, rfl, .inr ⟨rfl, by simp⟩⟩
      · refine ⟨n + 1, other, found, ?_⟩
        rw [show line + (n + 1) = line + 1 + n by omega, List.length_cons, Nat.add_lt_add_iff_right]
        exact own
    · rintro ⟨n, other, found, own⟩
      cases n with
      | zero =>
        obtain rfl := Option.some.inj found
        rcases own with own | ⟨rfl, _⟩
        · exact .inl own
        · exact .inr (.inl rfl)
      | succ n =>
        rw [show line + (n + 1) = line + 1 + n by omega, List.length_cons,
          Nat.add_lt_add_iff_right] at own
        exact .inr (.inr ⟨n, other, found, own⟩)

theorem textCuts_line {x : Cut} (member : x ∈ textCuts line lines) : line ≤ x.line := by
  obtain ⟨n, raw, _, own | ⟨rfl, _⟩⟩ := mem_textCuts.mp member
  · have same := (cuts_past x own).1
    omega
  · exact Nat.le_add_right line n

theorem textCuts_sound (free : ∀ raw ∈ lines, '\n' ∉ raw) {x : Cut}
    (member : x ∈ textCuts line lines) :
    ∃ n raw, lines[n]? = some raw ∧ x.line = line + n ∧
      (x.Sound raw ∨ x = Cut.lineEnd (line + n) raw ∧ n + 1 < lines.length) := by
  obtain ⟨n, raw, found, own | ⟨rfl, more⟩⟩ := mem_textCuts.mp member
  · have oneLine := free raw (List.mem_of_getElem? found)
    have sound := cuts_sound oneLine (by simp [NumberStart]) x own
    exact ⟨n, raw, found, (cuts_past x own).1, .inl sound⟩
  · exact ⟨n, raw, found, rfl, .inr ⟨rfl, more⟩⟩

theorem textCuts_cover {n column : Nat} {raw : List Char} (found : lines[n]? = some raw)
    (past : 0 < column) (within : column ≤ raw.length) :
    ∃ x ∈ textCuts line lines, x.span.Covers (line + n) column := by
  have start : ([] : List Char).length < column := past
  obtain ⟨x, own, covers⟩ := cuts_cover start (by simpa using within)
  exact ⟨x, mem_textCuts.mpr ⟨n, raw, found, .inl own⟩, covers⟩

theorem Cut.Sound.fits {raw : List Char} {x : Cut} (sound : x.Sound raw) :
    x.before.length + x.shown.length + x.after.length = raw.length := by
  rw [sound.text, List.length_append, List.length_append]

theorem textCuts_ordered (free : ∀ raw ∈ lines, '\n' ∉ raw) :
    (textCuts line lines).Pairwise fun x y => x.span.Before y.span := by
  fun_induction textCuts line lines with
  | case1 => exact .nil
  | case2 line raw => exact cuts_ordered
  | case3 line raw next more ih =>
    have below : ∀ x ∈ textCuts (line + 1) (next :: more), line < x.line :=
      fun x member => textCuts_line member
    have ends : ∀ x ∈ cuts line [] raw, x.span.Before (Cut.lineEnd line raw).span := by
      intro x member
      have fits := (cuts_sound (free raw (by simp)) (by simp [NumberStart]) x member).fits
      refine .inr ⟨(cuts_past x member).1, ?_⟩
      simp only [Cut.span, Cut.lineEnd, List.nil_append] at fits ⊢
      omega
    rw [List.pairwise_append, List.pairwise_cons]
    refine ⟨cuts_ordered, ⟨?_, ih fun r member => free r (List.mem_cons_of_mem raw member)⟩, ?_⟩
    · intro x later
      exact .inl (below x later)
    · intro x member y later
      rcases List.mem_cons.mp later with rfl | later
      · exact ends x member
      · have same := (cuts_past x member).1
        refine .inl ?_
        simp only [Cut.span, same]
        exact below y later

theorem scan_oneLine {raw : List Char} (oneLine : '\n' ∉ raw) :
    scan ⟨line, 1⟩ raw =
      ((cuts line [] raw).filterMap Cut.lexeme?, ⟨line, raw.length + 1⟩) := by
  have start : (⟨line, 1⟩ : Position) = ⟨line, ([] : List Char).length + 1⟩ := rfl
  rw [start, scan_cuts oneLine, List.length_nil, Nat.zero_add]

theorem scan_text (line : Nat) (text : List Char) :
    (scan ⟨line, 1⟩ text).1 = (textCuts line (Text.splitLines text)).filterMap Cut.lexeme? ∧
      ∃ last, (Text.splitLines text).getLast? = some last ∧
        (scan ⟨line, 1⟩ text).2 =
          ⟨line + ((Text.splitLines text).length - 1), last.length + 1⟩ := by
  induction text using Text.text_induction generalizing line with
  | line raw oneLine => simp [Text.splitLines_line oneLine, textCuts, scan_oneLine oneLine]
  | broken raw more oneLine ih =>
    obtain ⟨lexemes, last, final, stop⟩ := ih (line + 1)
    obtain ⟨next, rest, lines⟩ := List.exists_cons_of_ne_nil (Text.splitLines_ne_nil more)
    have broken : (Cut.lineEnd line raw).lexeme? = some (breakAt ⟨line, raw.length + 1⟩) := rfl
    rw [lines] at lexemes final stop
    rw [Text.splitLines_join oneLine, lines, textCuts, scan_join, scan_oneLine oneLine,
      List.filterMap_append, List.filterMap_cons, broken]
    refine ⟨by simp only [lexemes], last, ?_, ?_⟩
    · rw [List.getLast?_cons_cons]
      exact final
    · rw [stop]
      simp only [List.length_cons]
      congr 1
      omega

theorem Cut.lexeme_parts {x : Cut} (some : x.shown ≠ [])
    (point : x.piece = .token .newline → x.shown.length = 1) :
    x.lexeme?.bind Lexeme.token = x.token? ∧ x.lexeme?.bind Lexeme.complaint = x.complaint? := by
  have positive := List.length_pos_iff.mpr some
  have width : x.before.length + 1 + (x.shown.length - 1) = x.before.length + x.shown.length := by
    omega
  unfold Cut.lexeme? Cut.token? Cut.complaint? Cut.span
  cases read : x.piece with
  | blank => exact ⟨rfl, rfl⟩
  | token kind =>
    cases kind with
    | newline => simp [Lexer.lexeme?, Piece.kind?, Piece.problem?, Span.point, point read]
    | word | integer | float | string | args | eof =>
      simp [Lexer.lexeme?, Piece.kind?, Piece.problem?, width]
  | flawed problem kind =>
    cases kind <;> simp [Lexer.lexeme?, Piece.kind?, Piece.problem?, width]

theorem textCuts_parts {text : List Char} {x : Cut}
    (member : x ∈ textCuts 1 (Text.splitLines text)) :
    x.lexeme?.bind Lexeme.token = x.token? ∧ x.lexeme?.bind Lexeme.complaint = x.complaint? := by
  obtain ⟨n, raw, _, _, sound | ⟨rfl, _⟩⟩ := textCuts_sound (Text.splitLines_free text) member
  · refine Cut.lexeme_parts sound.shape.ne_nil ?_
    intro newline
    have kind := sound.shape.inLine .newline (by rw [newline]; rfl)
    cases kind
  · exact Cut.lexeme_parts (by simp [Cut.lineEnd]) (by simp [Cut.lineEnd])

theorem read_textCuts (text : List Char) :
    tokens text = (textCuts 1 (Text.splitLines text)).filterMap Cut.token? ∧
      complaints text = (textCuts 1 (Text.splitLines text)).filterMap Cut.complaint? := by
  rw [tokens, complaints, (scan_text 1 text).1, List.filterMap_filterMap, List.filterMap_filterMap]
  constructor
  · exact List.filterMap_congr fun x member => (textCuts_parts member).1
  · exact List.filterMap_congr fun x member => (textCuts_parts member).2

theorem complaint_at (x : Cut) (s : Span) :
    (x.complaint?.toList.filter fun e => e.2 = s) =
      if x.span = s then x.complaint?.toList else [] := by
  unfold Cut.complaint?
  cases x.piece.problem? with
  | none => simp
  | some problem =>
    by_cases same : x.span = s
    · simp [same]
    · simp [same]

theorem complaints_at {cs : List Cut} (ordered : cs.Pairwise fun x y => x.span.Before y.span)
    {x : Cut} (member : x ∈ cs) {s : Span} (within : x.span.Covers s.line s.column)
    (proper : s.column ≤ s.endColumn) :
    ((cs.filterMap Cut.complaint?).filter fun e => e.2 = s) =
      if x.span = s then x.complaint?.toList else [] := by
  induction cs with
  | nil => cases member
  | cons y cs ih =>
    rw [List.pairwise_cons] at ordered
    rw [filterMap_cons_toList, List.filter_append, complaint_at]
    rcases List.mem_cons.mp member with rfl | later
    · have none : ((cs.filterMap Cut.complaint?).filter fun e => e.2 = s) = [] := by
        rw [List.filter_eq_nil_iff]
        intro e found
        obtain ⟨z, there, given⟩ := List.mem_filterMap.mp found
        obtain ⟨problem, _, rfl⟩ := Option.map_eq_some_iff.mp given
        have apart := ordered.1 z there
        simp only [decide_eq_true_eq]
        rintro rfl
        exact apart.not_covers within
      rw [none, List.append_nil]
    · have other : y.span ≠ s := by
        rintro rfl
        exact (ordered.1 x later).not_covered proper within
      rw [if_neg other, List.nil_append]
      exact ih ordered.2 later

theorem cut_unique {cs : List Cut} (ordered : cs.Pairwise fun x y => x.span.Before y.span)
    {place column : Nat} {x y : Cut} (one : x ∈ cs) (other : y ∈ cs)
    (here : x.span.Covers place column) (also : y.span.Covers place column) : x = y := by
  have apart : ∀ {a b : Cut}, a.span.Before b.span → a.span.Covers place column →
      ¬ b.span.Covers place column := by
    rintro a b (above | ⟨same, left⟩) ⟨_, _, _⟩ ⟨_, _, _⟩ <;> omega
  refine List.Pairwise.forall_of_forall_of_flip
    (R := fun a b => a.span.Covers place column → b.span.Covers place column → a = b)
    (fun a _ _ _ => rfl) ?_ ?_ one other here also
  · exact ordered.imp fun before first second => absurd second (apart before first)
  · exact ordered.imp fun before first second => absurd first (apart before second)

theorem textCuts_newlines (free : ∀ raw ∈ lines, '\n' ∉ raw) :
    (((textCuts line lines).filterMap Cut.token?).filter fun t => t.kind.isNewline).map Token.span =
      lines.dropLast.mapIdx fun n raw => .point (line + n) (raw.length + 1) := by
  have none : ∀ {line : Nat} {raw : List Char}, '\n' ∉ raw →
      (((cuts line [] raw).filterMap Cut.token?).filter fun t => t.kind.isNewline) = [] := by
    intro line raw oneLine
    rw [List.filter_eq_nil_iff]
    intro t found newline
    obtain ⟨x, member, given⟩ := List.mem_filterMap.mp found
    obtain ⟨kind, read, rfl⟩ := Option.map_eq_some_iff.mp given
    have inLine := (cuts_sound oneLine (by simp [NumberStart]) x member).shape.inLine kind read
    cases kind <;> simp_all [TokenKind.isNewline, TokenKind.endsLine]
  fun_induction textCuts line lines with
  | case1 => rfl
  | case2 line raw => simp [none (free raw (by simp))]
  | case3 line raw next more ih =>
    have later := ih fun r member => free r (List.mem_cons_of_mem raw member)
    have own : (Cut.lineEnd line raw).token? =
        some ⟨.newline, .point (line + 0) (raw.length + 1)⟩ := rfl
    rw [List.filterMap_append, List.filter_append, none (free raw (by simp)), List.nil_append,
      List.filterMap_cons_some own, List.filter_cons_of_pos rfl, List.map_cons, later,
      List.dropLast_cons_cons, List.mapIdx_cons]
    simp only [Nat.add_assoc, Nat.add_comm 1]

end Text

theorem errors_foldl (ds : Diagnostics) (more : List Diagnostic) :
    (more.foldl Diagnostics.pushError ds).errors.toList =
      ds.errors.toList ++ more.take (Diagnostics.cap - ds.errors.size) := by
  induction more generalizing ds with
  | nil => simp
  | cons d more ih =>
    rw [List.foldl_cons, ih, Diagnostics.pushError]
    by_cases room : ds.errors.size < Diagnostics.cap
    · obtain ⟨left, rest⟩ : ∃ left, Diagnostics.cap - ds.errors.size = left + 1 :=
        ⟨Diagnostics.cap - ds.errors.size - 1, by omega⟩
      have next : Diagnostics.cap - (ds.errors.size + 1) = left := by omega
      simp [room, rest, next]
    · have full : Diagnostics.cap - ds.errors.size = 0 := by omega
      simp [room, full]

def located (source : Source) : List Diagnostic :=
  (complaints source.text.toList).map fun (problem, span) => problem.locate source span

/-- Of all errors the first are kept, as many as there is room for, and no more are counted. -/
theorem lex_errors (source : Source) :
    (lex source).2.errors.toList = (located source).take Diagnostics.cap ∧
      (lex source).2.totalErrors = min Diagnostics.cap (located source).length := by
  have kept := lexWithin_complaints Diagnostics.cap source.text.toList
  constructor
  · rw [lex, errors_foldl, kept, List.map_take]
    simp [Diagnostics.empty, located, List.take_take]
  · rw [lex, totalErrors_foldl, kept]
    simp [Diagnostics.empty, located]

theorem lex_few {source : Source} (few : (lex source).2.totalErrors < Diagnostics.cap) :
    (lex source).1 = closed source.text.toList ∧
      (lex source).2.errors.toList = located source ∧
      (lex source).2.totalErrors = (lex source).2.errors.size := by
  obtain ⟨errors, count⟩ := lex_errors source
  have short : (located source).length < Diagnostics.cap := by omega
  rw [List.take_of_length_le (Nat.le_of_lt short)] at errors
  have all : lexWithin (some Diagnostics.cap) source.text.toList = _ :=
    lexWithin_few (by simpa [located] using short)
  refine ⟨congrArg Prod.fst all, errors, ?_⟩
  · rw [count, ← Array.length_toList, errors]
    omega

end Lexer
end Wheelwork
