import Wheelwork.Proofs.Cuts

/-!
A source text is the tokens and errors that it is cut into, and what is blank: every character
belongs to just one of them.
-/
namespace Wheelwork

section Partition

open Text

variable (tokens : List Token) (errors : List Diagnostic)

def Covered (line column : Nat) : Prop := ∃ t ∈ tokens, t.span.Covers line column

def codesAt (s : Span) : List Nat := (errors.filter (·.span = s)).map Diagnostic.code

/-- The column stands in a comment, which runs from a semicolon to the end of the line. -/
def InComment (line : Nat) (raw : List Char) (column : Nat) : Prop :=
  ∃ head body, raw = head ++ ';' :: body ∧ head.length < column ∧
    ∀ k, head.length < k → k ≤ raw.length → ¬ Covered tokens line k

/-- These tokens and errors account for every character of the text. -/
structure Partition (text : List Char) : Prop where
  ended : ∃ body last, tokens = body ++ [⟨.eof, .point (splitLines text).length (last.length + 1)⟩] ∧
    (splitLines text).getLast? = some last ∧ ∀ t ∈ body, t.kind ≠ .eof
  ordered : tokens.Pairwise fun t u => t.span.Before u.span
  proper : ∀ t ∈ tokens, t.span.column ≤ t.span.endColumn
  spelled : ∀ t ∈ tokens, t.kind.endsLine = false → ∃ n before shown after,
    (splitLines text)[n]? = some (before ++ shown ++ after) ∧
      t.span = ⟨n + 1, before.length + 1, before.length + shown.length⟩ ∧
      t.kind.Spelled before shown after (codesAt errors t.span)
  newlines : (tokens.filter fun t => t.kind.isNewline).map Token.span =
    (splitLines text).dropLast.mapIdx fun n raw => .point (n + 1) (raw.length + 1)
  uncovered : ∀ n before c after, (splitLines text)[n]? = some (before ++ c :: after) →
    ¬ Covered tokens (n + 1) (before.length + 1) →
      let quiet := Skipped c ∨ InComment tokens (n + 1) (before ++ c :: after) (before.length + 1)
      let codes := codesAt errors (.point (n + 1) (before.length + 1))
      quiet ∧ codes = [] ∨ ¬ quiet ∧ codes = [100]
  explained : ∀ e ∈ errors, (∃ t ∈ tokens, t.kind.endsLine = false ∧ e.span = t.span) ∨
    ∃ n before c after, (splitLines text)[n]? = some (before ++ c :: after) ∧
      ¬ Covered tokens (n + 1) (before.length + 1) ∧ e.span = .point (n + 1) (before.length + 1)

end Partition

namespace Lexer

section Account

variable {text : List Char}

theorem ordered_textCuts (text : List Char) :
    (textCuts 1 (Text.splitLines text)).Pairwise fun x y => x.span.Before y.span :=
  textCuts_ordered (Text.splitLines_free text)

theorem covered_iff {line column : Nat} :
    Covered (tokens text) line column ↔
      ∃ x ∈ textCuts 1 (Text.splitLines text), x.piece.kind?.isSome ∧ x.span.Covers line column := by
  rw [Covered, (read_textCuts text).1]
  constructor
  · rintro ⟨t, found, covers⟩
    obtain ⟨x, member, given⟩ := List.mem_filterMap.mp found
    obtain ⟨kind, read, rfl⟩ := Option.map_eq_some_iff.mp given
    exact ⟨x, member, by simp [read], covers⟩
  · rintro ⟨x, member, given, covers⟩
    obtain ⟨kind, read⟩ := Option.isSome_iff_exists.mp given
    exact ⟨⟨kind, x.span⟩, List.mem_filterMap.mpr ⟨x, member, by simp [Cut.token?, read]⟩, covers⟩

theorem uncovered_of_none {x : Cut} (member : x ∈ textCuts 1 (Text.splitLines text))
    (none : x.piece.kind? = none) {line column : Nat} (covers : x.span.Covers line column) :
    ¬ Covered (tokens text) line column := by
  intro covered
  obtain ⟨y, other, given, also⟩ := covered_iff.mp covered
  obtain rfl := cut_unique (ordered_textCuts text) member other covers also
  simp [none] at given

theorem Cut.Sound.single {x : Cut} {before after : List Char} {c d : Char}
    (sound : x.Sound (before ++ c :: after)) (single : x.shown = [d]) {line : Nat}
    (covers : x.span.Covers line (before.length + 1)) : x.before = before ∧ d = c := by
  obtain ⟨_, left, right⟩ := covers
  simp only [Cut.span, single, List.length_singleton] at left right
  have split := sound.text
  rw [single, List.append_assoc, List.singleton_append] at split
  obtain ⟨rfl, rest⟩ := List.append_inj split (by omega)
  exact ⟨rfl, (List.cons.inj rest).1.symm⟩

theorem uncovered_cases {n : Nat} {before after : List Char} {c : Char}
    (found : (Text.splitLines text)[n]? = some (before ++ c :: after))
    (bare : ¬ Covered (tokens text) (n + 1) (before.length + 1)) :
    ∃ x ∈ textCuts 1 (Text.splitLines text), x.span.Covers (n + 1) (before.length + 1) ∧
      (x.piece = .blank ∧ Text.Skipped c ∨
        x.piece = .blank ∧ (∃ body, before ++ c :: after = x.before ++ ';' :: body) ∧
          x.span.endColumn = (before ++ c :: after).length ∨
        x.piece = .flawed (.unexpectedCharacter c) none ∧ x.before = before ∧ x.shown = [c] ∧
          ¬ Text.Skipped c ∧ c ≠ ';') := by
  have within : before.length + 1 ≤ (before ++ c :: after).length := by simp
  obtain ⟨x, member, covers⟩ : ∃ x ∈ textCuts 1 (Text.splitLines text),
      x.span.Covers (1 + n) (before.length + 1) := textCuts_cover found (by omega) within
  rw [Nat.add_comm 1 n] at covers
  have none : x.piece.kind? = none := by
    rw [← Option.not_isSome_iff_eq_none]
    exact fun given => bare (covered_iff.mpr ⟨x, member, given, covers⟩)
  obtain ⟨m, raw, own, line, sound | ⟨rfl, _⟩⟩ := textCuts_sound (Text.splitLines_free text) member
  · obtain rfl : m = n := by
      have same : x.line = n + 1 := covers.1
      omega
    obtain rfl := Option.some.inj (own.symm.trans found)
    refine ⟨x, member, covers, ?_⟩
    have text := sound.text
    have fits := sound.fits
    have single : ∀ d, x.shown = [d] → x.before = before ∧ d = c :=
      fun d one => sound.single one covers
    cases x with
    | mk place head shown tail piece =>
      cases sound.shape with
      | blank skipped =>
        obtain ⟨_, rfl⟩ := single _ rfl
        exact .inl ⟨rfl, skipped⟩
      | comment =>
        refine .inr (.inl ⟨rfl, ⟨_, by simpa using text⟩, fits⟩)
      | stray solid code =>
        obtain ⟨same, rfl⟩ := single _ rfl
        exact .inr (.inr ⟨rfl, same, rfl, solid, code⟩)
      | string | openString | args | integer | outOfRange | float | word => cases none
  · cases none

theorem codesAt_located (source : Source) (found : List (Problem × Span)) (s : Span) :
    codesAt (found.map fun (problem, span) => problem.locate source span) s =
      (found.filter fun e => e.2 = s).map fun e => e.1.code := by
  rw [codesAt, List.filter_map, List.map_map]
  rfl

theorem codesAt_cut (source : Source) {x : Cut}
    (member : x ∈ textCuts 1 (Text.splitLines text)) {s : Span}
    (within : x.span.Covers s.line s.column) (proper : s.column ≤ s.endColumn) :
    codesAt ((complaints text).map fun (problem, span) => problem.locate source span) s =
      if x.span = s then x.piece.codes else [] := by
  rw [codesAt_located, (read_textCuts text).2,
    complaints_at (ordered_textCuts text) member within proper]
  split
  · unfold Cut.complaint? Piece.codes
    cases x.piece.problem? <;> rfl
  · rfl

theorem eof_place (text : List Char) :
    ∃ last, (Text.splitLines text).getLast? = some last ∧
      eofAt (scan ⟨1, 1⟩ text).2 =
        ⟨.eof, .point (Text.splitLines text).length (last.length + 1)⟩ := by
  obtain ⟨_, last, final, stop⟩ := scan_text 1 text
  have some := List.length_pos_iff.mpr (Text.splitLines_ne_nil text)
  refine ⟨last, final, ?_⟩
  rw [stop, eofAt, Nat.add_sub_cancel' some]

theorem covered_closed {n column : Nat} {raw : List Char}
    (found : (Text.splitLines text)[n]? = some raw) (within : column ≤ raw.length) :
    Covered (closed text) (n + 1) column ↔ Covered (tokens text) (n + 1) column := by
  obtain ⟨last, final, place⟩ := eof_place text
  constructor
  · rintro ⟨t, member, covers⟩
    rcases List.mem_append.mp member with own | eof
    · exact ⟨t, own, covers⟩
    · rw [place, List.mem_singleton] at eof
      subst eof
      obtain ⟨line, left, _⟩ := covers
      simp only [Span.point] at line left
      rw [List.getLast?_eq_getElem?, line, Nat.add_sub_cancel, found] at final
      cases final
      omega
  · rintro ⟨t, own, covers⟩
    exact ⟨t, List.mem_append_left _ own, covers⟩

theorem tokens_inLine {t : Token} (own : t ∈ tokens text) :
    ∃ x ∈ textCuts 1 (Text.splitLines text), x.piece.kind? = some t.kind ∧ x.span = t.span := by
  rw [(read_textCuts text).1] at own
  obtain ⟨x, member, given⟩ := List.mem_filterMap.mp own
  obtain ⟨kind, read, rfl⟩ := Option.map_eq_some_iff.mp given
  exact ⟨x, member, read, rfl⟩

theorem closed_ordered (text : List Char) :
    (closed text).Pairwise fun t u => t.span.Before u.span := by
  obtain ⟨last, final, place⟩ := eof_place text
  rw [closed, List.pairwise_append]
  refine ⟨?_, List.pairwise_singleton _ _, ?_⟩
  · rw [(read_textCuts text).1, List.pairwise_filterMap]
    refine (ordered_textCuts text).imp ?_
    intro x y before t given u other
    obtain ⟨_, _, rfl⟩ := Option.map_eq_some_iff.mp given
    obtain ⟨_, _, rfl⟩ := Option.map_eq_some_iff.mp other
    exact before
  · intro t own u eof
    rw [List.mem_singleton.mp eof, place]
    obtain ⟨x, member, _, same⟩ := tokens_inLine own
    obtain ⟨n, raw, found, line, sound | ⟨rfl, more⟩⟩ :=
      textCuts_sound (Text.splitLines_free text) member
    · have inside := (List.getElem?_eq_some_iff.mp found).1
      have fits := sound.fits
      rw [← same]
      by_cases earlier : n + 1 < (Text.splitLines text).length
      · exact .inl (by simp only [Cut.span, Span.point]; omega)
      · have end_line : n = (Text.splitLines text).length - 1 := by omega
        rw [List.getLast?_eq_getElem?, ← end_line, found] at final
        cases final
        exact .inr (by simp only [Cut.span, Span.point]; omega)
    · rw [← same]
      exact .inl (by simp only [Cut.span, Cut.lineEnd, Span.point]; omega)

theorem cut_proper {x : Cut} (member : x ∈ textCuts 1 (Text.splitLines text)) :
    x.span.column ≤ x.span.endColumn := by
  have some : 0 < x.shown.length := by
    obtain ⟨_, _, _, _, sound | ⟨rfl, _⟩⟩ := textCuts_sound (Text.splitLines_free text) member
    · exact List.length_pos_iff.mpr sound.shape.ne_nil
    · exact Nat.one_pos
  simp only [Cut.span]
  omega

theorem closed_proper {t : Token} (member : t ∈ closed text) :
    t.span.column ≤ t.span.endColumn := by
  rcases List.mem_append.mp member with own | eof
  · obtain ⟨x, found, _, same⟩ := tokens_inLine own
    rw [← same]
    exact cut_proper found
  · rw [List.mem_singleton.mp eof]
    exact Nat.le_refl _

theorem cut_spelled (source : Source) {x : Cut} {kind : TokenKind}
    (member : x ∈ textCuts 1 (Text.splitLines source.text.toList))
    (read : x.piece.kind? = some kind) (inLine : kind.endsLine = false) :
    ∃ n before shown after,
      (Text.splitLines source.text.toList)[n]? = some (before ++ shown ++ after) ∧
        x.span = ⟨n + 1, before.length + 1, before.length + shown.length⟩ ∧
        kind.Spelled before shown after (codesAt (located source) x.span) := by
  obtain ⟨n, raw, found, line, sound | ⟨rfl, _⟩⟩ :=
    textCuts_sound (Text.splitLines_free source.text.toList) member
  · have some := List.length_pos_iff.mpr sound.shape.ne_nil
    have proper : x.span.column ≤ x.span.endColumn := by
      simp only [Cut.span]
      omega
    have codes := codesAt_cut source member ⟨rfl, Nat.le_refl _, proper⟩ proper
    rw [if_pos rfl] at codes
    refine ⟨n, x.before, x.shown, x.after, found.trans (congrArg _ sound.text), ?_, ?_⟩
    · rw [Cut.span, line, Nat.add_comm 1]
    · rw [located, codes]
      exact sound.shape.spelled sound.start read
  · cases read
    cases inLine

theorem char_uncovered (source : Source) {n : Nat} {before after : List Char} {c : Char}
    (found : (Text.splitLines source.text.toList)[n]? = some (before ++ c :: after))
    (bare : ¬ Covered (closed source.text.toList) (n + 1) (before.length + 1)) :
    let quiet := Text.Skipped c ∨ InComment (closed source.text.toList) (n + 1)
      (before ++ c :: after) (before.length + 1)
    let codes := codesAt (located source) (.point (n + 1) (before.length + 1))
    quiet ∧ codes = [] ∨ ¬ quiet ∧ codes = [100] := by
  intro quiet codes
  have within : before.length + 1 ≤ (before ++ c :: after).length := by simp
  rw [covered_closed found within] at bare
  obtain ⟨x, member, covers, kind⟩ := uncovered_cases found bare
  have own : codes = if x.span = .point (n + 1) (before.length + 1) then x.piece.codes else [] :=
    codesAt_cut source member covers (Nat.le_refl _)
  rcases kind with ⟨blank, skipped⟩ | ⟨blank, ⟨body, text⟩, toEnd⟩ | ⟨stray, rfl, single, solid, code⟩
  · rw [blank] at own
    exact .inl ⟨.inl skipped, own.trans (ite_self _)⟩
  · rw [blank] at own
    refine .inl ⟨.inr ⟨x.before, body, text, covers.2.1, ?_⟩, own.trans (ite_self _)⟩
    intro k past last
    rw [covered_closed found last]
    refine uncovered_of_none member (by rw [blank]; rfl) ⟨covers.1, past, ?_⟩
    rw [toEnd]
    exact last
  · have place : x.span = .point (n + 1) (x.before.length + 1) := by
      rw [Cut.span, single, show x.line = n + 1 from covers.1]
      rfl
    rw [stray, if_pos place] at own
    refine .inr ⟨?_, own⟩
    rintro (skipped | ⟨head, body, text, past, free⟩)
    · exact solid skipped
    · -- A comment that reaches here would be the piece that stands here.
      have start := free (head.length + 1) (Nat.lt_succ_self _) (by simp [text])
      rw [text] at found
      rw [covered_closed found (by simp)] at start
      obtain ⟨y, other, also, kind⟩ := uncovered_cases found start
      rcases kind with ⟨_, skipped⟩ | ⟨blank, _, toEnd⟩ | ⟨_, _, _, _, code⟩
      · exact absurd skipped (by decide)
      · have right := within
        rw [text, ← toEnd] at right
        have left : y.span.column ≤ x.before.length + 1 := Nat.le_trans also.2.1 past
        obtain rfl := cut_unique (ordered_textCuts _) member other covers ⟨also.1, left, right⟩
        rw [stray] at blank
        cases blank
      · exact code rfl

theorem complaint_explained (source : Source) {e : Diagnostic} (given : e ∈ located source) :
    (∃ t ∈ closed source.text.toList, t.kind.endsLine = false ∧ e.span = t.span) ∨
      ∃ n before c after,
        (Text.splitLines source.text.toList)[n]? = some (before ++ c :: after) ∧
          ¬ Covered (closed source.text.toList) (n + 1) (before.length + 1) ∧
          e.span = .point (n + 1) (before.length + 1) := by
  obtain ⟨⟨problem, span⟩, complaint, rfl⟩ := List.mem_map.mp given
  rw [(read_textCuts _).2] at complaint
  obtain ⟨x, member, own⟩ := List.mem_filterMap.mp complaint
  obtain ⟨_, flaw, same⟩ := Option.map_eq_some_iff.mp own
  cases same
  obtain ⟨n, raw, found, line, sound | ⟨rfl, _⟩⟩ :=
    textCuts_sound (Text.splitLines_free source.text.toList) member
  · cases read : x.piece.kind? with
    | some kind =>
      refine .inl ⟨⟨kind, x.span⟩, List.mem_append_left _ ?_, sound.shape.inLine kind read, rfl⟩
      rw [(read_textCuts _).1]
      exact List.mem_filterMap.mpr ⟨x, member, by simp [Cut.token?, read]⟩
    | none =>
      have text := sound.text
      cases x with
      | mk place before shown after piece =>
        cases sound.shape with
        | stray =>
          rw [List.append_assoc, List.singleton_append] at text
          subst text
          have own : place = n + 1 := by
            have same : place = 1 + n := line
            omega
          refine .inr ⟨n, before, _, after, found, ?_, by rw [own]; rfl⟩
          rw [covered_closed found (by simp)]
          exact uncovered_of_none member rfl ⟨own, Nat.le_refl _, Nat.le_refl _⟩
        | blank | comment => cases flaw
        | string | openString | args | integer | outOfRange | float | word => cases read
  · cases flaw

theorem tokens_goOn {t : Token} (own : t ∈ tokens text) : t.kind ≠ .eof := by
  obtain ⟨x, found, given⟩ := List.mem_filterMap.mp own
  exact (scan_tokens ⟨1, 1⟩ text x found t given).1

theorem closed_newlines (text : List Char) :
    ((closed text).filter fun t => t.kind.isNewline).map Token.span =
      (Text.splitLines text).dropLast.mapIdx fun n raw => .point (n + 1) (raw.length + 1) := by
  have own : (((textCuts 1 (Text.splitLines text)).filterMap Cut.token?).filter
      fun t => t.kind.isNewline).map Token.span = _ :=
    textCuts_newlines (Text.splitLines_free text)
  rw [← (read_textCuts text).1] at own
  have last : ([eofAt (scan ⟨1, 1⟩ text).2].filter fun t => t.kind.isNewline) = [] := rfl
  rw [closed, List.filter_append, last, List.append_nil, own]
  simp only [Nat.add_comm 1]

theorem closed_within {t : Token} (member : t ∈ closed text) :
    t.span.line ≤ text.length + 1 ∧ t.span.endColumn ≤ text.length + 1 := by
  obtain ⟨lines, columns⟩ := Text.splitLines_length text
  rcases List.mem_append.mp member with own | eof
  · obtain ⟨x, found, _, same⟩ := tokens_inLine own
    obtain ⟨n, raw, there, line, sound | ⟨rfl, more⟩⟩ :=
      textCuts_sound (Text.splitLines_free text) found
    · have inside := (List.getElem?_eq_some_iff.mp there).1
      have short := columns raw (List.mem_of_getElem? there)
      have fits := sound.fits
      rw [← same]
      simp only [Cut.span]
      omega
    · have short := columns raw (List.mem_of_getElem? there)
      rw [← same]
      simp only [Cut.span, Cut.lineEnd, List.length_singleton]
      omega
  · obtain ⟨last, final, place⟩ := eof_place text
    have short := columns last (List.mem_of_getLast? final)
    rw [List.mem_singleton.mp eof, place]
    simp only [Span.point]
    omega

end Account

/-- The lexer accounts for every character: by a token that is spelled there, as blank, as comment,
or as an error. -/
theorem lex_partitions {source : Source} (short : source.text.length < 4294967295)
    (few : (lex source).2.totalErrors < Diagnostics.cap) :
    Partition (lex source).1 (lex source).2.errors.toList source.text.toList ∧
      (lex source).2.totalErrors = (lex source).2.errors.size ∧
      ∀ t ∈ (lex source).1, t.span.line < 4294967296 ∧ t.span.endColumn < 4294967296 := by
  obtain ⟨all, errors, count⟩ := lex_few few
  rw [all, errors]
  refine ⟨?_, count, ?_⟩
  · obtain ⟨last, final, place⟩ := eof_place source.text.toList
    constructor
    · refine ⟨tokens source.text.toList, last, by rw [closed, place], final, ?_⟩
      exact fun t own => tokens_goOn own
    · exact closed_ordered source.text.toList
    · exact fun t member => closed_proper member
    · intro t member inLine
      rcases List.mem_append.mp member with own | eof
      · obtain ⟨x, found, read, same⟩ := tokens_inLine own
        rw [← same]
        exact cut_spelled source found read inLine
      · rw [List.mem_singleton.mp eof] at inLine
        cases inLine
    · exact closed_newlines source.text.toList
    · intro n before c after found bare
      exact char_uncovered source found bare
    · exact fun e given => complaint_explained source given
  · intro t member
    have within := closed_within member
    rw [String.length_toList] at within
    omega

def awkwardSource : Source :=
  ⟨"main.whl", "é \"ab\r\n-99999999999999999999 ;\"c\n1.5-2#"⟩

theorem awkward_source_partitioned :
    awkwardSource.text.length < 4294967295 ∧ (lex awkwardSource).2.totalErrors = 4 ∧
      (lex awkwardSource).1.length = 7 ∧
      Partition (lex awkwardSource).1 (lex awkwardSource).2.errors.toList
        awkwardSource.text.toList := by
  have short : awkwardSource.text.length < 4294967295 := by decide
  have count : (lex awkwardSource).2.totalErrors = 4 := by with_unfolding_all rfl
  have some : (lex awkwardSource).1.length = 7 := by with_unfolding_all rfl
  exact ⟨short, count, some, (lex_partitions short (by rw [count]; decide)).1⟩

end Lexer
end Wheelwork
