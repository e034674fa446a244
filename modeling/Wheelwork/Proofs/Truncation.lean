import Wheelwork.Proofs.Partition
import Wheelwork.Proofs.Reports

/-!
The cap on errors cuts off and does nothing else. Up to the error that fills the collection the
lexer gives the tokens and the errors that it gives without a cap, and then it ends the text there;
what a load reports is cut in the same way, and there is an error to report exactly if there is one
without the cap.
-/
namespace Wheelwork

theorem Span.Before.asymm {a b : Span} (before : a.Before b) (proper : a.column ≤ a.endColumn)
    (proper' : b.column ≤ b.endColumn) : ¬ b.Before a := by
  intro after
  rcases before with above | ⟨_, left⟩ <;> rcases after with below | ⟨_, right⟩ <;> omega

namespace Lexer

variable {lexemes : List Lexeme} {text : List Char} {n : Nat}

theorem split_at_complaint (many : n < (lexemes.filterMap Lexeme.complaint).length) :
    ∃ before x after, lexemes = before ++ x :: after ∧
      (before.filterMap Lexeme.complaint).length = n ∧ x.complaint.isSome = true := by
  induction lexemes generalizing n with
  | nil => cases many
  | cons y rest ih =>
    cases given : y.complaint with
    | none =>
      rw [List.filterMap_cons_none given] at many
      obtain ⟨before, x, after, rfl, count, wrong⟩ := ih many
      exact ⟨y :: before, x, after, rfl, by rw [List.filterMap_cons_none given, count], wrong⟩
    | some complaint =>
      rw [List.filterMap_cons_some given, List.length_cons] at many
      cases n with
      | zero => exact ⟨[], y, rest, rfl, rfl, by simp [given]⟩
      | succ n =>
        obtain ⟨before, x, after, rfl, count, wrong⟩ := ih (Nat.lt_of_succ_lt_succ many)
        refine ⟨y :: before, x, after, rfl, ?_, wrong⟩
        rw [List.filterMap_cons_some given, List.length_cons, count]

theorem keep_full (stop here : Position)
    (full : n < (lexemes.filterMap Lexeme.complaint).length) :
    ∃ before x after, lexemes = before ++ x :: after ∧
      (before.filterMap Lexeme.complaint).length = n ∧ x.complaint.isSome = true ∧
      (keep stop (n + 1) here lexemes).1 =
        (before ++ [x]).filterMap Lexeme.token ++ [eofAt x.stop] := by
  obtain ⟨before, x, after, rfl, count, wrong⟩ := split_at_complaint full
  refine ⟨before, x, after, rfl, count, wrong, ?_⟩
  -- The complaint of `x` takes the last of the room.
  obtain ⟨place, left, room, kept⟩ := keep_past here (Nat.lt_succ_of_le (Nat.le_of_eq count))
  obtain rfl : left = 0 := by omega
  rw [kept, List.filterMap_append, filterMap_cons_toList, List.filterMap_nil, List.append_nil,
    List.append_assoc]
  simp [keep, wrong]

theorem Cut.stop_of_complaint {x : Cut} {y : Lexeme} (proper : x.span.column ≤ x.span.endColumn)
    (made : x.lexeme? = some y) (wrong : x.complaint?.isSome = true) :
    y.stop = ⟨x.span.line, x.span.endColumn + 1⟩ := by
  have inLine : x.piece ≠ .token .newline := by
    intro newline
    rw [Cut.complaint?, newline] at wrong
    cases wrong
  rw [lexeme_stop inLine made]
  simp only [Cut.span] at proper ⊢
  congr 1
  omega

/-- Up to the complaint that fills the room, the tokens are those of the pieces of the text. -/
theorem cut_full (full : n < (complaints text).length) :
    ∃ before x after problem, textCuts 1 (Text.splitLines text) = before ++ x :: after ∧
      (complaints text)[n]? = some (problem, x.span) ∧
      (lexWithin (some (n + 1)) text).1 = (before ++ [x]).filterMap Cut.token? ++
        [eofAt ⟨x.span.line, x.span.endColumn + 1⟩] := by
  obtain ⟨done, y, rest, split, count, wrong, kept⟩ :=
    keep_full (scan ⟨1, 1⟩ text).2 ⟨1, 1⟩ full
  have lexemes := (scan_text 1 text).1
  rw [split] at lexemes
  -- the lexemes are those of pieces, with blank pieces between them
  obtain ⟨first, second, pieces, early, late⟩ := List.filterMap_eq_append_iff.mp lexemes.symm
  obtain ⟨blank, x, after, rfl, none, made, _⟩ := List.filterMap_eq_cons_iff.mp late
  have done_eq : (first ++ blank).filterMap Cut.lexeme? = done := by
    rw [List.filterMap_append, early, List.filterMap_eq_nil_iff.mpr none, List.append_nil]
  have whole : textCuts 1 (Text.splitLines text) = (first ++ blank) ++ x :: after := by
    rw [pieces, List.append_assoc]
  have member : ∀ z ∈ first ++ blank ++ [x], z ∈ textCuts 1 (Text.splitLines text) := by
    intro z inside
    rw [whole, List.append_cons]
    exact List.mem_append_left after inside
  obtain ⟨token, complaint⟩ := textCuts_parts (member x (by simp))
  rw [made, Option.bind_some] at token complaint
  obtain ⟨flaw, given⟩ := Option.isSome_iff_exists.mp wrong
  obtain ⟨problem, _, rfl⟩ := Option.map_eq_some_iff.mp (complaint.symm.trans given)
  refine ⟨first ++ blank, x, after, problem, whole, ?_, ?_⟩
  · rw [complaints, split, List.filterMap_append, List.filterMap_cons_some given, ← count]
    simp
  · have tokens : (done ++ [y]).filterMap Lexeme.token =
        (first ++ blank ++ [x]).filterMap Cut.token? := by
      have kept : (first ++ blank ++ [x]).filterMap Cut.lexeme? = done ++ [y] := by
        rw [List.filterMap_append, done_eq, List.filterMap_cons_some made, List.filterMap_nil]
      rw [← kept, List.filterMap_filterMap]
      exact List.filterMap_congr fun z inside => (textCuts_parts (member z inside)).1
    have place := Cut.stop_of_complaint (cut_proper (member x (by simp))) made
      (by rw [← complaint, given]; rfl)
    rw [lexWithin_some, kept, tokens, place]

theorem tokens_upTo {before after : List Cut} {x : Cut}
    (split : textCuts 1 (Text.splitLines text) = before ++ x :: after) :
    (before ++ [x]).filterMap Cut.token? <+: tokens text ∧
      ∀ t ∈ tokens text, t ∈ (before ++ [x]).filterMap Cut.token? ↔ ¬ x.span.Before t.span := by
  have whole : tokens text =
      (before ++ [x]).filterMap Cut.token? ++ after.filterMap Cut.token? := by
    rw [(read_textCuts text).1, split, List.append_cons, List.filterMap_append]
  have ordered := ordered_textCuts text
  have proper : ∀ y ∈ before ++ x :: after, y.span.column ≤ y.span.endColumn := by
    intro y member
    exact cut_proper (split ▸ member)
  rw [split, List.pairwise_append, List.pairwise_cons] at ordered
  obtain ⟨_, ⟨later, _⟩, earlier⟩ := ordered
  refine ⟨⟨_, whole.symm⟩, ?_⟩
  intro t own
  rw [whole, List.mem_append] at own
  constructor
  · intro kept
    obtain ⟨y, member, given⟩ := List.mem_filterMap.mp kept
    obtain ⟨kind, _, rfl⟩ := Option.map_eq_some_iff.mp given
    rcases List.mem_append.mp member with old | last
    · have first := earlier y old x List.mem_cons_self
      exact first.asymm (proper y (by simp [old])) (proper x (by simp))
    · obtain rfl := List.mem_singleton.mp last
      have wide := proper y (by simp)
      rintro (above | ⟨_, left⟩)
      · exact Nat.lt_irrefl _ above
      · exact Nat.not_lt.mpr wide left
  · intro upTo
    rcases own with kept | dropped
    · exact kept
    · obtain ⟨y, member, given⟩ := List.mem_filterMap.mp dropped
      obtain ⟨kind, _, rfl⟩ := Option.map_eq_some_iff.mp given
      exact absurd (later y member) upTo

theorem lex_tokens (source : Source) :
    ∃ kept place, (lex source).1 = kept ++ [⟨.eof, place⟩] ∧
      kept <+: tokens source.text.toList ∧
      ∀ e, (located source)[Diagnostics.cap - 1]? = some e →
        place = .point e.span.line (e.span.endColumn + 1) ∧
        ∀ t ∈ tokens source.text.toList, t ∈ kept ↔ ¬ e.span.Before t.span := by
  by_cases full : Diagnostics.cap - 1 < (complaints source.text.toList).length
  · obtain ⟨before, x, after, problem, split, last, kept⟩ := cut_full full
    obtain ⟨ahead, upTo⟩ := tokens_upTo split
    refine ⟨_, _, kept, ahead, ?_⟩
    intro e filling
    rw [located, List.getElem?_map, last, Option.map_some] at filling
    cases filling
    exact ⟨rfl, upTo⟩
  · have few : (complaints source.text.toList).length < Diagnostics.cap :=
      Nat.lt_succ_of_le (Nat.not_lt.mp full)
    have all : (lex source).1 = closed source.text.toList :=
      congrArg Prod.fst (lexWithin_few few)
    refine ⟨_, _, all, List.prefix_rfl, ?_⟩
    intro e filling
    have inside := (List.getElem?_eq_some_iff.mp filling).1
    rw [located, List.length_map] at inside
    exact absurd inside full

end Lexer

namespace Assembly

variable (source : Source)

def addAll (rs : List Row) : State :=
  rs.foldl (fun s r => add source s r.read) {}

theorem add_totalErrors (s : State) (r : Row) :
    (add source s r.read).diagnostics.totalErrors =
      s.diagnostics.totalErrors + r.complaint?.toList.length := by
  unfold add Row.read Row.complaint?
  cases r.reading with
  | error complaint => rfl
  | ok i =>
    simp only [Option.toList_none, List.length_nil, Nat.add_zero]
    split
    · unfold noteDefinition
      simp only
      split <;> rfl
    · rfl

theorem addAll_totalErrors (rs : List Row) :
    (addAll source rs).diagnostics.totalErrors = (complaints rs).length := by
  have counted : ∀ s : State,
      (rs.foldl (fun s r => add source s r.read) s).diagnostics.totalErrors =
        s.diagnostics.totalErrors + (complaints rs).length := by
    induction rs with
    | nil =>
      intro s
      rfl
    | cons r rs ih =>
      intro s
      have more : complaints (r :: rs) = r.complaint?.toList ++ complaints rs :=
        Lexer.filterMap_cons_toList _ r rs
      rw [List.foldl_cons, ih, add_totalErrors, more, List.length_append]
      omega
  exact (counted {}).trans (Nat.zero_add _)

end Assembly

namespace Load

open Assembly

variable (source : Source)

theorem totalErrors_le : (load source).diagnostics.totalErrors ≤ Diagnostics.cap := by
  by_cases quiet : Lexer.complaints source.text.toList = []
  · rw [load_quiet quiet, Diagnostics.extend_totalErrors]
    · simp only [report, errors_length, Diagnostics.empty]
      omega
    · simp only [Diagnostics.Capped, report, errors_length, List.size_toArray]
      omega
  · have wrong := (Lexer.lex_hasErrors source).mpr quiet
    have count := (Lexer.lex_errors source).2
    simp only [load, wrong, ↓reduceIte, count]
    omega

theorem totalErrors_zero : (load source).diagnostics.totalErrors = 0 ↔
    Lexer.located source = [] ∧
      (addAll source (rows (Lexer.tokens source.text.toList))).diagnostics.totalErrors = 0 := by
  have free : (load source).diagnostics.totalErrors = 0 ↔ flaws source.text.toList = [] := by
    have none := program_none source
    rw [program_eq, Diagnostics.hasErrors, decide_eq_true_eq] at none
    by_cases sound : flaws source.text.toList = []
    · simpa [sound] using none
    · simpa [sound, Nat.pos_iff_ne_zero] using none
  rw [free, addAll_totalErrors, List.length_eq_zero_iff, Lexer.located, List.map_eq_nil_iff, flaws,
    List.append_eq_nil_iff]

end Load

open Lexer in
/-- With the cap the lexer reports the first errors that it reports without one, and its tokens are
those that it gives without one up to the error that fills the collection, closed by one end token
there. A load counts exactly the errors that it keeps, and none only if there are none at all. -/
theorem cap_truncates (source : Source) :
    let uncapped := lexWithin none source.text.toList
    let errors := uncapped.2.map fun (problem, span) => problem.locate source span
    (lex source).2.errors.toList = errors.take Diagnostics.cap ∧
    (lex source).2.totalErrors = min Diagnostics.cap errors.length ∧
    (∃ kept dropped place stop, (lex source).1 = kept ++ [⟨.eof, place⟩] ∧
      uncapped.1 = kept ++ dropped ++ [⟨.eof, stop⟩] ∧ (∀ t ∈ kept ++ dropped, t.kind ≠ .eof) ∧
      ∀ e, errors[Diagnostics.cap - 1]? = some e →
        place = .point e.span.line (e.span.endColumn + 1) ∧
        ∀ t ∈ kept ++ dropped, t ∈ kept ↔ ¬ e.span.Before t.span) ∧
    (errors.length < Diagnostics.cap → (lex source).1 = uncapped.1) ∧
    (∀ cap, errors.length < cap → lexWithin (some cap) source.text.toList = uncapped) ∧
    (load source).diagnostics.totalErrors = (load source).diagnostics.errors.size ∧
    (load source).diagnostics.totalErrors ≤ Diagnostics.cap ∧
    ((load source).diagnostics.totalErrors = 0 ↔ errors = [] ∧
      (Assembly.addAll source (Assembly.rows uncapped.1.dropLast)).diagnostics.totalErrors = 0) := by
  intro uncapped errors
  have whole : uncapped = (closed source.text.toList, complaints source.text.toList) :=
    lexWithin_none source.text.toList
  have all : errors = located source := by
    simp only [errors, whole]
    rfl
  have ended : uncapped.1.dropLast = tokens source.text.toList := by
    rw [whole]
    exact List.dropLast_concat
  have loose : ∀ cap, errors.length < cap → lexWithin (some cap) source.text.toList = uncapped := by
    intro cap few
    rw [all, located, List.length_map] at few
    rw [whole, lexWithin_few few]
  rw [ended]
  rw [all] at loose ⊢
  obtain ⟨kept, place, closes, ⟨dropped, split⟩, upTo⟩ := lex_tokens source
  rw [← split] at upTo
  have goOn : ∀ t ∈ kept ++ dropped, t.kind ≠ .eof := by
    rw [split]
    exact fun t own => tokens_goOn own
  have full : uncapped.1 = kept ++ dropped ++ [eofAt (scan ⟨1, 1⟩ source.text.toList).2] := by
    rw [whole, split]
    rfl
  have bound := Load.totalErrors_le source
  have capped := Load.capped source
  rw [Diagnostics.Capped, Nat.min_eq_right bound] at capped
  exact ⟨(lex_errors source).1, (lex_errors source).2,
    ⟨kept, dropped, place, _, closes, full, goOn, upTo⟩,
    fun few => congrArg Prod.fst (loose Diagnostics.cap few), loose, capped.symm, bound,
    Load.totalErrors_zero source⟩

def flooded : Source :=
  ⟨"main.whl", "###################NEWV \"a\n# \"b"⟩

open Lexer in
theorem flooded_truncated :
    (lexWithin none flooded.text.toList).2.length = 22 ∧ (lex flooded).2.totalErrors = 20 ∧
      (load flooded).diagnostics.totalErrors = (load flooded).diagnostics.errors.size ∧
      (load flooded).diagnostics.totalErrors ≠ 0 ∧
      ∃ kept place, (lex flooded).1 = kept ++ [⟨.eof, place⟩] ∧ place = .point 1 27 ∧
        ⟨.string "a", ⟨1, 25, 26⟩⟩ ∈ kept ∧ ⟨.newline, .point 1 27⟩ ∉ kept := by
  have all : (lexWithin none flooded.text.toList).1 = [⟨.word "NEWV", ⟨1, 20, 23⟩⟩,
      ⟨.string "a", ⟨1, 25, 26⟩⟩, ⟨.newline, .point 1 27⟩, ⟨.string "b", ⟨2, 3, 4⟩⟩] ++
        [⟨.eof, .point 2 5⟩] := by
    with_unfolding_all rfl
  have length : (lexWithin none flooded.text.toList).2.length = 22 := by with_unfolding_all rfl
  have last : (lexWithin none flooded.text.toList).2[19]?.map Prod.snd = some ⟨1, 25, 26⟩ := by
    with_unfolding_all rfl
  obtain ⟨⟨problem, _⟩, filling, rfl⟩ := Option.map_eq_some_iff.mp last
  obtain ⟨_, count, ⟨kept, dropped, place, stop, ended, split, _, upTo⟩, _, _, size, _, free⟩ :=
    cap_truncates flooded
  have own : kept ++ dropped = _ := List.append_inj_left' (split.symm.trans all) rfl
  obtain ⟨after, member⟩ := upTo (problem.locate flooded ⟨1, 25, 26⟩) (by
    rw [List.getElem?_map]
    exact congrArg _ filling)
  rw [List.length_map, length] at count
  rw [own] at member
  refine ⟨length, count, size, ?_, kept, place, ended, after, ?_, ?_⟩
  · intro none
    have empty := List.map_eq_nil_iff.mp (free.mp none).1
    rw [empty] at length
    cases length
  · refine (member _ (by simp)).mpr ?_
    simp [Problem.locate, Span.Before]
  · intro kept
    exact (member _ (by simp)).mp kept (by simp [Problem.locate, Span.Before, Span.point])

end Wheelwork
