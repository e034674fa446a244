import Mathlib.Tactic.SplitIfs
import Wheelwork.Token.Lexer

/-!
The lexer seen from the pieces of the text. `scan` cuts the whole text, whatever is wrong with it,
and `keep` stops at the complaint that fills the room. The lexer goes from token to token, looks at
its cap before each of them and after each stray character, and closes what it has with an end token
if there is none; that comes to the same.
-/
namespace Wheelwork.Lexer

def scan (start : Position) : List Char → List Lexeme × Position
  | [] => ([], start)
  | c :: rest =>
    let (count, piece) := piece c rest
    match lexeme? start count piece with
    | none => scan ⟨start.line, start.column + count + 1⟩ (rest.drop count)
    | some lexeme =>
      let (lexemes, stop) := scan lexeme.stop (rest.drop count)
      (lexeme :: lexemes, stop)
termination_by cs => cs.length
decreasing_by all_goals simp only [List.length_cons, List.length_drop]; omega

/-- Tokens and complaints up to the complaint that fills the room, closed by an end token. -/
def keep (stop : Position) :
    (room : Nat) → Position → List Lexeme → List Token × List (Problem × Span)
  | 0, here, _ => ([eofAt here], [])
  | _ + 1, _, [] => ([eofAt stop], [])
  | room + 1, _, lexeme :: rest =>
    let left := if lexeme.complaint.isSome then room else room + 1
    let (tokens, complaints) := keep stop left lexeme.stop rest
    (lexeme.token.toList ++ tokens, lexeme.complaint.toList ++ complaints)

theorem scan_blank {start : Position} {c : Char} {rest : List Char} {count : Nat}
    (cut : piece c rest = (count, .blank)) :
    scan start (c :: rest) = scan ⟨start.line, start.column + count + 1⟩ (rest.drop count) := by
  rw [scan]
  simp [cut, lexeme?]

theorem scan_lexeme {start : Position} {c : Char} {rest : List Char} {count : Nat} {p : Piece}
    {x : Lexeme} (cut : piece c rest = (count, p)) (made : lexeme? start count p = some x) :
    scan start (c :: rest) =
      (x :: (scan x.stop (rest.drop count)).1, (scan x.stop (rest.drop count)).2) := by
  rw [scan]
  simp [cut, made]

def Piece.kind? : Piece → Option TokenKind
  | .blank => none
  | .token kind => some kind
  | .flawed _ kind => kind

def Piece.problem? : Piece → Option Problem
  | .flawed problem _ => some problem
  | .blank | .token _ => none

theorem number_kind (negative : Bool) (cs : List Char) :
    ∀ kind ∈ (number negative cs).2.kind?, kind.endsLine = false := by
  intro kind given
  unfold number at given
  simp only at given
  split at given
  · simp only at given
    split at given <;> cases given <;> rfl
  · cases given
    rfl

theorem string_kind (cs : List Char) : ∀ kind ∈ (string cs).2.kind?, kind.endsLine = false := by
  intro kind given
  unfold string at given
  simp only at given
  split at given <;> cases given <;> rfl

theorem piece_kind {c : Char} (inLine : c ≠ '\n') (cs : List Char) :
    ∀ kind ∈ (piece c cs).2.kind?, kind.endsLine = false := by
  unfold piece
  simp only [inLine, ↓reduceIte]
  split_ifs
  · simp [Piece.kind?]
  · simp [Piece.kind?]
  · exact string_kind cs
  · simp [Piece.kind?, TokenKind.endsLine]
  · exact number_kind false (c :: cs)
  · exact number_kind true cs
  · simp [Piece.kind?, TokenKind.endsLine]
  · simp [Piece.kind?]

section Lexemes

variable {start : Position} {c : Char} {cs : List Char} {count : Nat} {p : Piece} {x : Lexeme}

theorem blank_of_none (made : lexeme? start count p = none) : p = .blank := by
  cases p with
  | blank => rfl
  | token kind => cases kind <;> simp [lexeme?] at made
  | flawed problem kind => simp [lexeme?] at made

theorem lexeme_kind (made : lexeme? start count p = some x) {t : Token} (given : x.token = some t) :
    p.kind? = some t.kind := by
  cases p with
  | blank => cases made
  | token kind =>
    cases kind <;> cases made <;> cases given <;> rfl
  | flawed problem kind =>
    cases made
    obtain ⟨kind, rfl, rfl⟩ := Option.map_eq_some_iff.mp given
    rfl

theorem lexeme_goesOn (cut : piece c cs = (count, p)) (made : lexeme? start count p = some x)
    {t : Token} (given : x.token = some t) : t.kind.isEof = false := by
  have kind := lexeme_kind made given
  by_cases newline : c = '\n'
  · subst newline
    cases cut
    rw [← Option.some.inj kind]
    rfl
  · have inner := piece_kind newline cs t.kind (by rw [cut]; exact kind)
    cases same : t.kind with
    | eof => simp [same, TokenKind.endsLine] at inner
    | word | integer | float | string | args | newline => rfl

end Lexemes

theorem close_cons {t : Token} (goesOn : t.kind.isEof = false) (tokens : List Token) (r : Reader) :
    close (t :: tokens) r = t :: close tokens r := by
  unfold close
  cases tokens with
  | nil => simp [goesOn]
  | cons next tokens =>
    rw [List.getLast?_cons_cons]
    split <;> rfl

section Readers

variable {cap : Option Nat} {r r' : Reader}

theorem lexFrom_full (full : r.isFull cap = true) :
    lexFrom cap r = ([eofAt r.place], r.complaints.toList) := by
  rw [lexFrom, tokensFrom, if_pos full]
  rfl

theorem lexFrom_next (going : r.isFull cap = false) :
    lexFrom cap r =
      if (next cap r).1.kind.isEof then ([(next cap r).1], (next cap r).2.complaints.toList)
      else ((next cap r).1 :: (lexFrom cap (next cap r).2).1, (lexFrom cap (next cap r).2).2) := by
  rw [lexFrom, tokensFrom, if_neg (by simp [going])]
  simp only
  split
  · rename_i ended
    simp [close, ended]
  · rename_i goesOn
    simp only [close_cons (by simpa using goesOn), lexFrom]

theorem lexFrom_eof {place : Position} (going : r.isFull cap = false)
    (found : next cap r = (eofAt place, r')) :
    lexFrom cap r = ([eofAt place], r'.complaints.toList) := by
  rw [lexFrom_next going, found]
  rfl

theorem lexFrom_token {t : Token} (going : r.isFull cap = false) (found : next cap r = (t, r'))
    (goesOn : t.kind.isEof = false) :
    lexFrom cap r = (t :: (lexFrom cap r').1, (lexFrom cap r').2) := by
  rw [lexFrom_next going, found]
  simp only [goesOn, Bool.false_eq_true, ↓reduceIte]

theorem lexFrom_congr (going : r.isFull cap = false) (going' : r'.isFull cap = false)
    (same : next cap r = next cap r') : lexFrom cap r = lexFrom cap r' := by
  rw [lexFrom_next going, lexFrom_next going', same]

variable {place : Position} {c : Char} {rest : List Char} {count : Nat} {p : Piece} {x : Lexeme}
  {complaints : Array (Problem × Span)}

theorem lexFrom_end (going : Reader.isFull cap ⟨[], place, complaints⟩ = false) :
    lexFrom cap ⟨[], place, complaints⟩ = ([eofAt place], complaints.toList) := by
  have found : next cap ⟨[], place, complaints⟩ = (eofAt place, ⟨[], place, complaints⟩) := by
    rw [next]
  exact lexFrom_eof going found

theorem lexFrom_blank (cut : piece c rest = (count, .blank))
    (going : Reader.isFull cap ⟨c :: rest, place, complaints⟩ = false) :
    lexFrom cap ⟨c :: rest, place, complaints⟩ =
      lexFrom cap ⟨rest.drop count, ⟨place.line, place.column + count + 1⟩, complaints⟩ := by
  have same : next cap ⟨c :: rest, place, complaints⟩ =
      next cap ⟨rest.drop count, ⟨place.line, place.column + count + 1⟩, complaints⟩ := by
    rw [next]
    simp only [cut, lexeme?]
  exact lexFrom_congr going going same

theorem past_complaints (r : Reader) (x : Lexeme) (rest : List Char) :
    (r.past x rest).complaints.toList = r.complaints.toList ++ x.complaint.toList := by
  unfold Reader.past
  cases x.complaint <;> simp

/-- A lexeme gives its token if it has one. A stray character gives none: the search goes on, or it
ends with the token that closes the text where the room is used up. -/
theorem lexFrom_lexeme (cut : piece c rest = (count, p)) (made : lexeme? place count p = some x)
    (going : Reader.isFull cap ⟨c :: rest, place, complaints⟩ = false) :
    let later := lexFrom cap (Reader.past ⟨c :: rest, place, complaints⟩ x (rest.drop count))
    lexFrom cap ⟨c :: rest, place, complaints⟩ = (x.token.toList ++ later.1, later.2) := by
  intro later
  have search := next.eq_2 cap c rest place complaints
  simp only [cut, made] at search
  cases given : x.token with
  | some t =>
    simp only [given] at search
    exact lexFrom_token going search (lexeme_goesOn cut made given)
  | none =>
    simp only [given] at search
    split at search
    · rename_i full
      rw [lexFrom_eof going search]
      exact (lexFrom_full full).symm
    · rename_i room
      exact lexFrom_congr going (by simpa using room) search

/-- So many complaints more can be made, as far as the text gives cause for them. -/
def Room (cap : Option Nat) (r : Reader) (room : Nat) : Prop :=
  ∀ k ≤ (scan r.place r.rest).1.length, cap.any (· ≤ r.complaints.size + k) = true ↔ room ≤ k

theorem Room.isFull {room : Nat} (left : Room cap r room) : r.isFull cap = true ↔ room = 0 := by
  rw [← Nat.le_zero]
  exact left 0 (Nat.zero_le _)

theorem Room.going {room : Nat} (left : Room cap r (room + 1)) : r.isFull cap = false := by
  simpa using left.isFull

theorem Room.blank {room : Nat} (cut : piece c rest = (count, .blank))
    (left : Room cap ⟨c :: rest, place, complaints⟩ room) :
    Room cap ⟨rest.drop count, ⟨place.line, place.column + count + 1⟩, complaints⟩ room := by
  intro k inside
  apply left k
  rw [scan_blank cut]
  exact inside

theorem Room.past {room : Nat} (cut : piece c rest = (count, p))
    (made : lexeme? place count p = some x)
    (left : Room cap ⟨c :: rest, place, complaints⟩ (room + 1)) :
    Room cap (Reader.past ⟨c :: rest, place, complaints⟩ x (rest.drop count))
      (if x.complaint.isSome then room else room + 1) := by
  intro k inside
  have bound : k + 1 ≤ (scan place (c :: rest)).1.length := by
    rw [scan_lexeme cut made]
    exact Nat.succ_le_succ inside
  cases given : x.complaint with
  | none =>
    have before := left k (Nat.le_of_succ_le bound)
    simpa [Reader.past, given] using before
  | some complaint =>
    have before := left (k + 1) bound
    simpa [Reader.past, given, Nat.add_assoc, Nat.add_comm 1 k] using before

/-- From token to token the lexer gives what stands up to the complaint that fills the room. -/
theorem lexFrom_keep {room : Nat} (left : Room cap ⟨rest, place, complaints⟩ room) :
    let kept := keep (scan place rest).2 room place (scan place rest).1
    lexFrom cap ⟨rest, place, complaints⟩ = (kept.1, complaints.toList ++ kept.2) := by
  -- Along the scan. A room of zero is what the test before a token and the one after a stray
  -- character find; `keep` does not look at the place as long as there is room.
  fun_induction scan place rest generalizing complaints room with
  | case1 place =>
    cases room with
    | zero => simp [lexFrom_full (left.isFull.mpr rfl), keep]
    | succ room => simp [lexFrom_end left.going, keep]
  | case2 place c rest count p cut blank ih =>
    obtain rfl := blank_of_none blank
    cases room with
    | zero => simp [lexFrom_full (left.isFull.mpr rfl), keep]
    | succ room =>
      rw [lexFrom_blank cut left.going, ih (left.blank cut)]
      cases (scan ⟨place.line, place.column + count + 1⟩ (rest.drop count)).1 <;> rfl
  | case3 place c rest count p cut x made lexemes stop scanned ih =>
    cases room with
    | zero => simp [lexFrom_full (left.isFull.mpr rfl), keep]
    | succ room =>
      let r := Reader.past ⟨c :: rest, place, complaints⟩ x (rest.drop count)
      let kept := keep stop (if x.complaint.isSome then room else room + 1) x.stop lexemes
      have later : lexFrom cap r = (kept.1, r.complaints.toList ++ kept.2) := by
        have read := ih (left.past cut made)
        rw [scanned] at read
        exact read
      have told : r.complaints.toList = complaints.toList ++ x.complaint.toList :=
        past_complaints _ x _
      rw [lexFrom_lexeme cut made left.going, later, told, List.append_assoc]
      rfl

end Readers

theorem filterMap_cons_toList {α β : Type} (f : α → Option β) (a : α) (as : List α) :
    (a :: as).filterMap f = (f a).toList ++ as.filterMap f := by
  cases given : f a with
  | none => rw [List.filterMap_cons_none given, Option.toList_none, List.nil_append]
  | some b => rw [List.filterMap_cons_some given, Option.toList_some, List.singleton_append]

section Kept

variable {stop : Position} {lexemes : List Lexeme} {room : Nat} {here : Position}

theorem keep_take :
    (keep stop room here lexemes).2 = (lexemes.filterMap Lexeme.complaint).take room := by
  induction lexemes generalizing room here with
  | nil => cases room <;> simp [keep]
  | cons x lexemes ih =>
    cases room with
    | zero => simp [keep]
    | succ room =>
      cases given : x.complaint with
      | none => simp [keep, given, ih]
      | some complaint => simp [keep, given, ih]

/-- As long as there is room, lexemes are kept one by one. -/
theorem keep_past (here : Position) {before rest : List Lexeme}
    (reached : (before.filterMap Lexeme.complaint).length < room) :
    ∃ place left, left + 1 + (before.filterMap Lexeme.complaint).length = room ∧
      (keep stop room here (before ++ rest)).1 =
        before.filterMap Lexeme.token ++ (keep stop (left + 1) place rest).1 := by
  induction before generalizing room here with
  | nil =>
    obtain ⟨left, rfl⟩ := Nat.exists_eq_add_of_lt reached
    exact ⟨here, left, by simp, by simp⟩
  | cons x before ih =>
    cases room with
    | zero => cases reached
    | succ room =>
      rw [filterMap_cons_toList Lexeme.token]
      cases given : x.complaint with
      | none =>
        rw [List.filterMap_cons_none given] at reached ⊢
        obtain ⟨place, left, count, kept⟩ := ih x.stop reached
        refine ⟨place, left, count, ?_⟩
        rw [List.append_assoc, ← kept]
        simp [keep, given]
      | some complaint =>
        rw [List.filterMap_cons_some given, List.length_cons] at reached ⊢
        obtain ⟨place, left, count, kept⟩ := ih x.stop (Nat.lt_of_succ_lt_succ reached)
        refine ⟨place, left, congrArg Nat.succ count, ?_⟩
        rw [List.append_assoc, ← kept]
        simp [keep, given]

theorem keep_all (few : (lexemes.filterMap Lexeme.complaint).length < room) :
    (keep stop room here lexemes).1 = lexemes.filterMap Lexeme.token ++ [eofAt stop] := by
  obtain ⟨place, left, _, kept⟩ := keep_past here few
  rw [List.append_nil] at kept
  exact kept

end Kept

section Texts

variable {text : List Char}

def tokens (text : List Char) : List Token := (scan ⟨1, 1⟩ text).1.filterMap Lexeme.token

def complaints (text : List Char) : List (Problem × Span) :=
  (scan ⟨1, 1⟩ text).1.filterMap Lexeme.complaint

def closed (text : List Char) : List Token := tokens text ++ [eofAt (scan ⟨1, 1⟩ text).2]

theorem lexWithin_some (cap : Nat) (text : List Char) :
    lexWithin (some cap) text =
      keep (scan ⟨1, 1⟩ text).2 cap ⟨1, 1⟩ (scan ⟨1, 1⟩ text).1 := by
  have left : Room (some cap) { rest := text } cap := by
    intro k _
    simp
  exact lexFrom_keep left

theorem lexWithin_complaints (cap : Nat) (text : List Char) :
    (lexWithin (some cap) text).2 = (complaints text).take cap := by
  rw [lexWithin_some, keep_take]
  rfl

theorem lexWithin_few {cap : Nat} (few : (complaints text).length < cap) :
    lexWithin (some cap) text = (closed text, complaints text) := by
  apply Prod.ext
  · rw [lexWithin_some, keep_all few]
    rfl
  · rw [lexWithin_complaints, List.take_of_length_le (Nat.le_of_lt few)]

theorem lexWithin_none (text : List Char) : lexWithin none text = (closed text, complaints text) := by
  -- There is more room than there are lexemes.
  let room := (scan ⟨1, 1⟩ text).1.length + 1
  have left : Room none { rest := text } room := by
    intro k inside
    have beyond : ¬ room ≤ k := Nat.not_le.mpr (Nat.lt_succ_of_le inside)
    simp [beyond]
  have few : (complaints text).length < room := Nat.lt_succ_of_le (List.length_filterMap_le _ _)
  have read : lexWithin none text = _ := lexFrom_keep left
  have capped := lexWithin_some room text
  rw [lexWithin_few few] at capped
  rw [read, capped]
  rfl

end Texts

end Wheelwork.Lexer
