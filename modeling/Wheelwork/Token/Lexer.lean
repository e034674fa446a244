import Wheelwork.Problem
import Wheelwork.Text.Integer
import Wheelwork.Token.Basic

/-!
Source text cut into tokens.

A stray character is complained about and passed over; other complaints come with a token. Once the
complaints are as many as the cap allows, the text ends where the last of them stands.
-/
namespace Wheelwork

structure Position where
  line : Nat
  column : Nat
  deriving DecidableEq, Repr

namespace Lexer

inductive Piece where
  | blank
  | token (kind : TokenKind)
  | flawed (problem : Problem) (kind : Option TokenKind)

def isWordChar (c : Char) : Bool := c.isAlphanum || c == '_'

def startsWithDigit : List Char → Bool
  | c :: _ => c.isDigit
  | [] => false

def fractionDigits : List Char → List Char
  | '.' :: cs => cs.takeWhile Char.isDigit
  | _ => []

def number (negative : Bool) (cs : List Char) : Nat × Piece :=
  let whole := cs.takeWhile Char.isDigit
  let fraction := fractionDigits (cs.dropWhile Char.isDigit)
  if fraction.isEmpty then
    let magnitude : Int := (Nat.ofDigitChars 10 whole 0 : Nat)
    let sign := if negative then ['-'] else []
    (whole.length,
      match Text.toInt64? (if negative then -magnitude else magnitude) with
      | some n => .token (.integer n)
      | none => .flawed (.integerOutOfRange (String.ofList (sign ++ whole))) (some (.integer 0)))
  else
    let numeral : Numeral := ⟨negative, Nat.ofDigitChars 10 whole 0, fraction, none⟩
    (whole.length + 1 + fraction.length, .token (.float numeral.toFloat))

def string (cs : List Char) : Nat × Piece :=
  let inside := fun c => c != '"' && c != '\n'
  let body := cs.takeWhile inside
  let kind := TokenKind.string (String.ofList body)
  match cs.dropWhile inside with
  | '"' :: _ => (body.length + 1, .token kind)
  | _ => (body.length, .flawed .unterminatedString (some kind))

def piece (c : Char) (rest : List Char) : Nat × Piece :=
  if c = ' ' ∨ c = '\t' ∨ c = '\r' then (0, .blank)
  else if c = ';' then ((rest.takeWhile (· != '\n')).length, .blank)
  else if c = '\n' then (0, .token .newline)
  else if c = '"' then string rest
  else if c = '%' then (0, .token .args)
  else if c.isDigit then
    let (count, piece) := number false (c :: rest)
    (count - 1, piece)
  else if c = '-' ∧ startsWithDigit rest then number true rest
  else if c.isAlpha then
    let tail := rest.takeWhile isWordChar
    (tail.length, .token (.word (String.ofList (c :: tail))))
  else (0, .flawed (.unexpectedCharacter c) none)

structure Lexeme where
  token : Option Token
  complaint : Option (Problem × Span)
  /-- The place after the piece. -/
  stop : Position

def lexeme? (start : Position) (count : Nat) : Piece → Option Lexeme
  | .blank => none
  | .token .newline =>
    some ⟨some ⟨.newline, .point start.line start.column⟩, none, ⟨start.line + 1, 1⟩⟩
  | .token kind =>
    let span := ⟨start.line, start.column, start.column + count⟩
    some ⟨some ⟨kind, span⟩, none, ⟨start.line, start.column + count + 1⟩⟩
  | .flawed problem kind =>
    let span := ⟨start.line, start.column, start.column + count⟩
    some ⟨kind.map (⟨·, span⟩), some (problem, span), ⟨start.line, start.column + count + 1⟩⟩

def eofAt (p : Position) : Token := ⟨.eof, .point p.line p.column⟩

structure Reader where
  rest : List Char
  place : Position := ⟨1, 1⟩
  complaints : Array (Problem × Span) := #[]

namespace Reader

def isFull (cap : Option Nat) (r : Reader) : Bool := cap.any (· ≤ r.complaints.size)

def past (r : Reader) (x : Lexeme) (rest : List Char) : Reader where
  rest := rest
  place := x.stop
  complaints := match x.complaint with
    | some complaint => r.complaints.push complaint
    | none => r.complaints

end Reader

/-- The next token. After a stray character the search goes on, unless there is no room for another
complaint. -/
def next (cap : Option Nat) : Reader → Token × Reader
  | ⟨[], place, complaints⟩ => (eofAt place, ⟨[], place, complaints⟩)
  | ⟨c :: rest, place, complaints⟩ =>
    let (count, piece) := piece c rest
    match lexeme? place count piece with
    | none => next cap ⟨rest.drop count, ⟨place.line, place.column + count + 1⟩, complaints⟩
    | some x =>
      let r := Reader.past ⟨c :: rest, place, complaints⟩ x (rest.drop count)
      match x.token with
      | some token => (token, r)
      | none => if r.isFull cap then (eofAt r.place, r) else next cap r
termination_by r => r.rest.length
decreasing_by all_goals simp +zetaDelta only [Reader.past, List.length_cons, List.length_drop]; omega

theorem next_shorter {cap : Option Nat} {r : Reader} (goesOn : (next cap r).1.kind.isEof = false) :
    (next cap r).2.rest.length < r.rest.length := by
  fun_induction next cap r with
  | case1 place complaints => cases goesOn
  | case2 place complaints c rest count p cut blank ih =>
    have shorter := ih goesOn
    simp only [List.length_cons, List.length_drop] at shorter ⊢
    omega
  | case3 place complaints c rest count p cut x made r token given =>
    simp only [r, Reader.past, List.length_cons, List.length_drop]
    omega
  | case4 => cases goesOn
  | case5 place complaints c rest count p cut x made r stray room ih =>
    have shorter := ih goesOn
    simp only [r, Reader.past, List.length_cons, List.length_drop] at shorter ⊢
    omega

/-- Token after token, until the text ends or there is no room for another complaint. -/
def tokensFrom (cap : Option Nat) (r : Reader) : List Token × Reader :=
  if r.isFull cap then ([], r)
  else
    let found := next cap r
    if found.1.kind.isEof then ([found.1], found.2)
    else
      let (tokens, r) := tokensFrom cap found.2
      (found.1 :: tokens, r)
termination_by r.rest.length
decreasing_by
  rename_i goesOn
  exact next_shorter (by simpa using goesOn)

/-- An end token is put at the place reached, unless the last token is one. -/
def close (tokens : List Token) (r : Reader) : List Token :=
  if tokens.getLast?.any (·.kind.isEof) then tokens else tokens ++ [eofAt r.place]

def lexFrom (cap : Option Nat) (r : Reader) : List Token × List (Problem × Span) :=
  let (tokens, r) := tokensFrom cap r
  (close tokens r, r.complaints.toList)

def lexWithin (cap : Option Nat) (text : List Char) : List Token × List (Problem × Span) :=
  lexFrom cap { rest := text }

def lex (source : Source) : List Token × Diagnostics :=
  let (tokens, complaints) := lexWithin (some Diagnostics.cap) source.text.toList
  let located := complaints.map fun (problem, span) => problem.locate source span
  (tokens, located.foldl Diagnostics.pushError .empty)

end Lexer
end Wheelwork
