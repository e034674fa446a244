/-!
Blank characters and the cutting of text at its ends.
-/
namespace Wheelwork.Text

/-- The characters with the Unicode property White_Space. -/
def isBlank (c : Char) : Bool :=
  let n := c.toNat
  (0x09 ≤ n && n ≤ 0x0D) || n == 0x20 || n == 0x85 || n == 0xA0 || n == 0x1680
    || (0x2000 ≤ n && n ≤ 0x200A) || n == 0x2028 || n == 0x2029 || n == 0x202F
    || n == 0x205F || n == 0x3000

def dropEndWhile (p : Char → Bool) (cs : List Char) : List Char :=
  (cs.reverse.dropWhile p).reverse

def trimEnd (cs : List Char) : List Char := dropEndWhile isBlank cs

def trim (cs : List Char) : List Char := trimEnd (cs.dropWhile isBlank)

def splitLines : List Char → List (List Char)
  | [] => [[]]
  | c :: cs =>
    match c, splitLines cs with
    | '\n', pieces => [] :: pieces
    | c, piece :: pieces => (c :: piece) :: pieces
    | c, [] => [[c]]

def chunks {α : Type} (isEnd : α → Bool) : List α → List (List α)
  | [] => []
  | a :: rest =>
    if isEnd a then [a] :: chunks isEnd rest
    else
      match chunks isEnd rest with
      | [] => [[a]]
      | chunk :: more => (a :: chunk) :: more

/-- A line without its line feed and one carriage return before that; without a line feed it is
kept as it stands. -/
def dropLineEnd (line : List Char) : List Char :=
  if line.getLast? = some '\n' then
    let content := line.dropLast
    if content.getLast? = some '\r' then content.dropLast else content
  else line

def inputLines (cs : List Char) : List (List Char) := (chunks (· == '\n') cs).map dropLineEnd

end Wheelwork.Text
