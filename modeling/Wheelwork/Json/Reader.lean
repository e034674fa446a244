import Wheelwork.Json.Basic

/-!
Reading JSON text.
-/
namespace Wheelwork.Json

def isSpace (c : Char) : Bool := c == ' ' || c == '\n' || c == '\t' || c == '\r'

def skipSpace (cs : List Char) : List Char := cs.dropWhile isSpace

def hexValue? (c : Char) : Option Nat :=
  if '0' ≤ c ∧ c ≤ '9' then some (c.toNat - 48)
  else if 'a' ≤ c ∧ c ≤ 'f' then some (c.toNat - 87)
  else if 'A' ≤ c ∧ c ≤ 'F' then some (c.toNat - 55)
  else none

def unescape? (c : Char) : Option Char :=
  match c with
  | '"' => some '"'
  | '\\' => some '\\'
  | '/' => some '/'
  | 'b' => some '\x08'
  | 'f' => some '\x0c'
  | 'n' => some '\n'
  | 'r' => some '\r'
  | 't' => some '\t'
  | _ => none

def readUnits? : List Char → Option (List Nat × List Char)
  | [] => none
  | c :: cs =>
    if c = '"' then some ([], cs)
    else if c = '\\' then
      match cs with
      | 'u' :: w :: x :: y :: z :: rest => do
        let w ← hexValue? w
        let x ← hexValue? x
        let y ← hexValue? y
        let z ← hexValue? z
        let (units, rest) ← readUnits? rest
        some ((((w * 16 + x) * 16 + y) * 16 + z) :: units, rest)
      | e :: rest => do
        let e ← unescape? e
        let (units, rest) ← readUnits? rest
        some (e.toNat :: units, rest)
      | [] => none
    else if c.toNat < 0x20 then none
    else do
      let (units, rest) ← readUnits? cs
      some (c.toNat :: units, rest)

def isHigh (u : Nat) : Bool := 0xD800 ≤ u && u < 0xDC00

def isLow (u : Nat) : Bool := 0xDC00 ≤ u && u < 0xE000

def joinUnits? : List Nat → Option (List Char)
  | [] => some []
  | [u] => if isHigh u || isLow u then none else some [Char.ofNat u]
  | u :: v :: rest =>
    if isHigh u && isLow v then
      (joinUnits? rest).map (Char.ofNat (0x10000 + (u - 0xD800) * 0x400 + (v - 0xDC00)) :: ·)
    else if isHigh u || isLow u then none
    else (joinUnits? (v :: rest)).map (Char.ofNat u :: ·)

/-- A string after its opening quote; its text is missing if a surrogate stands alone. -/
def readString? (cs : List Char) : Option (Option String × List Char) := do
  let (units, rest) ← readUnits? cs
  some ((joinUnits? units).map String.ofList, rest)

def readDigits? (cs : List Char) : Option (List Char × List Char) :=
  let digits := cs.takeWhile Char.isDigit
  if digits.isEmpty then none else some (digits, cs.dropWhile Char.isDigit)

def readFraction? : List Char → Option (List Char × List Char)
  | '.' :: cs => readDigits? cs
  | cs => some ([], cs)

def readExponent? (cs : List Char) : Option (Option Int × List Char) :=
  match cs with
  | c :: rest =>
    if c = 'e' ∨ c = 'E' then
      match rest with
      | '-' :: rest => do
        let (digits, rest) ← readDigits? rest
        some (some (-(Nat.ofDigitChars 10 digits 0 : Int)), rest)
      | '+' :: rest => do
        let (digits, rest) ← readDigits? rest
        some (some (Nat.ofDigitChars 10 digits 0 : Int), rest)
      | rest => do
        let (digits, rest) ← readDigits? rest
        some (some (Nat.ofDigitChars 10 digits 0 : Int), rest)
    else some (none, cs)
  | [] => some (none, [])

def readNumeral? (cs : List Char) : Option (Numeral × List Char) := do
  let (negative, cs) := match cs with
    | '-' :: rest => (true, rest)
    | cs => (false, cs)
  let (whole, cs) ← readDigits? cs
  if whole.head? = some '0' ∧ 1 < whole.length then none
  else
    let (fraction, cs) ← readFraction? cs
    let (exponent, cs) ← readExponent? cs
    some (⟨negative, Nat.ofDigitChars 10 whole 0, fraction, exponent⟩, cs)

def ofFields (fields : List (Option String × Json)) : Json :=
  match fields.mapM fun (key, value) => key.map (·, value) with
  | some fields => .object fields
  | none => .garbled

mutual

/-- A value at the front of a text, and the text after it. Each level of nesting and each item
uses one unit of fuel and at least one character. -/
def readValue? : (fuel : Nat) → List Char → Option (Json × List Char)
  | 0, _ => none
  | fuel + 1, cs =>
    match skipSpace cs with
    | 'n' :: 'u' :: 'l' :: 'l' :: rest => some (.null, rest)
    | 't' :: 'r' :: 'u' :: 'e' :: rest => some (.bool true, rest)
    | 'f' :: 'a' :: 'l' :: 's' :: 'e' :: rest => some (.bool false, rest)
    | '"' :: rest => do
      let (text, rest) ← readString? rest
      some (match text with | some s => .string s | none => .garbled, rest)
    | '[' :: rest =>
      match skipSpace rest with
      | ']' :: rest => some (.array [], rest)
      | rest => do
        let (items, rest) ← readItems? fuel rest
        some (.array items, rest)
    | '\x7b' :: rest =>
      match skipSpace rest with
      | '\x7d' :: rest => some (.object [], rest)
      | rest => do
        let (fields, rest) ← readFields? fuel rest
        some (ofFields fields, rest)
    | cs => do
      let (n, rest) ← readNumeral? cs
      some (.number n, rest)

def readItems? : (fuel : Nat) → List Char → Option (List Json × List Char)
  | 0, _ => none
  | fuel + 1, cs => do
    let (item, cs) ← readValue? fuel cs
    match skipSpace cs with
    | ',' :: rest =>
      let (items, rest) ← readItems? fuel rest
      some (item :: items, rest)
    | ']' :: rest => some ([item], rest)
    | _ => none

def readFields? : (fuel : Nat) → List Char → Option (List (Option String × Json) × List Char)
  | 0, _ => none
  | fuel + 1, cs =>
    match skipSpace cs with
    | '"' :: rest => do
      let (key, rest) ← readString? rest
      match skipSpace rest with
      | ':' :: rest =>
        let (value, rest) ← readValue? fuel rest
        match skipSpace rest with
        | ',' :: rest =>
          let (fields, rest) ← readFields? fuel rest
          some ((key, value) :: fields, rest)
        | '\x7d' :: rest => some ([(key, value)], rest)
        | _ => none
      | _ => none
    | _ => none

end

def read? (text : String) : Option Json := do
  let cs := text.toList
  let (value, rest) ← readValue? (cs.length + 1) cs
  if (skipSpace rest).isEmpty then some value else none

end Wheelwork.Json
