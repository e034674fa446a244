import Wheelwork.Json.Basic

/-!
JSON values as text, on one line or indented by two spaces a level.
-/
namespace Wheelwork.Json

def hexDigit (n : Nat) : Char := if n < 10 then Char.ofNat (48 + n) else Char.ofNat (87 + n)

/-- Quotes, backslashes and control characters are escaped, all others stand for themselves. -/
def escape (c : Char) : List Char :=
  if c = '"' then ['\\', '"']
  else if c = '\\' then ['\\', '\\']
  else if c = '\x08' then ['\\', 'b']
  else if c = '\x0c' then ['\\', 'f']
  else if c = '\n' then ['\\', 'n']
  else if c = '\r' then ['\\', 'r']
  else if c = '\t' then ['\\', 't']
  else if c.toNat < 0x20 then
    ['\\', 'u', '0', '0', hexDigit (c.toNat / 16), hexDigit (c.toNat % 16)]
  else [c]

def quote (s : String) : List Char := '"' :: s.toList.flatMap escape ++ ['"']

mutual

def compact : Json → List Char
  | .null | .garbled => ['n', 'u', 'l', 'l']
  | .bool true => ['t', 'r', 'u', 'e']
  | .bool false => ['f', 'a', 'l', 's', 'e']
  | .number n => n.text ['+']
  | .string s => quote s
  | .array items => '[' :: compactItems items ++ [']']
  | .object fields => '\x7b' :: compactFields fields ++ ['\x7d']

def compactItems : List Json → List Char
  | [] => []
  | [item] => compact item
  | item :: rest => compact item ++ ',' :: compactItems rest

def compactFields : List (String × Json) → List Char
  | [] => []
  | [(key, value)] => quote key ++ ':' :: compact value
  | (key, value) :: rest => quote key ++ ':' :: compact value ++ ',' :: compactFields rest

end

def compress (j : Json) : String := String.ofList (compact j)

def indentation (level : Nat) : List Char := '\n' :: List.replicate (2 * level) ' '

mutual

def spread (level : Nat) : Json → List Char
  | .array [] => ['[', ']']
  | .array (item :: rest) =>
    '[' :: spreadItems (level + 1) (item :: rest) ++ indentation level ++ [']']
  | .object [] => ['\x7b', '\x7d']
  | .object (field :: rest) =>
    '\x7b' :: spreadFields (level + 1) (field :: rest) ++ indentation level ++ ['\x7d']
  | j => compact j

def spreadItems (level : Nat) : List Json → List Char
  | [] => []
  | [item] => indentation level ++ spread level item
  | item :: rest => indentation level ++ spread level item ++ ',' :: spreadItems level rest

def spreadFields (level : Nat) : List (String × Json) → List Char
  | [] => []
  | [(key, value)] => indentation level ++ quote key ++ ':' :: ' ' :: spread level value
  | (key, value) :: rest =>
    indentation level ++ quote key ++ ':' :: ' ' :: spread level value ++
      ',' :: spreadFields level rest

end

def pretty (j : Json) : String := String.ofList (spread 0 j)

end Wheelwork.Json
