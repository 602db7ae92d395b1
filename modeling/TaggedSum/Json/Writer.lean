import TaggedSum.Json.Basic

namespace TaggedSum.Json

def escapeChar (c : Char) : List Char :=
  match c with
  | '"' => ['\\', '"']
  | '\\' => ['\\', '\\']
  | '\x08' => ['\\', 'b']
  | '\x0c' => ['\\', 'f']
  | '\n' => ['\\', 'n']
  | '\r' => ['\\', 'r']
  | '\t' => ['\\', 't']
  | c =>
    if c.toNat < 0x20 then
      ['\\', 'u', '0', '0', Nat.digitChar (c.toNat / 16), Nat.digitChar (c.toNat % 16)]
    else [c]

def stringChars (s : String) : List Char := '"' :: (s.toList.flatMap escapeChar ++ ['"'])

mutual

def chars : Json → List Char
  | .null => ['n', 'u', 'l', 'l']
  | .bool true => ['t', 'r', 'u', 'e']
  | .bool false => ['f', 'a', 'l', 's', 'e']
  | .number n => n.chars
  | .string s => stringChars s
  | .array [] => ['[', ']']
  | .array (j :: rest) => '[' :: (j.chars ++ itemsChars rest)
  | .object [] => ['\x7b', '\x7d']
  | .object ((k, j) :: rest) => '\x7b' :: (stringChars k ++ ':' :: (j.chars ++ membersChars rest))

/-- The items behind the first, and the closing bracket. -/
def itemsChars : List Json → List Char
  | [] => [']']
  | j :: rest => ',' :: (j.chars ++ itemsChars rest)

def membersChars : List (String × Json) → List Char
  | [] => ['\x7d']
  | (k, j) :: rest => ',' :: (stringChars k ++ ':' :: (j.chars ++ membersChars rest))

end

/-- The compact text: no white space, members in order, and in strings an escape for the quote, the
backslash and the controls below U+0020 only. -/
def render (j : Json) : String := .ofList j.chars

end TaggedSum.Json
