import TaggedSum.Text.Character

namespace TaggedSum.Text.Quoted

/-- The escape letter of a character that has one. -/
def letter? : Char → Option Char
  | '\x00' => some '0'
  | '\t' => some 't'
  | '\r' => some 'r'
  | '\n' => some 'n'
  | '"' => some '"'
  | '\\' => some '\\'
  | _ => none

/-- Lower-case hexadecimal digits without leading zeros. -/
def hexadecimal (n : Nat) : List Char := Nat.toDigits 16 n

def escapeChar (c : Char) : List Char :=
  match letter? c with
  | some l => ['\\', l]
  | none =>
    if isPrintable c then [c] else '\\' :: 'u' :: '\x7b' :: (hexadecimal c.toNat ++ ['\x7d'])

def escape (cs : List Char) : List Char := cs.flatMap escapeChar

def encode (cs : List Char) : List Char := '"' :: (escape cs ++ ['"'])

end Quoted

/-- The text between double quotes, with an escape for the quote, the backslash, the controls that
have a letter of their own, and every other character that is not shown, which is given by its code
point in hexadecimal. -/
def quoted (s : String) : String := .ofList (Quoted.encode s.toList)

end TaggedSum.Text
