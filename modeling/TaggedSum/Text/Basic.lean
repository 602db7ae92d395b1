namespace TaggedSum.Text

/-- White space by the Unicode property `White_Space`. -/
def isBlank (c : Char) : Bool :=
  let n := c.toNat
  (0x9 ≤ n && n ≤ 0xd) || n == 0x20 || n == 0x85 || n == 0xa0 || n == 0x1680 ||
    (0x2000 ≤ n && n ≤ 0x200a) || n == 0x2028 || n == 0x2029 || n == 0x202f || n == 0x205f ||
    n == 0x3000

def trimStart (cs : List Char) : List Char := cs.dropWhile isBlank

def trimEnd (cs : List Char) : List Char := (trimStart cs.reverse).reverse

def trim (cs : List Char) : List Char := trimEnd (trimStart cs)

/-- The text without white space at its ends. -/
def trimmed (s : String) : String := .ofList (trim s.toList)

/-- The line read so far, in reverse, without the carriage return that belongs to its line feed. -/
def closeLine : List Char → List Char
  | '\r' :: line => line.reverse
  | line => line.reverse

def linesFrom (line : List Char) : List Char → List (List Char)
  | [] => if line.isEmpty then [] else [line.reverse]
  | '\n' :: cs => closeLine line :: linesFrom [] cs
  | c :: cs => linesFrom (c :: line) cs

/-- The lines of a text. Each line feed ends a line, together with a carriage return right before
it; what follows the last line feed is a line only if it is not empty. -/
def lines (cs : List Char) : List (List Char) := linesFrom [] cs

end TaggedSum.Text
