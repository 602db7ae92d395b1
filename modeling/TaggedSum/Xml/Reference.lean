import TaggedSum.IntWidth

namespace TaggedSum.Xml

inductive NumberError where
  | empty
  | invalidDigit
  | tooLarge
  deriving DecidableEq

def NumberError.message : NumberError → String
  | empty => "cannot parse integer from empty string"
  | invalidDigit => "invalid digit found in string"
  | tooLarge => "number too large to fit in target type"

def digit? (radix : Nat) (c : Char) : Option Nat :=
  let d :=
    if c.isDigit then some (c.toNat - '0'.toNat)
    else if 'a' ≤ c && c ≤ 'f' then some (c.toNat - 'a'.toNat + 10)
    else if 'A' ≤ c && c ≤ 'F' then some (c.toNat - 'A'.toNat + 10)
    else none
  d.filter (· < radix)

/-- Numbers have 32 bits. Of a bad digit and a number that grows too large the one met first is
reported. -/
def numberFrom (radix n : Nat) : List Char → Except NumberError Nat
  | [] => .ok n
  | c :: cs =>
    match digit? radix c with
    | none => .error .invalidDigit
    | some d =>
      if n * radix + d < pow2 32 then numberFrom radix (n * radix + d) cs else .error .tooLarge

def number (radix : Nat) : List Char → Except NumberError Nat
  | [] => .error .empty
  | cs => numberFrom radix 0 cs

def character? (n : Nat) : Option Char :=
  if n < 0xd800 || (0xe000 ≤ n && n < 0x110000) then some (.ofNat n) else none

def entity? : List Char → Option Char
  | ['l', 't'] => some '<'
  | ['g', 't'] => some '>'
  | ['a', 'm', 'p'] => some '&'
  | ['a', 'p', 'o', 's'] => some '\x27'
  | ['q', 'u', 'o', 't'] => some '"'
  | _ => none

/-- The digits of a number and the radix that they are in. -/
def radix : List Char → Nat × List Char
  | 'x' :: ds => (16, ds)
  | ds => (10, ds)

/-- A sign that numbers in element text may have. -/
def unsigned : List Char → List Char
  | '+' :: ds => ds
  | ds => ds

/-- The character that a reference in element text stands for. -/
def textReference? : List Char → Option Char
  | '#' :: code =>
    let (r, ds) := radix code
    match number r (unsigned ds) with
    | .ok n => character? n
    | .error _ => none
  | name => entity? name

end TaggedSum.Xml
