import TaggedSum.Xml.Reference

namespace TaggedSum.Xml

def isSpace (c : Char) : Bool := c == ' ' || c == '\t' || c == '\n' || c == '\r'

def isQuote (c : Char) : Bool := c == '"' || c == '\x27'

/-- An attribute with its value as it is written between the quotes. -/
structure Attribute where
  name : String
  raw : List Char
  deriving DecidableEq

/-- Why something that stands among attributes is none. -/
inductive AttributeFault where
  | noEquals
  | noValue
  | unquoted
  | unclosed
  | repeated
  deriving DecidableEq

/-- What is met among attributes. -/
inductive Item where
  | found (a : Attribute)
  | fault (e : AttributeFault)
  deriving DecidableEq

namespace Item

def found? : Item → Option Attribute
  | found a => some a
  | fault _ => none

/-- Where a scan stands: between items, in a name, behind a name, behind an equals sign, in a quoted
value, or in something that is passed over. Names and values so far are in reverse. -/
inductive Place where
  | between
  | name (cs : List Char)
  | behindName (name : List Char)
  | behindEquals (name : List Char)
  | value (name : List Char) (quote : Char) (cs : List Char)
  | skipped

/-- What is amiss if the text ends here. -/
def Place.unfinished : Place → List Item
  | .between => []
  | .name _ => [.fault .noEquals]
  | .behindName _ => [.fault .noEquals]
  | .behindEquals _ => [.fault .noValue]
  | .value _ _ _ => [.fault .unclosed]
  | .skipped => []

/-- A place and the names that have been given. -/
structure Scan where
  given : List (List Char)
  place : Place

namespace Scan

/-- Behind an equals sign. A name counts as given from there on, whatever stands for its value; what
follows one that has been given before is passed over up to the next white space, be it quoted or
not. -/
def equals (given : List (List Char)) (name : List Char) : Scan × List Item :=
  if given.contains name then (⟨name :: given, .skipped⟩, [.fault .repeated])
  else (⟨name :: given, .behindEquals name⟩, [])

def step (s : Scan) (c : Char) : Scan × List Item :=
  let given := s.given
  match s.place with
  | .between => (⟨given, if isSpace c then .between else .name [c]⟩, [])
  | .name cs =>
    if c == '=' then equals given cs.reverse
    else (⟨given, if isSpace c then .behindName cs.reverse else .name (c :: cs)⟩, [])
  | .behindName name =>
    if c == '=' then equals given name
    else if isSpace c then (s, [])
    else (⟨given, .name [c]⟩, [.fault .noEquals])
  | .behindEquals name =>
    if isSpace c then (s, [])
    else if isQuote c then (⟨given, .value name c []⟩, [])
    else (⟨given, .skipped⟩, [.fault .unquoted])
  | .value name quote cs =>
    if c == quote then (⟨given, .between⟩, [.found ⟨.ofList name, cs.reverse⟩])
    else (⟨given, .value name quote (c :: cs)⟩, [])
  | .skipped => (⟨given, if isSpace c then .between else .skipped⟩, [])

/-- The items of a text from here on. -/
def items (s : Scan) : List Char → List Item
  | [] => s.place.unfinished
  | c :: cs => (s.step c).2 ++ items (s.step c).1 cs

end Scan

/-- The items of what follows the name of a tag. One that is no attribute is a fault, as is one
whose name has been given before; the scan goes on behind it. -/
def ofChars (cs : List Char) : List Item := Scan.items ⟨[], .between⟩ cs

end Item

/-- Why a value cannot be read. Places are byte ranges of the value as it is written. -/
inductive ValueError where
  | unknownEntity (start stop : Nat) (name : String)
  | unterminated (start stop : Nat)
  | sign
  | number (e : NumberError)
  | codePoint (n : Nat)
  | zero
  deriving DecidableEq

namespace ValueError

def rangeText (start stop : Nat) : String := toString start ++ ".." ++ toString stop

def message : ValueError → String
  | unknownEntity start stop name =>
    "at " ++ rangeText start stop ++ ": unrecognized entity `" ++ name ++ "`"
  | unterminated start stop =>
    "Error while escaping character at range " ++ rangeText start stop ++
      ": Cannot find ';' after '&'"
  | sign => "invalid character reference: unexpected number sign"
  | number e => "invalid character reference: " ++ e.message
  | codePoint n => "invalid character reference: `" ++ toString n ++ "` is not a valid codepoint"
  | zero => "invalid character reference: 0x0 character is not permitted in XML"

end ValueError

namespace Attribute

def byteCount : List Char → Nat
  | [] => 0
  | c :: cs => c.utf8Size + byteCount cs

/-- A number without sign; the character zero has none. -/
def numbered (r : Nat) (ds : List Char) : Except ValueError Char :=
  match ds with
  | '+' :: _ => .error .sign
  | '-' :: _ => .error .sign
  | _ =>
    match number r ds with
    | .error e => .error (.number e)
    | .ok n =>
      if n = 0 then .error .zero
      else match character? n with
        | some c => .ok c
        | none => .error (.codePoint n)

/-- The character that a reference in a value stands for, with the place of its first character. -/
def resolve (start : Nat) (body : List Char) : Except ValueError Char :=
  match body with
  | '#' :: code => numbered (radix code).1 (radix code).2
  | name =>
    match entity? name with
    | some c => .ok c
    | none => .error (.unknownEntity start (start + byteCount name) (.ofList name))

/-- Resolves the references of a value of `size` bytes from a place on. In a reference that is open,
`pending` holds its place and its body so far in reverse. -/
def unescapeFrom (size place : Nat) (pending : Option (Nat × List Char)) :
    List Char → Except ValueError (List Char)
  | [] =>
    match pending with
    | none => .ok []
    | some (start, _) => .error (.unterminated start size)
  | c :: cs =>
    match pending with
    | none =>
      if c == '&' then unescapeFrom size (place + 1) (some (place, [])) cs
      else return c :: (← unescapeFrom size (place + c.utf8Size) none cs)
    | some (start, body) =>
      if c == ';' then do
        let r ← resolve (start + 1) body.reverse
        return r :: (← unescapeFrom size (place + 1) none cs)
      else if c == '&' then .error (.unterminated start size)
      else unescapeFrom size (place + c.utf8Size) (some (start, c :: body)) cs

def value (a : Attribute) : Except ValueError String :=
  return .ofList (← unescapeFrom (byteCount a.raw) 0 none a.raw)

end Attribute

end TaggedSum.Xml
