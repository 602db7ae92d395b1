import TaggedSum.Json.Basic
import TaggedSum.Json.Outline

namespace TaggedSum

namespace Piece

def isHigh (n : Nat) : Bool := 0xd800 ≤ n && n < 0xdc00

def isLow (n : Nat) : Bool := 0xdc00 ≤ n && n < 0xe000

/-- The text of the pieces; none if half of a surrogate pair stands alone. -/
def chars? : List Piece → Option (List Char)
  | [] => some []
  | .char c :: rest => (chars? rest).map (c :: ·)
  | .unit h :: .unit l :: rest =>
    if isHigh h then
      if isLow l then
        (chars? rest).map (Char.ofNat (0x10000 + (h - 0xd800) * 0x400 + (l - 0xdc00)) :: ·)
      else none
    else if isLow h then none
    else (chars? (.unit l :: rest)).map (Char.ofNat h :: ·)
  | .unit n :: rest =>
    if isHigh n || isLow n then none else (chars? rest).map (Char.ofNat n :: ·)

def text? (pieces : List Piece) : Option String := (chars? pieces).map .ofList

end Piece

namespace Outline

mutual

/-- The document that an outline is, where at most `room` containers may lie within each other. -/
def json? (room : Nat) : Outline → Option Json
  | .broken => none
  | .null => some .null
  | .bool b => some (.bool b)
  | .number l => l.value?.map .number
  | .text t => (Piece.text? t).map .string
  | .array items closed =>
    match room with
    | 0 => none
    | room + 1 => if closed then (items? room items).map .array else none
  | .object members closed =>
    match room with
    | 0 => none
    | room + 1 => if closed then (members? room members).map .object else none

def items? (room : Nat) : List Outline → Option (List Json)
  | [] => some []
  | v :: rest => do return (← v.json? room) :: (← items? room rest)

def members? (room : Nat) : List (List Piece × Outline) → Option (List (String × Json))
  | [] => some []
  | (k, v) :: rest => do return ((← Piece.text? k), (← v.json? room)) :: (← members? room rest)

end

end Outline

namespace Json

/-- How many containers a document may hold within each other. -/
def maxDepth : Nat := 127

/-- The document of a text, with repeated names merged. -/
def parse? (s : String) : Option Json :=
  let r := Outline.ofText s
  if r.whole then (r.root.json? maxDepth).map merged else none

end Json

end TaggedSum
