import TaggedSum.Json.Shortest
import TaggedSum.Members

namespace TaggedSum

/-- An integer of 64 bits, signed or not, or a finite double. -/
inductive Number where
  | integer (n : Int)
  | double (x : Binary64)
  deriving DecidableEq

namespace Number

/-- The integer that the number denotes, if it denotes one. -/
def toInt? : Number → Option Int
  | integer n => some n
  | double x => x.toInt?

def chars : Number → List Char
  | integer n => (toString n).toList
  | double x => x.chars

def render (n : Number) : String := .ofList n.chars

end Number

/-- An object is the list of its members in the order in which they are written. -/
inductive Json where
  | null
  | bool (b : Bool)
  | number (n : Number)
  | string (s : String)
  | array (items : List Json)
  | object (members : List (String × Json))

namespace Json

mutual

/-- The document with each object's repeated names merged. -/
def merged : Json → Json
  | .array items => .array (mergedItems items)
  | .object members => .object (Members.merge (mergedMembers members))
  | .null => .null
  | .bool b => .bool b
  | .number n => .number n
  | .string s => .string s

def mergedItems : List Json → List Json
  | [] => []
  | j :: rest => j.merged :: mergedItems rest

def mergedMembers : List (String × Json) → List (String × Json)
  | [] => []
  | (k, j) :: rest => (k, j.merged) :: mergedMembers rest

end

end Json

end TaggedSum
