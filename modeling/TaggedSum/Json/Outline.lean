import TaggedSum.Json.Token

namespace TaggedSum

/-- The part of a value that follows the grammar; `broken` where no value can be read, and a
container is not `closed` if the text goes wrong behind its last entry. Who goes through an outline
from left to right meets each fault of the text where a reader of the text would. -/
inductive Outline where
  | broken
  | null
  | bool (b : Bool)
  | number (l : Numeral)
  | text (pieces : List Piece)
  | array (items : List Outline) (closed : Bool)
  | object (members : List (List Piece × Outline)) (closed : Bool)

namespace Outline

/-- A container that is being read, with its entries so far in reverse; in a `member` the value of a
name is still to come. -/
inductive Frame where
  | array (items : List Outline)
  | member (members : List (List Piece × Outline)) (name : List Piece)

/-- What may come next. -/
inductive Awaited where
  | value
  | firstItem
  | item (items : List Outline)
  | firstName
  | name (members : List (List Piece × Outline))
  | colon (members : List (List Piece × Outline)) (name : List Piece)
  | moreItems (items : List Outline)
  | moreMembers (members : List (List Piece × Outline))
  | nothing (root : Outline)

structure State where
  frames : List Frame
  awaited : Awaited

def State.start : State := ⟨[], .value⟩

/-- A value has been read: it belongs to the innermost container. -/
def place (v : Outline) : List Frame → State
  | [] => ⟨[], .nothing v⟩
  | .array items :: frames => ⟨frames, .moreItems (v :: items)⟩
  | .member members name :: frames => ⟨frames, .moreMembers ((name, v) :: members)⟩

/-- The value that a token starts: a scalar, or a container that is opened. -/
def open? (frames : List Frame) : Token → Option State
  | .null => some (place .null frames)
  | .bool b => some (place (.bool b) frames)
  | .number l => some (place (.number l) frames)
  | .text t => some (place (.text t) frames)
  | .openArray => some ⟨frames, .firstItem⟩
  | .openObject => some ⟨frames, .firstName⟩
  | _ => none

def step (s : State) (t : Token) : Option State :=
  match s.awaited, t with
  | .value, t => open? s.frames t
  | .firstItem, .closeArray => some (place (.array [] true) s.frames)
  | .firstItem, t => open? (.array [] :: s.frames) t
  | .item items, t => open? (.array items :: s.frames) t
  | .firstName, .closeObject => some (place (.object [] true) s.frames)
  | .firstName, .text name => some ⟨s.frames, .colon [] name⟩
  | .name members, .text name => some ⟨s.frames, .colon members name⟩
  | .colon members name, .colon => some ⟨.member members name :: s.frames, .value⟩
  | .moreItems items, .comma => some ⟨s.frames, .item items⟩
  | .moreItems items, .closeArray => some (place (.array items.reverse true) s.frames)
  | .moreMembers members, .comma => some ⟨s.frames, .name members⟩
  | .moreMembers members, .closeObject => some (place (.object members.reverse true) s.frames)
  | _, _ => none

/-- The text goes wrong here: closes what is open around the last value as broken off. -/
def breakOff (v : Outline) : List Frame → Outline
  | [] => v
  | .array items :: frames => breakOff (.array (v :: items).reverse false) frames
  | .member members name :: frames =>
    breakOff (.object ((name, v) :: members).reverse false) frames

def State.broken (s : State) : Outline :=
  match s.awaited with
  | .value => breakOff .broken s.frames
  | .firstItem => breakOff (.array [] false) s.frames
  | .item items => breakOff (.array (.broken :: items).reverse false) s.frames
  | .firstName => breakOff (.object [] false) s.frames
  | .name members => breakOff (.object members.reverse false) s.frames
  | .colon members name => breakOff (.object ((name, .broken) :: members).reverse false) s.frames
  | .moreItems items => breakOff (.array items.reverse false) s.frames
  | .moreMembers members => breakOff (.object members.reverse false) s.frames
  | .nothing root => root

/-- An outline, and whether the text ends with it. -/
structure Reading where
  root : Outline
  whole : Bool

def run (s : State) : List Token → Reading
  | [] =>
    match s.awaited with
    | .nothing root => ⟨root, true⟩
    | _ => ⟨s.broken, false⟩
  | t :: ts =>
    match step s t with
    | some s' => run s' ts
    | none => ⟨s.broken, false⟩

def ofText (s : String) : Reading := run .start (Token.scan s.toList)

mutual

/-- Whether the value follows the grammar to its end. -/
def complete : Outline → Bool
  | .broken => false
  | .null => true
  | .bool _ => true
  | .number _ => true
  | .text _ => true
  | .array items closed => completeItems items && closed
  | .object members closed => completeMembers members && closed

def completeItems : List Outline → Bool
  | [] => true
  | v :: rest => v.complete && completeItems rest

def completeMembers : List (List Piece × Outline) → Bool
  | [] => true
  | (_, v) :: rest => v.complete && completeMembers rest

end

end Outline

end TaggedSum
