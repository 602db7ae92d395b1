namespace TaggedSum

inductive Shape where
  | unit
  | newtype
  | tuple
  | struct
  deriving DecidableEq

namespace Shape

def name : Shape → String
  | unit => "unit"
  | newtype => "newtype"
  | tuple => "tuple"
  | struct => "struct"

end Shape

/-- What a variant or struct carries: nothing, one unnamed member, several unnamed members, or named
ones. The members are types in a declaration and values in a value. -/
inductive Payload (α : Type) where
  | unit
  | newtype (a : α)
  | tuple (members : List α)
  | struct (members : List (String × α))
  deriving DecidableEq

namespace Payload

def shape {α : Type} : Payload α → Shape
  | unit => .unit
  | newtype _ => .newtype
  | tuple _ => .tuple
  | struct _ => .struct

end Payload

/-- A choice among the variants of an enum, by wire tag. -/
structure Choice (α : Type) where
  tag : String
  payload : Payload α
  deriving DecidableEq

end TaggedSum
