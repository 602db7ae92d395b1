import TaggedSum.Codec.Plan
import TaggedSum.Value
import TaggedSum.Wire.Slot

namespace TaggedSum

/-- How the documents of some definition are read. -/
abbrev Decoder := Json → Except DecodeError Value

namespace Decode

/-- Reads a slot of a type, where `definitions` reads what references name. -/
def slot (definitions : String → Option Decoder) :
    FieldType → Json → Location → Except DecodeError Value
  | .string, j, place => (Slot.string j place).map .string
  | .bool, j, place => (Slot.bool j place).map .bool
  | .signed w, j, place => (Slot.signed w j place).map .signed
  | .unsigned w, j, place => (Slot.unsigned w j place).map .unsigned
  | .reference name, j, place =>
    match definitions name with
    | some decoder => (decoder j).mapError (.within place)
    | none => .error .unrecognizedShape
  | .seq item, j, place => (Slot.seq (slot definitions item) j place).map .seq
  | .map entry, j, place => (Slot.map (slot definitions entry) j place).map .map

/-- Reads the elements of a tuple from an index on. -/
def elements (definitions : String → Option Decoder) (index : Nat) :
    List FieldType → List Json → Except DecodeError (List Value)
  | t :: ts, j :: js => do
    let v ← slot definitions t j (.index index)
    return v :: (← elements definitions (index + 1) ts js)
  | _, _ => .ok []

/-- Reads the declared members of a struct; other members do not matter. -/
def members (definitions : String → Option Decoder) (object : List (String × Json)) :
    List (String × FieldType) → Except DecodeError (List (String × Value))
  | [] => .ok []
  | (name, t) :: rest => do
    let j ← Slot.field object name
    let v ← slot definitions t j (.name name)
    return (name, v) :: (← members definitions object rest)

def payload (definitions : String → Option Decoder) :
    Layout → Json → Except DecodeError (Payload Value)
  | .unit, j => (Slot.null j .payload).map fun _ => .unit
  | .newtype t, j => (slot definitions t j (.index 0)).map .newtype
  | .tuple ts, j => do
    let js ← Slot.array ts.length j
    return .tuple (← elements definitions 0 ts js)
  | .struct fields, j => do
    let object ← Slot.object j
    return .struct (Members.sorted (← members definitions object fields))

/-- Reads the payload of a tagged object; a variant without payload cannot be tagged so. -/
def wrapped (definitions : String → Option Decoder) (v : VariantCodec) (j : Json) :
    Except DecodeError (Choice Value) :=
  match v.layout with
  | .unit => .error .unrecognizedShape
  | layout => return ⟨v.tag, ← payload definitions layout j⟩

def choice (definitions : String → Option Decoder) (extraKeys : ExtraKeys) (e : EnumCodec)
    (j : Json) : Except DecodeError (Choice Value) := do
  match ← Tagged.ofJson extraKeys e.tags j with
  | .bare tag =>
    if e.units.contains tag then return ⟨tag, .unit⟩ else throw (.unknownUnitTag tag)
  | .wrapped tag j =>
    match e.variant? tag with
    | some v => wrapped definitions v j
    | none => throw (.unknownVariantTag tag)

def definition (definitions : String → Option Decoder) (extraKeys : ExtraKeys) : Codec → Decoder
  | .enum e, j => (choice definitions extraKeys e j).map .variant
  | .record r, j => (payload definitions r.layout j).map .record

/-- The decoder of a name among codecs in reverse order. Each reads references by those that come
earlier in the plan, so reading ends on every document. -/
def among (extraKeys : ExtraKeys) : List Codec → String → Option Decoder
  | [], _ => none
  | c :: earlier, name =>
    if c.name = name then some (definition (among extraKeys earlier) extraKeys c)
    else among extraKeys earlier name

end Decode

namespace CodecPlan

/-- Reads a document as a value of the named definition; none if there is no such definition. -/
def decode? (p : CodecPlan) (name : String) (j : Json) : Option (Except DecodeError Value) :=
  (Decode.among p.extraKeys p.codecs.reverse name).map (· j)

/-- Reads a document as a choice of the named enum; none if there is no such enum. -/
def decodeChoice? (p : CodecPlan) (name : String) (j : Json) :
    Option (Except DecodeError (Choice Value)) :=
  match p.scope? name with
  | some (.enum e, earlier) =>
    some (Decode.choice (Decode.among p.extraKeys earlier) p.extraKeys e j)
  | _ => none

end CodecPlan

end TaggedSum
