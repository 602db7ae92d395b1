import TaggedSum.Codec.Plan
import TaggedSum.Value
import TaggedSum.Wire.EncodeError

namespace TaggedSum

/-- How the values of some definition are written, at the place that refers to it. -/
abbrev Encoder := Value → Location → Except EncodeError Json

namespace Encode

def items (write : Encoder) (place : Location) (index : Nat) :
    List Value → Except EncodeError (List Json)
  | [] => .ok []
  | v :: vs => do
    let j ← write v (.element place index)
    return j :: (← items write place (index + 1) vs)

def entries (write : Encoder) (place : Location) :
    List (String × Value) → Except EncodeError (List (String × Json))
  | [] => .ok []
  | (key, v) :: rest => do
    let j ← write v (.entry place key)
    return (key, j) :: (← entries write place rest)

def mismatch (t : FieldType) (v : Value) (place : Location) : Except EncodeError Json :=
  .error (.typeMismatch place t.text v.kind)

/-- Writes a slot of a type, where `definitions` writes what references name. -/
def slot (definitions : String → Option Encoder) : FieldType → Encoder
  | .string, v, place =>
    match v with
    | .string s => .ok (.string s)
    | v => mismatch .string v place
  | .bool, v, place =>
    match v with
    | .bool b => .ok (.bool b)
    | v => mismatch .bool v place
  | .signed w, v, place =>
    match v with
    | .signed n =>
      if w.fitsSigned n then .ok (.number (.integer n)) else mismatch (.signed w) v place
    | v => mismatch (.signed w) v place
  | .unsigned w, v, place =>
    match v with
    | .unsigned n =>
      if w.fitsUnsigned n then .ok (.number (.integer n)) else mismatch (.unsigned w) v place
    | v => mismatch (.unsigned w) v place
  | .reference name, v, place =>
    match definitions name with
    | some encoder => encoder v place
    | none => .error (.unknownType name)
  | .seq item, v, place =>
    match v with
    | .seq vs => (items (slot definitions item) place 0 vs).map .array
    | v => mismatch (.seq item) v place
  | .map entry, v, place =>
    match v with
    | .map es => (entries (slot definitions entry) place es).map .object
    | v => mismatch (.map entry) v place

def elements (definitions : String → Option Encoder) (index : Nat) :
    List FieldType → List Value → Except EncodeError (List Json)
  | t :: ts, v :: vs => do
    let j ← slot definitions t v (.index index)
    return j :: (← elements definitions (index + 1) ts vs)
  | _, _ => .ok []

def members (definitions : String → Option Encoder) (values : List (String × Value)) :
    List (String × FieldType) → Except EncodeError (List (String × Json))
  | [] => .ok []
  | (name, t) :: rest =>
    match Members.get? name values with
    | some v => do
      let j ← slot definitions t v (.name name)
      return (name, j) :: (← members definitions values rest)
    | none => .error (.missingField name)

/-- Writes a payload of `owner`, which is named if its shape is another. -/
def payload (definitions : String → Option Encoder) (owner : String) :
    Layout → Payload Value → Except EncodeError Json
  | .unit, .unit => .ok .null
  | .newtype t, .newtype v => slot definitions t v (.index 0)
  | .tuple ts, .tuple vs =>
    if ts.length = vs.length then (elements definitions 0 ts vs).map .array
    else .error (.arityMismatch ts.length vs.length)
  | .struct fields, .struct values => (members definitions values fields).map .object
  | layout, _ => .error (.shapeMismatch owner layout.shape)

def choice (definitions : String → Option Encoder) (e : EnumCodec) (c : Choice Value) :
    Except EncodeError Json :=
  match e.variant? c.tag with
  | none => .error (.unknownVariant e.name c.tag)
  | some v =>
    -- any other payload of a variant without payload is refused below
    match v.layout, c.payload with
    | .unit, .unit => .ok (Tagged.bare v.tag).toJson
    | layout, p => return (Tagged.wrapped v.tag (← payload definitions v.tag layout p)).toJson

def definition (definitions : String → Option Encoder) : Codec → Encoder
  | .enum e, v, place =>
    match v with
    | .variant c => choice definitions e c
    | v => .error (.typeMismatch place e.name v.kind)
  | .record r, v, place =>
    match v with
    | .record p => payload definitions r.name r.layout p
    | v => .error (.typeMismatch place r.name v.kind)

/-- The encoder of a name among codecs in reverse order. -/
def among : List Codec → String → Option Encoder
  | [], _ => none
  | c :: earlier, name =>
    if c.name = name then some (definition (among earlier) c) else among earlier name

end Encode

namespace CodecPlan

/-- Writes a value of the named definition. -/
def encode (p : CodecPlan) (name : String) (v : Value) : Except EncodeError Json :=
  match Encode.among p.codecs.reverse name with
  | some encoder => encoder v .payload
  | none => .error (.unknownType name)

/-- Writes a choice of the named enum. -/
def encodeChoice (p : CodecPlan) (name : String) (c : Choice Value) : Except EncodeError Json :=
  match p.scope? name with
  | some (.enum e, earlier) => Encode.choice (Encode.among earlier) e c
  | _ => .error (.unknownType name)

end CodecPlan

end TaggedSum
