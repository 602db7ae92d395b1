import TaggedSum.Payload
import TaggedSum.Schema.Resolved
import TaggedSum.Wire.Tagged

namespace TaggedSum

/-- The types of the members of a payload. -/
abbrev Layout := Payload FieldType

/-- A newtype takes its first field, and is a unit if it has none. -/
def Layout.ofFields (shape : Shape) (fields : List Field) : Layout :=
  match shape with
  | .unit => .unit
  | .newtype =>
    match fields with
    | f :: _ => .newtype f.type
    | [] => .unit
  | .tuple => .tuple (fields.map (·.type))
  | .struct => .struct ((Resolved.bindings fields).zip (fields.map (·.type)))

structure VariantCodec where
  name : String
  tag : String
  layout : Layout
  deriving DecidableEq

def VariantCodec.isUnit (v : VariantCodec) : Bool := v.layout == .unit

structure EnumCodec where
  name : String
  variants : List VariantCodec
  deriving DecidableEq

namespace EnumCodec

def ofEnum (e : Resolved.Enum) : EnumCodec :=
  ⟨e.name, e.variants.map fun v => ⟨v.name, v.tag, .ofFields v.shape v.fields⟩⟩

def tags (e : EnumCodec) : List String := e.variants.map (·.tag)

/-- The tags that travel bare. -/
def units (e : EnumCodec) : List String := (e.variants.filter (·.isUnit)).map (·.tag)

def variant? (e : EnumCodec) (tag : String) : Option VariantCodec := e.variants.find? (·.tag = tag)

end EnumCodec

structure RecordCodec where
  name : String
  layout : Layout
  deriving DecidableEq

def RecordCodec.ofStruct (s : Resolved.Struct) : RecordCodec := ⟨s.name, .ofFields s.shape s.fields⟩

inductive Codec where
  | enum (e : EnumCodec)
  | record (r : RecordCodec)
  deriving DecidableEq

namespace Codec

def name : Codec → String
  | enum e => e.name
  | record r => r.name

def ofDefinition : Resolved.Definition → Codec
  | .enum e => enum (.ofEnum e)
  | .struct s => record (.ofStruct s)

end Codec

/-- One codec for each definition, in dependency order. -/
structure CodecPlan where
  codecs : List Codec
  extraKeys : ExtraKeys
  deriving DecidableEq

namespace CodecPlan

def ofSchema (extraKeys : ExtraKeys) (s : Resolved.Schema) : CodecPlan :=
  ⟨s.definitions.map Codec.ofDefinition, extraKeys⟩

def withExtraKeys (p : CodecPlan) (extraKeys : ExtraKeys) : CodecPlan :=
  { p with extraKeys := extraKeys }

/-- Finds a codec among codecs in reverse order, with those that come before it in the plan. -/
def split? (name : String) : List Codec → Option (Codec × List Codec)
  | [] => none
  | c :: earlier => if c.name = name then some (c, earlier) else split? name earlier

/-- The codec of a name, and the codecs before it in reverse order. -/
def scope? (p : CodecPlan) (name : String) : Option (Codec × List Codec) :=
  split? name p.codecs.reverse

def get? (p : CodecPlan) (name : String) : Option Codec := (p.scope? name).map Prod.fst

def names (p : CodecPlan) : List String := p.codecs.map Codec.name

end CodecPlan

end TaggedSum
