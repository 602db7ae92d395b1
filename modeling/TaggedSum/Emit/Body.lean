import TaggedSum.Codec.Plan
import TaggedSum.Emit.Expression

namespace TaggedSum.Emit

/-- What reads the members of a payload, where a newtype is the document `source` itself. -/
def readPayload (source : String) : Layout → Payload ReadExpr
  | .unit => .unit
  | .newtype t => .newtype (.ofType t (.name source) (.index 0))
  | .tuple ts => .tuple (ts.zipIdx.map fun (t, i) => .ofType t (.element i) (.index i))
  | .struct fields =>
    .struct (fields.map fun (name, t) => (name, .ofType t (.member name) (.field name)))

/-- What writes the members of a payload. -/
def writePayload : Layout → Payload WriteExpr
  | .unit => .unit
  | .newtype t => .newtype (.ofType t (slotName 0))
  | .tuple ts => .tuple (ts.zipIdx.map fun (t, i) => .ofType t (slotName i))
  | .struct fields =>
    .struct (fields.zipIdx.map fun ((name, t), i) => (name, .ofType t (slotName i)))

/-- A variant under its tag, with what is done with its payload. -/
structure Arm (α : Type) where
  tag : String
  variant : String
  payload : Payload α
  deriving DecidableEq

/-- The variant as a path, of which constructors and patterns are made. -/
def Arm.head {α : Type} (a : Arm α) : String := "Self::" ++ a.variant

/-- Reads the choices of an enum: bare tags first, then tagged objects, then tagged objects whose
tag travels bare and which are refused. -/
structure ChoiceReader where
  extraKeys : ExtraKeys
  tags : List String
  bare : List (Arm ReadExpr)
  wrapped : List (Arm ReadExpr)
  refused : List String
  deriving DecidableEq

def readArm (v : VariantCodec) : Arm ReadExpr :=
  ⟨v.tag, identifier v.name, readPayload "payload" v.layout⟩

def ChoiceReader.ofCodec (extraKeys : ExtraKeys) (e : EnumCodec) : ChoiceReader :=
  ⟨extraKeys, e.tags, (e.variants.filter (·.isUnit)).map readArm,
    (e.variants.filter (!·.isUnit)).map readArm, e.units⟩

/-- Writes the choices of an enum: an arm for each variant. -/
structure ChoiceWriter where
  arms : List (Arm WriteExpr)
  deriving DecidableEq

def writeArm (v : VariantCodec) : Arm WriteExpr :=
  ⟨v.tag, identifier v.name, writePayload v.layout⟩

def ChoiceWriter.ofCodec (e : EnumCodec) : ChoiceWriter := ⟨e.variants.map writeArm⟩

/-- The codec of a definition, under the name of its type. -/
inductive Impl where
  | enum (type : String) (reader : ChoiceReader) (writer : ChoiceWriter)
  | record (type : String) (reader : Payload ReadExpr) (writer : Payload WriteExpr)
  deriving DecidableEq

def Impl.ofCodec (extraKeys : ExtraKeys) : Codec → Impl
  | .enum e => enum (identifier e.name) (.ofCodec extraKeys e) (.ofCodec e)
  | .record r => record (identifier r.name) (readPayload "value" r.layout) (writePayload r.layout)

end TaggedSum.Emit
