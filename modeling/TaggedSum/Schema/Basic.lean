import TaggedSum.Schema.FieldType

namespace TaggedSum

/-- A slot of a payload, named or positional. -/
structure Field where
  name : Option String
  type : FieldType
  docs : Option String
  deriving DecidableEq

structure Variant where
  name : String
  tag : Option String
  docs : Option String
  fields : List Field
  deriving DecidableEq

/-- The name that stands for the variant in documents. -/
def Variant.wireTag (v : Variant) : String := v.tag.getD v.name

structure Enum where
  name : String
  docs : Option String
  variants : List Variant
  deriving DecidableEq

def Enum.variant? (e : Enum) (tag : String) : Option Variant :=
  e.variants.find? (·.wireTag = tag)

structure Struct where
  name : String
  docs : Option String
  fields : List Field
  deriving DecidableEq

inductive DefinitionKind where
  | enum
  | struct
  deriving DecidableEq

def DefinitionKind.word : DefinitionKind → String
  | enum => "enum"
  | struct => "struct"

inductive Definition where
  | enum (e : Enum)
  | struct (s : Struct)
  deriving DecidableEq

namespace Definition

def name : Definition → String
  | enum e => e.name
  | struct s => s.name

def kind : Definition → DefinitionKind
  | enum _ => .enum
  | struct _ => .struct

def isEnum (d : Definition) : Bool := d.kind == .enum

def fields : Definition → List Field
  | enum e => e.variants.flatMap (·.fields)
  | struct s => s.fields

def enum? : Definition → Option Enum
  | enum e => some e
  | struct _ => none

def struct? : Definition → Option Struct
  | enum _ => none
  | struct s => some s

/-- The definitions that the fields refer to, in order and with repetitions. -/
def references (d : Definition) : List String := d.fields.filterMap (·.type.reference?)

end Definition

/-- The first `unlisted` definitions take part in everything but cannot be found by name; where
names repeat, the last is found. -/
structure Schema where
  package : String
  description : Option String
  definitions : List Definition
  unlisted : Nat
  deriving DecidableEq

namespace Schema

def empty (package : String) : Schema := ⟨package, none, [], 0⟩

def add (s : Schema) (d : Definition) : Schema := { s with definitions := s.definitions ++ [d] }

def ofDefinitions (package : String) (description : Option String) (ds : List Definition) :
    Schema :=
  ⟨package, description, ds, 0⟩

def position? (s : Schema) (name : String) : Option Nat :=
  ((s.definitions.zipIdx.drop s.unlisted).reverse.find? (·.1.name = name)).map (·.2)

def get? (s : Schema) (name : String) : Option Definition :=
  (s.definitions.drop s.unlisted).reverse.find? (·.name = name)

def has (s : Schema) (name : String) : Bool := (s.get? name).isSome

def enums (s : Schema) : List Enum := s.definitions.filterMap (·.enum?)

def structs (s : Schema) : List Struct := s.definitions.filterMap (·.struct?)

end Schema

end TaggedSum
