import TaggedSum.Members
import TaggedSum.Schema.Resolution
import TaggedSum.Schema.Validation
import TaggedSum.Text.Name

namespace TaggedSum.Resolved

structure Variant where
  name : String
  tag : String
  docs : Option String
  shape : Shape
  fields : List Field
  handler : String
  deriving DecidableEq

structure Enum where
  name : String
  docs : Option String
  variants : List Variant
  deriving DecidableEq

namespace Enum

def tags (e : Enum) : List String := e.variants.map (·.tag)

def variant? (e : Enum) (tag : String) : Option Variant := e.variants.find? (·.tag = tag)

def handlersName (e : Enum) : String := e.name ++ "Handlers"

end Enum

structure Struct where
  name : String
  docs : Option String
  shape : Shape
  fields : List Field
  deriving DecidableEq

inductive Definition where
  | enum (e : Enum)
  | struct (s : Struct)
  deriving DecidableEq

/-- The local name of each field: its own, or one made of its index. -/
def bindings (fields : List Field) : List String :=
  fields.zipIdx.map fun (f, i) => f.name.getD ("f" ++ toString i)

/-- Resolves variants behind others whose handlers are `seen`. -/
def ofVariants (enum : String) (seen : List String) :
    List TaggedSum.Variant → Except SchemaError (List Variant)
  | [] => .ok []
  | v :: vs => do
    let handler := Text.snakeCase v.name
    if seen.contains handler then throw (.duplicateHandler enum handler)
    let shape ← v.shape
    let rest ← ofVariants enum (handler :: seen) vs
    return ⟨v.name, v.wireTag, v.docs, shape, v.fields, handler⟩ :: rest

namespace Definition

def name : Definition → String
  | enum e => e.name
  | struct s => s.name

def enum? : Definition → Option Enum
  | enum e => some e
  | struct _ => none

def struct? : Definition → Option Struct
  | enum _ => none
  | struct s => some s

def ofDefinition : TaggedSum.Definition → Except SchemaError Definition
  | .enum e => do return enum ⟨e.name, e.docs, ← ofVariants e.name [] e.variants⟩
  | .struct s => do return struct ⟨s.name, s.docs, ← s.shape, s.fields⟩

def ofDefinitions : List TaggedSum.Definition → Except SchemaError (List Definition)
  | [] => .ok []
  | d :: ds => do
    let r ← ofDefinition d
    let rs ← ofDefinitions ds
    return r :: rs

end Definition

/-- A schema that has passed all checks, its definitions in dependency order. -/
structure Schema where
  package : String
  description : Option String
  definitions : List Definition
  /-- Where each definition stood when the schema was resolved. -/
  positions : List (String × Nat)
  deriving DecidableEq

namespace Schema

def positionsOf (ds : List Definition) : List (String × Nat) :=
  Members.merge (ds.zipIdx.map fun (d, i) => (d.name, i))

def ofDefinitions (package : String) (description : Option String) (ds : List Definition) :
    Schema :=
  ⟨package, description, ds, positionsOf ds⟩

def ofSchema (s : TaggedSum.Schema) : Except SchemaError Schema := do
  s.validate
  let ordered ← s.dependencyOrder
  return .ofDefinitions s.package s.description (← Definition.ofDefinitions ordered)

/-- What stands at the position of a name: none for a name that was not resolved, and `some none`
where the position is past the end of what is left, so that the look-up does not return. -/
def lookUp (s : Schema) (name : String) : Option (Option Definition) :=
  (Members.get? name s.positions).map (s.definitions[·]?)

/-- The look-up where it returns, as it does while no definition has been dropped. -/
def get? (s : Schema) (name : String) : Option Definition := (s.lookUp name).join

def names (s : Schema) : List String := s.definitions.map Definition.name

def enums (s : Schema) : List Enum := s.definitions.filterMap (·.enum?)

def structs (s : Schema) : List Struct := s.definitions.filterMap (·.struct?)

/-- The schema without the definitions of some names. References to them stay, and so do the positions
of the others, which are no longer those where they stand. -/
def without (s : Schema) (names : List String) : Schema :=
  { s with definitions := s.definitions.filter fun d => !names.contains d.name }

end Schema

end TaggedSum.Resolved
