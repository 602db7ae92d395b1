import TaggedSum.Schema.ParseError
import TaggedSum.Text.Basic
import TaggedSum.Xml.Event
/-!
Schemas from XML texts. A `sumSchema` element holds `enum` and `struct` elements, an `enum` holds
`variant` elements, and variants and structs hold `field` elements. The text of a field describes it
if the attribute for that is absent. Where elements end is what counts, not which: the end of any
element in a field ends the field, and definitions may follow the end of the schema element.
-/
namespace TaggedSum

/-- What holds fields: a variant of an enum that is being read, or a struct. -/
inductive Owner where
  | variant (e : Enum) (v : Variant)
  | struct (s : Struct)
  deriving DecidableEq

def Owner.name : Owner → String
  | variant _ v => v.name
  | struct s => s.name

namespace Element

/-- Where a reader of elements stands; the text of a field so far is in reverse. -/
inductive Place where
  | document
  | enum (e : Enum)
  | payload (owner : Owner) (fields : List Field)
  | text (owner : Owner) (fields : List Field) (field : Field) (chars : List Char)
  deriving DecidableEq

structure State where
  schema : Option Schema
  place : Place
  deriving DecidableEq

def State.start : State := ⟨none, .document⟩

def value (a : Xml.Attribute) : Except ParseError String := a.value.mapError (.xml ∘ .value)

/-- The attributes with their values; every value has to be readable, whether it is used or not. -/
def values : List Xml.Attribute → Except ParseError (List (String × String))
  | [] => .ok []
  | a :: as => do
    let v ← value a
    let vs ← values as
    return (a.name, v) :: vs

def required (element name : String) (vs : List (String × String)) : Except ParseError String :=
  match Members.get? name vs with
  | some v => .ok v
  | none => .error (.missingAttribute element name)

def schema (t : Xml.Tag) : Except ParseError Schema := do
  let vs ← values t.attributes
  return .ofDefinitions (← required "sumSchema" "package" vs) (Members.get? "description" vs) []

def enum (t : Xml.Tag) : Except ParseError Enum := do
  let vs ← values t.attributes
  return ⟨← required "enum" "name" vs, Members.get? "description" vs, []⟩

def struct (t : Xml.Tag) : Except ParseError Struct := do
  let vs ← values t.attributes
  return ⟨← required "struct" "name" vs, Members.get? "description" vs, []⟩

def variant (t : Xml.Tag) : Except ParseError Variant := do
  let vs ← values t.attributes
  return ⟨← required "variant" "name" vs, Members.get? "tag" vs, Members.get? "description" vs, []⟩

/-- The attributes of a field; its type is judged where it stands among the other attributes. -/
def fieldValues : List Xml.Attribute → Except ParseError (List (String × String))
  | [] => .ok []
  | a :: as => do
    let v ← value a
    if a.name = "type" && (FieldType.ofText? v).isNone then
      throw (.invalidAttribute "field" "type" v)
    let vs ← fieldValues as
    return (a.name, v) :: vs

def field (t : Xml.Tag) : Except ParseError Field := do
  let vs ← fieldValues t.attributes
  match (Members.get? "type" vs).bind FieldType.ofText? with
  | some type => return ⟨Members.get? "name" vs, type, Members.get? "description" vs⟩
  | none => throw (.missingAttribute "field" "type")

/-- Adds a definition whose name is new. -/
def add (s : Schema) (d : Definition) : Except ParseError Schema :=
  if s.has d.name then .error (.duplicateDefinition d.kind d.name) else .ok (s.add d)

/-- The field with its text for a description, if it has none and the text is not blank. -/
def describe (f : Field) (chars : List Char) : Field :=
  let text := Text.trim chars.reverse
  if f.docs.isSome || text.isEmpty then f else { f with docs := some (.ofList text) }

/-- A definition is complete. -/
def State.define (s : State) (d : Definition) : Except ParseError State :=
  match s.schema with
  | some schema => return ⟨some (← add schema d), .document⟩
  | none => .ok { s with place := .document }

/-- The owner has all its fields. -/
def State.finish (s : State) (owner : Owner) (fields : List Field) : Except ParseError State :=
  match owner with
  | .variant e v =>
    .ok { s with place := .enum { e with variants := e.variants ++ [{ v with fields := fields }] } }
  | .struct t => s.define (.struct { t with fields := fields })

/-- An element outside all definitions, and whether it has content. -/
def State.openTop (s : State) (t : Xml.Tag) (content : Bool) : Except ParseError State :=
  match s.schema with
  | none => do
    if t.name = "sumSchema" then return { s with schema := some (← Element.schema t) }
    else throw (.unknownElement t.name "document")
  | some _ => do
    if t.name = "enum" then
      let e ← Element.enum t
      if content then return { s with place := .enum e } else s.define (.enum e)
    else if t.name = "struct" then
      let d ← Element.struct t
      if content then return { s with place := .payload (.struct d) [] }
      else s.define (.struct d)
    else throw (.unknownElement t.name "document")

def State.openVariant (s : State) (e : Enum) (t : Xml.Tag) (content : Bool) :
    Except ParseError State := do
  if t.name = "variant" then
    let v ← Element.variant t
    if content then return { s with place := .payload (.variant e v) [] }
    else return { s with place := .enum { e with variants := e.variants ++ [v] } }
  else throw (.unknownElement t.name e.name)

def State.openField (s : State) (owner : Owner) (fields : List Field) (t : Xml.Tag)
    (content : Bool) : Except ParseError State := do
  if t.name = "field" then
    let f ← Element.field t
    if content then return { s with place := .text owner fields f [] }
    else return { s with place := .payload owner (fields ++ [f]) }
  else throw (.unknownElement t.name owner.name)

def State.step (s : State) (e : Xml.Event) : Except ParseError State :=
  match s.place, e with
  | .document, .start t => s.openTop t true
  | .document, .empty t => s.openTop t false
  | .enum e, .start t => s.openVariant e t true
  | .enum e, .empty t => s.openVariant e t false
  | .enum e, .stop => s.define (.enum e)
  | .payload owner fields, .start t => s.openField owner fields t true
  | .payload owner fields, .empty t => s.openField owner fields t false
  | .payload owner fields, .stop => s.finish owner fields
  | .text owner fields f chars, .char c => .ok { s with place := .text owner fields f (c :: chars) }
  | .text owner fields f chars, .reference body =>
    match Xml.textReference? body with
    | some c => .ok { s with place := .text owner fields f (c :: chars) }
    | none => .error (.invalidStructure (.unknownReference (.ofList body)))
  | .text owner fields f chars, .stop =>
    .ok { s with place := .payload owner (fields ++ [describe f chars]) }
  | _, _ => .ok s

/-- The schema, if the text may end here. -/
def State.schema? (s : State) : Except ParseError Schema :=
  match s.place with
  | .document =>
    match s.schema with
    | some schema => .ok schema
    | none => .error (.invalidStructure .noSchemaElement)
  | .enum e => .error (.invalidStructure (.unterminatedEnum e.name))
  | .payload owner _ => .error (.invalidStructure (.unterminatedElement owner.name))
  | .text owner _ _ _ => .error (.invalidStructure (.unterminatedElement owner.name))

/-- What is loaded from a state on. -/
def load (s : State) (x : Xml.Stream) : Except ParseError Schema := do
  let s ← x.events.foldlM State.step s
  match x.fault with
  | some fault => throw (.xml fault)
  | none => s.schema?

def ofStream (x : Xml.Stream) : Except ParseError Schema := load .start x

end Element

namespace Schema

def ofXml (s : String) : Except ParseError Schema := Element.ofStream (.ofText s)

/-- Adds the definitions one by one, each under a new name. -/
def addAll (s : Schema) : List Definition → Except ParseError Schema
  | [] => .ok s
  | d :: ds => do (← Element.add s d).addAll ds

def ofJson (s : String) : Except ParseError Schema := do
  let read ← (Schema.read s).mapError .json
  addAll (.ofDefinitions read.package read.description []) read.definitions

/-- The schema as a JSON text gives it: names may repeat, and no definition can be found by name. -/
def ofUncheckedJson (s : String) : Except ParseError Schema := do
  let read ← (Schema.read s).mapError .json
  return { read with unlisted := read.definitions.length }

end Schema

end TaggedSum
