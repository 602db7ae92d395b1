import TaggedSum.Json.Basic
import TaggedSum.Schema.Basic
import TaggedSum.Schema.DataError
/-!
The parts of a schema from their JSON documents. A part is an object, in which each known name
stands at most once and others are passed over, or an array of the same entries in order, which may
end before entries that can be absent. The first fault from left to right is reported.
-/
namespace TaggedSum

def Json.found : Json → Found
  | .null => .null
  | .bool b => .bool b
  | .number n => .number n
  | .string s => .string s
  | .array _ => .sequence
  | .object _ => .map

namespace Draft

def text : Json → Except DataError String
  | .string s => .ok s
  | j => .error (.invalidType j.found .string)

/-- A text that may be absent, which `null` says as well. -/
def optional : Json → Except DataError (Option String)
  | .null => .ok none
  | j => (text j).map some

def type (j : Json) : Except DataError FieldType := do
  let s ← text j
  match FieldType.ofText? s with
  | some t => return t
  | none => throw (.invalidFieldType s)

/-- Reads the items of a list in order, up to the first fault. -/
def items {α : Type} (read : Json → Except DataError α) : List Json → Except DataError (List α)
  | [] => .ok []
  | j :: js => do
    let a ← read j
    let as ← items read js
    return a :: as

def list {α : Type} (read : Json → Except DataError α) : Json → Except DataError (List α)
  | .array js => items read js
  | j => .error (.invalidType j.found .sequence)

/-- A name that has been given before cannot be given again. -/
def once {α : Type} (name : String) : Option α → Except DataError Unit
  | none => .ok ()
  | some _ => .error (.duplicateField name)

def required {α : Type} (name : String) : Option α → Except DataError α
  | some a => .ok a
  | none => .error (.missingField name)

/-- The entry of an array that is left out if the array ends before it. -/
def entryOr {α : Type} (default : α) (read : Json → Except DataError α) :
    Option Json → Except DataError α
  | some j => read j
  | none => .ok default

/-- The entry of an array at an index before which it must not end. -/
def entry {α : Type} (part : Part) (index : Nat) (read : Json → Except DataError α) :
    Option Json → Except DataError α
  | some j => read j
  | none => .error (.tooShort index part)

def atMost (size : Nat) (js : List Json) : Except DataError Unit :=
  if js.length ≤ size then .ok () else .error (.tooLong js.length size)

/-- The members of a field that have been read. -/
structure OfField where
  name : Option (Option String)
  type : Option FieldType
  docs : Option (Option String)

def OfField.set (d : OfField) (m : String × Json) : Except DataError OfField :=
  match m with
  | ("name", j) => do
    once "name" d.name
    return { d with name := some (← optional j) }
  | ("type", j) => do
    once "type" d.type
    return { d with type := some (← Draft.type j) }
  | ("docs", j) => do
    once "docs" d.docs
    return { d with docs := some (← optional j) }
  | _ => .ok d

def field : Json → Except DataError Field
  | .object members => do
    let d ← members.foldlM OfField.set ⟨none, none, none⟩
    return ⟨d.name.getD none, ← required "type" d.type, d.docs.getD none⟩
  | .array js => do
    let name ← entryOr none optional js[0]?
    let type ← entry .field 1 Draft.type js[1]?
    let docs ← entryOr none optional js[2]?
    atMost 3 js
    return ⟨name, type, docs⟩
  | j => .error (.invalidType j.found (.part .field))

structure OfVariant where
  name : Option String
  tag : Option (Option String)
  docs : Option (Option String)
  fields : Option (List Field)

def OfVariant.set (d : OfVariant) (m : String × Json) : Except DataError OfVariant :=
  match m with
  | ("name", j) => do
    once "name" d.name
    return { d with name := some (← text j) }
  | ("tag", j) => do
    once "tag" d.tag
    return { d with tag := some (← optional j) }
  | ("docs", j) => do
    once "docs" d.docs
    return { d with docs := some (← optional j) }
  | ("fields", j) => do
    once "fields" d.fields
    return { d with fields := some (← list field j) }
  | _ => .ok d

def variant : Json → Except DataError Variant
  | .object members => do
    let d ← members.foldlM OfVariant.set ⟨none, none, none, none⟩
    return ⟨← required "name" d.name, d.tag.getD none, d.docs.getD none, d.fields.getD []⟩
  | .array js => do
    let name ← entry .variant 0 text js[0]?
    let tag ← entryOr none optional js[1]?
    let docs ← entryOr none optional js[2]?
    let fields ← entryOr [] (list field) js[3]?
    atMost 4 js
    return ⟨name, tag, docs, fields⟩
  | j => .error (.invalidType j.found (.part .variant))

/-- The members of a definition that have been read; its list holds variants or fields. -/
structure OfDefinition (α : Type) where
  name : Option String
  docs : Option (Option String)
  entries : Option (List α)

/-- `key` is the name of the list of the definition, and `read` reads one of its entries. -/
def OfDefinition.set {α : Type} (key : String) (read : Json → Except DataError α)
    (d : OfDefinition α) (m : String × Json) : Except DataError (OfDefinition α) := do
  if m.1 = "name" then
    once "name" d.name
    return { d with name := some (← text m.2) }
  else if m.1 = "docs" then
    once "docs" d.docs
    return { d with docs := some (← optional m.2) }
  else if m.1 = key then
    once key d.entries
    return { d with entries := some (← list read m.2) }
  else return d

/-- A definition whose kind is known, from its other members. -/
def ofMembers (kind : DefinitionKind) (members : List (String × Json)) :
    Except DataError Definition :=
  match kind with
  | .enum => do
    let d ← members.foldlM (OfDefinition.set "variants" variant) ⟨none, none, none⟩
    return .enum ⟨← required "name" d.name, d.docs.getD none, d.entries.getD []⟩
  | .struct => do
    let d ← members.foldlM (OfDefinition.set "fields" field) ⟨none, none, none⟩
    return .struct ⟨← required "name" d.name, d.docs.getD none, d.entries.getD []⟩

def partOf : DefinitionKind → Part
  | .enum => .enum
  | .struct => .struct

/-- A definition whose kind is known, from the other entries of its array. -/
def ofEntries (kind : DefinitionKind) (js : List Json) : Except DataError Definition := do
  let name ← entry (partOf kind) 0 text js[0]?
  let docs ← entryOr none optional js[1]?
  match kind with
  | .enum =>
    let variants ← entryOr [] (list variant) js[2]?
    atMost 3 js
    return .enum ⟨name, docs, variants⟩
  | .struct =>
    let fields ← entryOr [] (list field) js[2]?
    atMost 3 js
    return .struct ⟨name, docs, fields⟩

end Draft

end TaggedSum
