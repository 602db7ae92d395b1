import TaggedSum.Json.Reader
import TaggedSum.Schema.Draft
/-!
Schemas from JSON texts. The text is read from left to right and the first problem is reported, so a
fault of the data may come before a fault of the grammar further on. A definition is read to its end
before it is interpreted, except for its kind, which is judged where it stands.
-/
namespace TaggedSum

inductive ReadError where
  | grammar
  | data (e : DataError)
  deriving DecidableEq

namespace Reading

def data {α : Type} (r : Except DataError α) : Except ReadError α := r.mapError .data

/-- A part of the text that has to follow the grammar. -/
def grammatical {α : Type} : Option α → Except ReadError α
  | some a => .ok a
  | none => .error .grammar

def found : Outline → Except ReadError Found
  | .broken => .error .grammar
  | .null => .ok .null
  | .bool b => .ok (.bool b)
  | .number l => return .number (← grammatical l.value?)
  | .text t => return .string (← grammatical (Piece.text? t))
  | .array _ _ => .ok .sequence
  | .object _ _ => .ok .map

/-- A value of another type stands where `wanted` has to stand. -/
def mismatch {α : Type} (wanted : Wanted) (v : Outline) : Except ReadError α := do
  throw (.data (.invalidType (← found v) wanted))

def text (wanted : Wanted) : Outline → Except ReadError String
  | .text t => grammatical (Piece.text? t)
  | v => mismatch wanted v

def optional : Outline → Except ReadError (Option String)
  | .null => .ok none
  | v => return some (← text .string v)

/-- How many containers may lie within each other in what a definition holds: three lie around it,
the schema, its list and the definition. -/
def contentRoom : Nat := Json.maxDepth - 3

def kind (v : Outline) : Except ReadError DefinitionKind := do
  let s ← text .kind v
  if s = DefinitionKind.enum.word then return .enum
  else if s = DefinitionKind.struct.word then return .struct
  else throw (.data (.unknownKind s))

/-- The kind, as far as it has been met, and the members beside it. -/
structure Content where
  kind : Option DefinitionKind
  members : List (String × Json)

def Content.add (c : Content) (m : List Piece × Outline) : Except ReadError Content := do
  let name ← grammatical (Piece.text? m.1)
  if name = "kind" then
    data (Draft.once "kind" c.kind)
    return { c with kind := some (← Reading.kind m.2) }
  else
    return { c with members := c.members ++ [(name, ← grammatical (m.2.json? contentRoom))] }

def closes (closed : Bool) : Except ReadError Unit := if closed then .ok () else .error .grammar

def definition : Outline → Except ReadError Definition
  | .object members closed => do
    let c ← members.foldlM Content.add ⟨none, []⟩
    closes closed
    data (do Draft.ofMembers (← Draft.required "kind" c.kind) c.members)
  | .array [] closed => do
    closes closed
    throw (.data (.missingField "kind"))
  | .array (v :: vs) closed => do
    let k ← kind v
    let js ← grammatical (Outline.items? contentRoom vs)
    closes closed
    data (Draft.ofEntries k js)
  | v => mismatch .definition v

def definitions : List Outline → Except ReadError (List Definition)
  | [] => .ok []
  | v :: vs => do
    let d ← definition v
    let ds ← definitions vs
    return d :: ds

def definitionList : Outline → Except ReadError (List Definition)
  | .array vs closed => do
    let ds ← definitions vs
    closes closed
    return ds
  | v => mismatch .sequence v

/-- The members of a schema that have been read. -/
structure OfSchema where
  package : Option String
  description : Option (Option String)
  definitions : Option (List Definition)

def OfSchema.set (d : OfSchema) (m : List Piece × Outline) : Except ReadError OfSchema := do
  match ← grammatical (Piece.text? m.1) with
  | "package" =>
    data (Draft.once "package" d.package)
    return { d with package := some (← text .string m.2) }
  | "description" =>
    data (Draft.once "description" d.description)
    return { d with description := some (← optional m.2) }
  | "definitions" =>
    data (Draft.once "definitions" d.definitions)
    return { d with definitions := some (← definitionList m.2) }
  | _ => if m.2.complete then return d else throw .grammar

/-- An entry of the array form of a schema; past the end of a broken array nothing can be read. -/
def entryOr {α : Type} (closed : Bool) (missing : Except ReadError α)
    (read : Outline → Except ReadError α) : Option Outline → Except ReadError α
  | some v => read v
  | none => do
    closes closed
    missing

def schema : Outline → Except ReadError Schema
  | .object members closed => do
    let d ← members.foldlM OfSchema.set ⟨none, none, none⟩
    closes closed
    let package ← data (Draft.required "package" d.package)
    return .ofDefinitions package (d.description.getD none) (d.definitions.getD [])
  | .array vs closed => do
    let package ← entryOr closed (.error (.data (.tooShort 0 .schema))) (text .string) vs[0]?
    let description ← entryOr closed (.ok none) optional vs[1]?
    let ds ← entryOr closed (.ok []) definitionList vs[2]?
    closes (closed && vs.length ≤ 3)
    return .ofDefinitions package description ds
  | v => mismatch (.part .schema) v

end Reading

/-- The schema that a JSON text describes; definitions may repeat names. -/
def Schema.read (s : String) : Except ReadError Schema := do
  let r := Outline.ofText s
  let schema ← Reading.schema r.root
  Reading.closes r.whole
  return schema

end TaggedSum
