import TaggedSum.Json.Basic
import TaggedSum.Schema.Basic

namespace TaggedSum

/-- The member of a text that may be absent. -/
def textMember (name : String) : Option String → List (String × Json)
  | some s => [(name, .string s)]
  | none => []

def Field.toJson (f : Field) : Json :=
  .object (textMember "name" f.name ++ ("type", .string f.type.text) :: textMember "docs" f.docs)

def Variant.toJson (v : Variant) : Json :=
  .object (("name", .string v.name) :: textMember "tag" v.tag ++ textMember "docs" v.docs ++
    [("fields", .array (v.fields.map Field.toJson))])

/-- The members with which the document of a definition begins. -/
def Definition.heading (d : Definition) (docs : Option String) : List (String × Json) :=
  ("kind", .string d.kind.word) :: ("name", .string d.name) :: textMember "docs" docs

def Definition.toJson (d : Definition) : Json :=
  match d with
  | .enum e =>
    .object (d.heading e.docs ++ [("variants", .array (e.variants.map Variant.toJson))])
  | .struct s => .object (d.heading s.docs ++ [("fields", .array (s.fields.map Field.toJson))])

/-- What is absent is left out; lists are written even when they are empty. -/
def Schema.toJson (s : Schema) : Json :=
  .object (("package", .string s.package) :: textMember "description" s.description ++
    [("definitions", .array (s.definitions.map Definition.toJson))])

end TaggedSum
