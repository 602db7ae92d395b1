import TaggedSum.Emit.Config
import TaggedSum.Emit.Name
import TaggedSum.Schema.Resolved

namespace TaggedSum.Emit.Types

def derives (c : Config) : List String :=
  if c.derives.isEmpty then [] else ["#[derive(" ++ commaList c.derives ++ ")]"]

def isDocumented (c : Config) (fields : List Field) : Bool :=
  c.docs && fields.any (·.docs.isSome)

/-- Unnamed fields behind a head, on one line unless one of them is documented. -/
def positional (c : Config) (head visibility close : String) (fields : List Field) : List String :=
  if isDocumented c fields then
    (head ++ "(") ::
      indented (fields.flatMap fun f =>
        c.docLines f.docs ++ [visibility ++ typeName f.type ++ ","]) ++
      [")" ++ close]
  else
    [head ++ "(" ++ commaList (fields.map fun f => visibility ++ typeName f.type) ++ ")" ++ close]

/-- Named fields, one on each line. -/
def named (c : Config) (visibility : String) (fields : List Field) : List String :=
  ((Resolved.bindings fields).zip fields).flatMap fun (name, f) =>
    c.docLines f.docs ++ [visibility ++ identifier name ++ ": " ++ typeName f.type ++ ","]

def variant (c : Config) (v : Resolved.Variant) : List String :=
  let name := identifier v.name
  c.docLines v.docs ++
    match v.shape with
    | .unit => [name ++ ","]
    | .newtype => positional c name "" "," v.fields
    | .tuple => positional c name "" "," v.fields
    | .struct => closedBy "," (block name (named c "" v.fields))

def enum (c : Config) (e : Resolved.Enum) : List String :=
  c.docLines e.docs ++ derives c ++
    block ("pub enum " ++ identifier e.name) (e.variants.flatMap (variant c)) ++ [""]

def constructorName (v : Resolved.Variant) : String := "new_" ++ v.handler

def params (fields : List Field) : List String :=
  ((Resolved.bindings fields).zip fields).map fun (name, f) =>
    identifier name ++ ": " ++ typeName f.type

/-- The value that a constructor function gives. -/
def constructed (v : Resolved.Variant) : String :=
  let head := "Self::" ++ identifier v.name
  let args := commaList ((Resolved.bindings v.fields).map identifier)
  match v.shape with
  | .unit => head
  | .newtype => head ++ "(" ++ args ++ ")"
  | .tuple => head ++ "(" ++ args ++ ")"
  | .struct => head ++ " \x7b " ++ args ++ " \x7d"

def constructorLines (v : Resolved.Variant) : List String :=
  ["/// Creates a `" ++ v.name ++ "` value.", "#[must_use]"] ++
    block ("pub fn " ++ constructorName v ++ "(" ++ commaList (params v.fields) ++ ") -> Self")
      [constructed v]

/-- Groups of lines with an empty line between any two. -/
def spaced : List (List String) → List String
  | [] => []
  | [ls] => ls
  | ls :: rest => ls ++ "" :: spaced rest

def constructors (e : Resolved.Enum) : List String :=
  block ("impl " ++ identifier e.name) (spaced (e.variants.map constructorLines)) ++ [""]

def struct (c : Config) (s : Resolved.Struct) : List String :=
  let head := "pub struct " ++ identifier s.name
  c.docLines s.docs ++ derives c ++
    (match s.shape with
      | .unit => [head ++ ";"]
      | .newtype => positional c head "pub " ";" s.fields
      | .tuple => positional c head "pub " ";" s.fields
      | .struct => block head (named c "pub " s.fields)) ++ [""]

def definition (c : Config) : Resolved.Definition → List String
  | .enum e => enum c e ++ if c.constructors then constructors e else []
  | .struct s => struct c s

end TaggedSum.Emit.Types
