import TaggedSum.Codec.Plan
import TaggedSum.Emit.Codec
import TaggedSum.Emit.Dispatch
import TaggedSum.Emit.Types
import TaggedSum.Schema.Element

namespace TaggedSum

inductive GenerateError where
  | parse (e : ParseError)
  | schema (e : SchemaError)
  | noFile
  | blankRuntimePath
  | unknownType (name context : String)
  deriving DecidableEq

namespace GenerateError

/-- A missing file has no text of its own here. -/
def message : GenerateError → String
  | parse e => "schema parse error: " ++ e.message
  | schema e => "schema error: " ++ e.message
  | noFile => "IO error"
  | blankRuntimePath => "generation error: runtime crate path is empty"
  | unknownType name context => "unknown type '" ++ name ++ "' in " ++ context

end GenerateError

namespace Emit

def header (c : Config) (package : String) : List String :=
  ["// Generated by sumgen from package '" ++ package ++ "'. Do not edit.", "",
    "#[allow(unused_imports)]", "use " ++ c.runtimePath ++ "::wire::\x7bself, Json, Map\x7d;",
    "#[allow(unused_imports)]",
    "use " ++ c.runtimePath ++ "::\x7bDecodeError, DecodeResult, FieldLocation\x7d;", ""]

def codecOf (c : Config) (p : CodecPlan) (name : String) : Except GenerateError (List String) :=
  match p.get? name with
  | some codec => .ok (Codec.definition c codec)
  | none => .error (.unknownType name "codec plan")

def dispatchOf (c : Config) (ps : List DispatchPlan) (d : Resolved.Definition) :
    Except GenerateError (List String) :=
  match d with
  | .struct _ => .ok []
  | .enum e =>
    if c.dispatch then
      match ps.find? (·.enum = e.name) with
      | some p => .ok (Dispatch.plan c p)
      | none => .error (.unknownType e.name "dispatch plans")
    else .ok []

def definitions (c : Config) (p : CodecPlan) (ps : List DispatchPlan) :
    List Resolved.Definition → Except GenerateError (List String)
  | [] => .ok []
  | d :: ds => do
    let codec ← codecOf c p d.name
    let dispatch ← dispatchOf c ps d
    let rest ← definitions c p ps ds
    return Types.definition c d ++ codec ++ dispatch ++ rest

/-- A header, and for each definition in dependency order its type, its codec and, for an enum, its
handler set. -/
def source (c : Config) (s : Resolved.Schema) : Except GenerateError String := do
  if (Text.trim c.runtimePath.toList).isEmpty then throw .blankRuntimePath
  let ls ← definitions c (.ofSchema c.extraKeys s) (DispatchPlan.ofSchema s) s.definitions
  return joined (header c s.package ++ ls)

def sourceOf (c : Config) (s : Schema) : Except GenerateError String := do
  source c (← (Resolved.Schema.ofSchema s).mapError .schema)

def sourceOfXml (c : Config) (text : String) : Except GenerateError String := do
  sourceOf c (← (Schema.ofXml text).mapError .parse)

def sourceOfJson (c : Config) (text : String) : Except GenerateError String := do
  sourceOf c (← (Schema.ofJson text).mapError .parse)

/-- What stands behind the last point of a file name, unless nothing stands before that point. -/
def extension? (file : String) : Option String :=
  let cs := file.toList.reverse
  let ending := cs.takeWhile (· != '.')
  match cs.drop ending.length with
  | _ :: _ :: _ => some (.ofList ending.reverse)
  | _ => none

/-- The source text of the schema in a file, which is read as JSON if its name ends in `.json` and
as XML otherwise. A file that is missing or holds no UTF-8 cannot be read. -/
def sourceOfFile (c : Config) (file : String) (content : Option ByteArray) :
    Except GenerateError String :=
  match content.bind String.fromUTF8? with
  | none => .error .noFile
  | some text => if extension? file = some "json" then sourceOfJson c text else sourceOfXml c text

end Emit

end TaggedSum
