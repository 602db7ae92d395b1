import TaggedSum.Emit.Body
import TaggedSum.Emit.Config

namespace TaggedSum.Emit.Codec

def braced (s : String) : String := "\x7b " ++ s ++ " \x7d"

/-- The pattern of a payload behind a head, which binds its members to slot names. -/
def bindingPattern {α : Type} (head : String) : Payload α → String
  | .unit => head
  | .newtype _ => head ++ "(" ++ slotName 0 ++ ")"
  | .tuple members => head ++ "(" ++ commaList (slotNames members.length) ++ ")"
  | .struct members =>
    let bindings := List.zipWith (fun name slot => identifier name ++ ": " ++ slot)
      (members.map Prod.fst) (slotNames members.length)
    head ++ " " ++ braced (commaList bindings)

def wildcardPattern {α : Type} (head : String) : Payload α → String
  | .unit => head
  | .newtype _ => head ++ "(..)"
  | .tuple _ => head ++ "(..)"
  | .struct _ => head ++ " " ++ braced ".."

/-- The document of a payload whose members are bound. -/
def written : Payload WriteExpr → String
  | .unit => "Json::Null"
  | .newtype e => e.text
  | .tuple es => "Json::Array(vec![" ++ commaList (es.map (·.text)) ++ "])"
  | .struct es =>
    let entries := es.map fun (name, e) =>
      "(" ++ Text.quoted name ++ ".to_string(), " ++ e.text ++ ")"
    "Json::Object(Map::from_iter([" ++ commaList entries ++ "]))"

/-- A match on the value itself, which cannot be if there are no arms. -/
def matchSelf (arms : List String) : List String :=
  if arms.isEmpty then ["match *self \x7b\x7d"] else block "match self" arms

def tagArm (a : Arm WriteExpr) : String :=
  wildcardPattern a.head a.payload ++ " => " ++ Text.quoted a.tag ++ ","

def writeArm (a : Arm WriteExpr) : String :=
  bindingPattern a.head a.payload ++ " => " ++
    match a.payload with
    | .unit => "Json::String(" ++ Text.quoted a.tag ++ ".to_string()),"
    | payload => "wire::tagged(" ++ Text.quoted a.tag ++ ", " ++ written payload ++ "),"

def bareArms (r : ChoiceReader) : List String :=
  if r.bare.isEmpty then
    ["wire::Tagged::Bare(tag) => Err(DecodeError::UnknownUnitTag(tag.to_string())),"]
  else
    closedBy "," (block "wire::Tagged::Bare(tag) => match tag"
      (r.bare.map (fun a => Text.quoted a.tag ++ " => Ok(" ++ a.head ++ "),") ++
        ["other => Err(DecodeError::UnknownUnitTag(other.to_string())),"]))

/-- The lines that build a payload behind a head from the document `source`, and give it as read. -/
def readLines (head source : String) : Payload ReadExpr → List String
  | .unit => ["Ok(" ++ head ++ ")"]
  | .newtype e => ["Ok(" ++ head ++ "(" ++ e.text ++ "?))"]
  | .tuple es =>
    ["let items = wire::expect_array(" ++ source ++ ", " ++ toString es.length ++ ")?;",
      "Ok(" ++ head ++ "("] ++ indented (es.map fun e => e.text ++ "?,") ++ ["))"]
  | .struct es =>
    ["let object = wire::expect_object(" ++ source ++ ")?;", "Ok(" ++ head ++ " \x7b"] ++
      indented (es.map fun (name, e) => identifier name ++ ": " ++ e.text ++ "?,") ++ ["\x7d)"]

/-- A single expression stands behind the arrow, several lines in a block. -/
def wrappedArm (a : Arm ReadExpr) : List String :=
  match readLines a.head "payload" a.payload with
  | [l] => [Text.quoted a.tag ++ " => " ++ l ++ ","]
  | ls => block (Text.quoted a.tag ++ " =>") ls

def refusedArm (r : ChoiceReader) : List String :=
  if r.refused.isEmpty then []
  else
    [String.intercalate " | " (r.refused.map Text.quoted) ++
      " => Err(DecodeError::UnrecognizedShape),"]

def wrappedArms (r : ChoiceReader) : List String :=
  let binding := if r.wrapped.isEmpty then "_" else "payload"
  closedBy "," (block ("wire::Tagged::Wrapped(tag, " ++ binding ++ ") => match tag")
    (r.wrapped.flatMap wrappedArm ++ refusedArm r ++
      ["other => Err(DecodeError::UnknownVariantTag(other.to_string())),"]))

def policy : ExtraKeys → String
  | .reject => "wire::ExtraKeys::Reject"
  | .ignore => "wire::ExtraKeys::Ignore"

def readDocs (what : String) : List String :=
  ["/// " ++ what, "///", "/// # Errors",
    "/// Returns `DecodeError` if the value is not a valid encoding."]

def readHead : String := "pub fn from_json(value: &Json) -> DecodeResult<Self>"

def writeHead : String := "pub fn to_json(&self) -> Json"

def readChoice (r : ChoiceReader) : List String :=
  readDocs "Decodes an externally tagged JSON value." ++
    block readHead
      (block ("match wire::untag(value, " ++ policy r.extraKeys ++ ", Self::WIRE_TAGS)?")
        (bareArms r ++ wrappedArms r))

def enum (type : String) (r : ChoiceReader) (w : ChoiceWriter) : List String :=
  block ("impl " ++ type)
    (["/// Wire tags of every variant, in declaration order.",
      "pub const WIRE_TAGS: &'static [&'static str] = &[" ++
        commaList (r.tags.map Text.quoted) ++ "];",
      ""] ++
      ["/// Returns the wire tag of the held variant.", "#[must_use]"] ++
      block "pub fn tag(&self) -> &'static str" (matchSelf (w.arms.map tagArm)) ++ [""] ++
      ["/// Encodes this value as externally tagged JSON.", "#[must_use]"] ++
      block writeHead (matchSelf (w.arms.map writeArm)) ++ [""] ++
      readChoice r) ++
    [""]

def writeRecord : Payload WriteExpr → List String
  | .unit => [written .unit]
  | payload => ["let " ++ bindingPattern "Self" payload ++ " = self;", written payload]

def readRecord : Payload ReadExpr → List String
  | .unit => ["wire::decode_null(value, FieldLocation::Payload)?;", "Ok(Self)"]
  | payload => readLines "Self" "value" payload

def record (type : String) (reader : Payload ReadExpr) (writer : Payload WriteExpr) :
    List String :=
  block ("impl " ++ type)
    (["/// Encodes this value as JSON.", "#[must_use]"] ++ block writeHead (writeRecord writer) ++
      [""] ++ readDocs "Decodes a JSON value." ++ block readHead (readRecord reader)) ++
    [""]

def impl : Impl → List String
  | .enum type reader writer => enum type reader writer
  | .record type reader writer => record type reader writer

def definition (c : Config) (codec : TaggedSum.Codec) : List String :=
  impl (.ofCodec c.extraKeys codec)

end TaggedSum.Emit.Codec
