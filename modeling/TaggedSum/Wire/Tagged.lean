import TaggedSum.Json.Basic
import TaggedSum.Wire.DecodeError

namespace TaggedSum

/-- What to do with keys beside the tag of a tagged object. -/
inductive ExtraKeys where
  | reject
  | ignore
  deriving DecidableEq

/-- A variant without payload travels as its tag, any other as an object with the payload under the
tag. -/
inductive Tagged where
  | bare (tag : String)
  | wrapped (tag : String) (payload : Json)

namespace Tagged

/-- Where extra keys are ignored, the tag of an object with several keys is the one declared key. -/
def declared (tags : List String) (members : List (String × Json)) : Except DecodeError Tagged :=
  match members.filter fun m => tags.contains m.1 with
  | [(tag, payload)] => .ok (.wrapped tag payload)
  | _ => .error .unrecognizedShape

/-- The tag and payload of a document. An object with one key is tagged by it, declared or not. -/
def ofJson (extraKeys : ExtraKeys) (tags : List String) : Json → Except DecodeError Tagged
  | .string tag => .ok (.bare tag)
  | .object [(tag, payload)] => .ok (.wrapped tag payload)
  | .object members =>
    match extraKeys with
    | .reject => .error .unrecognizedShape
    | .ignore => declared tags members
  | _ => .error .unrecognizedShape

def toJson : Tagged → Json
  | bare tag => .string tag
  | wrapped tag payload => .object [(tag, payload)]

end Tagged

end TaggedSum
