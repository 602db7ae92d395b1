import TaggedSum.Json.Basic
import TaggedSum.Text.Quoted

namespace TaggedSum

/-- What stands in a document. -/
inductive Found where
  | null
  | bool (b : Bool)
  | number (n : Number)
  | string (s : String)
  | sequence
  | map
  deriving DecidableEq

def Found.text : Found → String
  | null => "null"
  | bool true => "boolean `true`"
  | bool false => "boolean `false`"
  | number (.integer n) => "integer `" ++ toString n ++ "`"
  | number (.double x) => "floating point `" ++ String.ofList x.chars ++ "`"
  | string s => "string " ++ Text.quoted s
  | sequence => "sequence"
  | map => "map"

/-- The objects of a schema document. -/
inductive Part where
  | schema
  | enum
  | struct
  | variant
  | field
  deriving DecidableEq

namespace Part

def text : Part → String
  | schema => "struct Schema"
  | enum => "struct SchemaEnum"
  | struct => "struct SchemaStruct"
  | variant => "struct SchemaVariant"
  | field => "struct SchemaField"

/-- How many entries the part has when it is written as an array. -/
def size : Part → Nat
  | variant => 4
  | _ => 3

end Part

/-- What a place of a schema document has to hold. -/
inductive Wanted where
  | string
  | sequence
  | part (p : Part)
  | definition
  | kind
  deriving DecidableEq

def Wanted.text : Wanted → String
  | string => "a string"
  | sequence => "a sequence"
  | part p => p.text
  | definition => "internally tagged enum Definition"
  | kind => "variant identifier"

/-- Why a JSON document does not describe a schema. -/
inductive DataError where
  | invalidType (found : Found) (wanted : Wanted)
  | duplicateField (name : String)
  | missingField (name : String)
  | unknownKind (kind : String)
  | invalidFieldType (text : String)
  | tooShort (length : Nat) (part : Part)
  | tooLong (length size : Nat)
  deriving DecidableEq

def DataError.message : DataError → String
  | invalidType found wanted => "invalid type: " ++ found.text ++ ", expected " ++ wanted.text
  | duplicateField name => "duplicate field `" ++ name ++ "`"
  | missingField name => "missing field `" ++ name ++ "`"
  | unknownKind kind => "unknown variant `" ++ kind ++ "`, expected `enum` or `struct`"
  | invalidFieldType text => "invalid field type '" ++ text ++ "'"
  | tooShort length part =>
    "invalid length " ++ toString length ++ ", expected " ++ part.text ++ " with "
      ++ toString part.size ++ " elements"
  | tooLong length size =>
    "invalid length " ++ toString length ++ ", expected " ++ toString size
      ++ " elements in sequence"

end TaggedSum
