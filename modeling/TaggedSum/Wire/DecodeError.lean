import TaggedSum.Text.Quoted

namespace TaggedSum

/-- A place inside a payload. An element or entry belongs to the place of its sequence or mapping,
and a place inside a referenced definition is nested in the place that holds the reference. -/
inductive Location where
  | payload
  | index (n : Nat)
  | name (name : String)
  | element (field : Location) (index : Nat)
  | entry (field : Location) (key : String)
  | nested (field : Location) (inner : Location)
  deriving DecidableEq

namespace Location

def text : Location → String
  | payload => "payload"
  | index n => "field " ++ toString n
  | name s => "field '" ++ s ++ "'"
  | element field n => field.text ++ "[" ++ toString n ++ "]"
  | entry field key => field.text ++ "[" ++ Text.quoted key ++ "]"
  | nested field inner => field.text ++ " > " ++ inner.text

end Location

/-- What a slot of a document has to hold. -/
inductive Expected where
  | string
  | signed (bits : Nat)
  | unsigned (bits : Nat)
  | boolean
  | array
  | object
  | null
  deriving DecidableEq

def Expected.text : Expected → String
  | string => "string"
  | signed bits => "i" ++ toString bits
  | unsigned bits => "u" ++ toString bits
  | boolean => "bool"
  | array => "array"
  | object => "object"
  | null => "null"

inductive DecodeError where
  | unknownUnitTag (tag : String)
  | unrecognizedShape
  | unknownVariantTag (tag : String)
  | arityMismatch (expected actual : Nat)
  | missingField (name : String)
  | typeMismatch (place : Location) (expected : Expected)
  deriving DecidableEq

namespace DecodeError

def message : DecodeError → String
  | unknownUnitTag tag => "unknown unit variant tag '" ++ tag ++ "'"
  | unrecognizedShape => "unrecognized shape: expected a tag string or a single-key object"
  | unknownVariantTag tag => "unknown variant tag '" ++ tag ++ "'"
  | arityMismatch expected actual =>
    "arity mismatch: expected " ++ toString expected ++ " elements, got " ++ toString actual
  | missingField name => "missing field '" ++ name ++ "'"
  | typeMismatch place expected =>
    "type mismatch at " ++ place.text ++ ": expected " ++ expected.text

/-- The error as seen from the place that refers to the definition in which it arose. Only a type
mismatch has a place. -/
def within (place : Location) : DecodeError → DecodeError
  | typeMismatch inner expected => typeMismatch (.nested place inner) expected
  | e => e

end DecodeError

end TaggedSum
