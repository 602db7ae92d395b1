import TaggedSum.Payload
import TaggedSum.Value
import TaggedSum.Wire.DecodeError

namespace TaggedSum

inductive EncodeError where
  | unknownType (name : String)
  | unknownVariant (enum tag : String)
  | shapeMismatch (name : String) (expected : Shape)
  | arityMismatch (expected actual : Nat)
  | missingField (name : String)
  | typeMismatch (place : Location) (expected : String) (actual : Value.Kind)
  deriving DecidableEq

namespace EncodeError

def message : EncodeError → String
  | unknownType name => "unknown type '" ++ name ++ "'"
  | unknownVariant enum tag => "unknown variant '" ++ tag ++ "' for enum '" ++ enum ++ "'"
  | shapeMismatch name expected =>
    "shape mismatch for '" ++ name ++ "': expected " ++ expected.name ++ " payload"
  | arityMismatch expected actual =>
    "arity mismatch: expected " ++ toString expected ++ " elements, got " ++ toString actual
  | missingField name => "missing field '" ++ name ++ "'"
  | typeMismatch place expected actual =>
    "type mismatch at " ++ place.text ++ ": expected " ++ expected ++ ", got " ++ actual.name

end EncodeError

end TaggedSum
