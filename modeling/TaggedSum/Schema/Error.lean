namespace TaggedSum

inductive SchemaError where
  | mixedFieldNaming (owner : String)
  | duplicateTag (enum tag : String)
  | duplicateField (owner field : String)
  | duplicateDefinition (name : String)
  | typeNotFound (name referencedBy : String)
  | circularReference (path : List String)
  | invalidDefinitionName (name : String)
  | reservedName (name : String)
  | handlerSetName (name : String)
  | invalidVariantName (name enum : String)
  | duplicateVariant (name enum : String)
  | invalidFieldName (name owner : String)
  | duplicateHandler (enum handler : String)
  deriving DecidableEq

namespace SchemaError

/-- What breaks a rule on names that has no error of its own; none for the other errors. -/
def rule? : SchemaError → Option String
  | invalidDefinitionName name =>
    some ("Definition name '" ++ name ++ "' is not a valid identifier")
  | reservedName name => some ("Definition name '" ++ name ++ "' is reserved by generated code")
  | handlerSetName name =>
    some ("Definition name '" ++ name ++ "' collides with the handler set of an enum")
  | invalidVariantName name enum =>
    some ("Variant name '" ++ name ++ "' in enum '" ++ enum ++ "' is not a valid identifier")
  | duplicateVariant name enum =>
    some ("Duplicate variant name '" ++ name ++ "' in enum '" ++ enum ++ "'")
  | invalidFieldName name owner =>
    some ("Field name '" ++ name ++ "' in '" ++ owner ++ "' is not a valid identifier")
  | duplicateHandler enum handler =>
    some ("Variants of enum '" ++ enum ++ "' collide on handler name '" ++ handler ++ "'")
  | _ => none

def message : SchemaError → String
  | mixedFieldNaming owner => "'" ++ owner ++ "' mixes named and unnamed fields"
  | duplicateTag enum tag => "duplicate tag '" ++ tag ++ "' in enum '" ++ enum ++ "'"
  | duplicateField owner field => "duplicate field '" ++ field ++ "' in '" ++ owner ++ "'"
  | duplicateDefinition name => "duplicate definition '" ++ name ++ "'"
  | typeNotFound name referencedBy =>
    "type '" ++ name ++ "' not found (referenced by '" ++ referencedBy ++ "')"
  | circularReference path =>
    "circular type reference detected: " ++ String.intercalate " -> " path
  | e => "validation error: " ++ e.rule?.getD ""

end SchemaError

end TaggedSum
