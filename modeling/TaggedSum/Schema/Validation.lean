import TaggedSum.Payload
import TaggedSum.Schema.Basic
import TaggedSum.Schema.Error

namespace TaggedSum

/-- None is a unit, one unnamed field a newtype, several unnamed fields a tuple, and fields that all
have names a struct. Named and unnamed fields do not mix. -/
def classify (owner : String) (fields : List Field) : Except SchemaError Shape :=
  if fields.all (·.name.isNone) then
    match fields with
    | [] => .ok .unit
    | [_] => .ok .newtype
    | _ => .ok .tuple
  else if fields.all (·.name.isSome) then .ok .struct
  else .error (.mixedFieldNaming owner)

def Variant.shape (v : Variant) : Except SchemaError Shape := classify v.name v.fields

def Struct.shape (s : Struct) : Except SchemaError Shape := classify s.name s.fields

namespace Enum

/-- The name of the type that holds the handlers of the enum. -/
def handlersName (e : Enum) : String := e.name ++ "Handlers"

end Enum

namespace Schema

/-- Names that emitted code uses as they are, and that no definition may take. -/
def reservedNames : List String := [
  "Self", "std", "wire", "Json", "Map", "DecodeError", "DecodeResult", "FieldLocation", "String",
  "Vec", "Box", "Option", "Some", "None", "Result", "Ok", "Err", "Default", "FnOnce", "R", "E",
  "bool", "char", "str", "i8", "i16", "i32", "i64", "i128", "isize", "u8", "u16", "u32", "u64",
  "u128", "usize", "f32", "f64"]

/-- Checks the names of definitions that follow the names `seen`. -/
def checkNames (handlerSets seen : List String) : List Definition → Except SchemaError Unit
  | [] => .ok ()
  | d :: ds =>
    if !Text.isIdentifier d.name then .error (.invalidDefinitionName d.name)
    else if reservedNames.contains d.name then .error (.reservedName d.name)
    else if handlerSets.contains d.name then .error (.handlerSetName d.name)
    else if seen.contains d.name then .error (.duplicateDefinition d.name)
    else checkNames handlerSets (d.name :: seen) ds

def checkFieldNames (owner : String) (seen : List String) : List String → Except SchemaError Unit
  | [] => .ok ()
  | name :: names =>
    if !Text.isMemberName name then .error (.invalidFieldName name owner)
    else if seen.contains name then .error (.duplicateField owner name)
    else checkFieldNames owner (name :: seen) names

def checkReferences (s : Schema) (owner : String) : List Field → Except SchemaError Unit
  | [] => .ok ()
  | f :: fs =>
    match f.type.reference? with
    | some name =>
      if s.has name then checkReferences s owner fs else .error (.typeNotFound name owner)
    | none => checkReferences s owner fs

def checkPayload (s : Schema) (owner : String) (fields : List Field) : Except SchemaError Unit := do
  let _ ← classify owner fields
  checkFieldNames owner [] (fields.filterMap (·.name))
  checkReferences s owner fields

def checkVariants (s : Schema) (enum : String) (seenNames seenTags : List String) :
    List Variant → Except SchemaError Unit
  | [] => .ok ()
  | v :: vs => do
    if !Text.isMemberName v.name then throw (.invalidVariantName v.name enum)
    if seenNames.contains v.name then throw (.duplicateVariant v.name enum)
    if seenTags.contains v.wireTag then throw (.duplicateTag enum v.wireTag)
    checkPayload s v.name v.fields
    checkVariants s enum (v.name :: seenNames) (v.wireTag :: seenTags) vs

def checkDefinition (s : Schema) : Definition → Except SchemaError Unit
  | .enum e => checkVariants s e.name [] [] e.variants
  | .struct t => checkPayload s t.name t.fields

def checkDefinitions (s : Schema) : List Definition → Except SchemaError Unit
  | [] => .ok ()
  | d :: ds => do
    checkDefinition s d
    checkDefinitions s ds

/-- The first rule that is broken is reported: of the names of all definitions first, then of each
definition by itself, in the order of declaration. -/
def validate (s : Schema) : Except SchemaError Unit := do
  checkNames (s.enums.map Enum.handlersName) [] s.definitions
  checkDefinitions s s.definitions

end Schema

end TaggedSum
