import TaggedSum.Schema.Basic
import TaggedSum.Schema.Reading
import TaggedSum.Xml.Fault

namespace TaggedSum

/-- What a schema lacks or cannot hold, whichever elements it is made of. -/
inductive StructureError where
  | noSchemaElement
  | unterminatedEnum (name : String)
  | unterminatedElement (owner : String)
  | unknownReference (body : String)
  deriving DecidableEq

def StructureError.message : StructureError → String
  | noSchemaElement => "No sumSchema element found"
  | unterminatedEnum name => "Unterminated enum '" ++ name ++ "'"
  | unterminatedElement owner => "Unterminated element '" ++ owner ++ "'"
  | unknownReference body => "Unknown entity reference '&" ++ body ++ ";'"

/-- Why a text does not describe a schema. -/
inductive ParseError where
  | xml (fault : Xml.Fault)
  | json (e : ReadError)
  | missingAttribute (element name : String)
  | invalidAttribute (element name value : String)
  | unknownElement (element context : String)
  | duplicateDefinition (kind : DefinitionKind) (name : String)
  | invalidStructure (e : StructureError)
  deriving DecidableEq

namespace ParseError

/-- The text of a JSON error has no wording of its own for a fault of the grammar. -/
def message : ParseError → String
  | xml fault => "XML parsing error: " ++ fault.message
  | json .grammar => "JSON parsing error"
  | json (.data e) => "JSON parsing error: " ++ e.message
  | missingAttribute element name =>
    "missing required attribute '" ++ name ++ "' on element '" ++ element ++ "'"
  | invalidAttribute element name value =>
    "invalid value '" ++ value ++ "' for attribute '" ++ name ++ "' on element '" ++ element ++ "'"
  | unknownElement element context =>
    "unknown element '" ++ element ++ "' in context '" ++ context ++ "'"
  | duplicateDefinition kind name => "duplicate " ++ kind.word ++ " definition: '" ++ name ++ "'"
  | invalidStructure e => "invalid schema structure: " ++ e.message

end ParseError

end TaggedSum
