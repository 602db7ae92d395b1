import TaggedSum.Schema.FieldType

namespace TaggedSum.Emit

/-- The keywords that cannot be marked. -/
def pathKeywords : List String := ["self", "Self", "super", "crate"]

def keywords : List String := [
  "abstract", "as", "async", "await", "become", "box", "break", "const", "continue", "do",
  "dyn", "else", "enum", "extern", "false", "final", "fn", "for", "gen", "if", "impl", "in",
  "let", "loop", "macro", "match", "mod", "move", "mut", "override", "priv", "pub", "ref",
  "return", "static", "struct", "trait", "true", "try", "type", "typeof", "unsafe", "unsized",
  "use", "virtual", "where", "while", "yield"]

/-- A keyword is marked in front, or, where the language allows no mark, by an underscore behind it.
-/
def identifier (name : String) : String :=
  if pathKeywords.contains name then name ++ "_"
  else if keywords.contains name then "r#" ++ name
  else name

/-- The local name of the payload field at an index, whatever the field is called in the schema. -/
def slotName (index : Nat) : String := "f" ++ toString index

def slotNames (count : Nat) : List String := (List.range count).map slotName

/-- The type that holds the values of a field. -/
def typeName : FieldType → String
  | .string => "String"
  | .signed w => "i" ++ toString w.bits
  | .unsigned w => "u" ++ toString w.bits
  | .bool => "bool"
  | .reference name => name
  | .seq item => "Vec<" ++ typeName item ++ ">"
  | .map entry => "std::collections::BTreeMap<String, " ++ typeName entry ++ ">"

end TaggedSum.Emit
