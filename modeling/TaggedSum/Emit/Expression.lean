import TaggedSum.Emit.Name
import TaggedSum.Payload
import TaggedSum.Text.Quoted

namespace TaggedSum.Emit

/-- A document that is read: one that has a name, an element of a tuple, or a member of a struct. -/
inductive Operand where
  | name (name : String)
  | element (index : Nat)
  | member (key : String)
  deriving DecidableEq

def Operand.text : Operand → String
  | name s => s
  | element i => "&items[" ++ toString i ++ "]"
  | member key => "wire::field(object, " ++ Text.quoted key ++ ")?"

/-- The place of a slot: one that has a name, or a field of the payload. -/
inductive PlaceTerm where
  | name (name : String)
  | index (index : Nat)
  | field (key : String)
  deriving DecidableEq

def PlaceTerm.text : PlaceTerm → String
  | name s => s
  | index i => "FieldLocation::Index(" ++ toString i ++ ")"
  | field key => "FieldLocation::name(" ++ Text.quoted key ++ ")"

/-- Reads a document at a place. Inside sequences and mappings the item is called `item` and its
place `at`. -/
inductive ReadExpr where
  | string (j : Operand) (place : PlaceTerm)
  | bool (j : Operand) (place : PlaceTerm)
  | signed (w : IntWidth) (j : Operand) (place : PlaceTerm)
  | unsigned (w : IntWidth) (j : Operand) (place : PlaceTerm)
  | definition (type : String) (j : Operand) (place : PlaceTerm)
  | seq (j : Operand) (place : PlaceTerm) (item : ReadExpr)
  | map (j : Operand) (place : PlaceTerm) (entry : ReadExpr)
  deriving DecidableEq

namespace ReadExpr

def call (helper : String) (j : Operand) (place : PlaceTerm) : String :=
  "wire::" ++ helper ++ "(" ++ j.text ++ ", " ++ place.text ++ ")"

def callEach (helper : String) (j : Operand) (place : PlaceTerm) (body : String) : String :=
  "wire::" ++ helper ++ "(" ++ j.text ++ ", " ++ place.text ++ ", |item, at| " ++ body ++ ")"

def text : ReadExpr → String
  | string j place => call "decode_string" j place
  | bool j place => call "decode_bool" j place
  | signed w j place => call ("decode_int::<i" ++ toString w.bits ++ ">") j place
  | unsigned w j place => call ("decode_int::<u" ++ toString w.bits ++ ">") j place
  | definition type j place =>
    type ++ "::from_json(" ++ j.text ++ ").map_err(|error| error.within(" ++ place.text ++ "))"
  | seq j place item => callEach "decode_seq" j place item.text
  | map j place entry => callEach "decode_map" j place entry.text

def ofType : FieldType → Operand → PlaceTerm → ReadExpr
  | .string, j, place => string j place
  | .bool, j, place => bool j place
  | .signed w, j, place => signed w j place
  | .unsigned w, j, place => unsigned w j place
  | .reference name, j, place => definition (identifier name) j place
  | .seq t, j, place => seq j place (ofType t (.name "item") (.name "at"))
  | .map t, j, place => map j place (ofType t (.name "item") (.name "at"))

end ReadExpr

/-- Writes the value behind a name. Inside sequences and mappings that name is `item`. -/
inductive WriteExpr where
  | string (x : String)
  | integer (x : String)
  | bool (x : String)
  | definition (x : String)
  | seq (x : String) (item : WriteExpr)
  | map (x : String) (entry : WriteExpr)
  deriving DecidableEq

namespace WriteExpr

def text : WriteExpr → String
  | string x => "Json::String(" ++ x ++ ".clone())"
  | integer x => "Json::from(*" ++ x ++ ")"
  | bool x => "Json::Bool(*" ++ x ++ ")"
  | definition x => x ++ ".to_json()"
  | seq x item => "Json::Array(" ++ x ++ ".iter().map(|item| " ++ item.text ++ ").collect())"
  | map x entry =>
    "Json::Object(" ++ x ++ ".iter().map(|(key, item)| (key.clone(), " ++ entry.text
      ++ ")).collect())"

def ofType : FieldType → String → WriteExpr
  | .string, x => string x
  | .bool, x => bool x
  | .signed _, x => integer x
  | .unsigned _, x => integer x
  | .reference _, x => definition x
  | .seq t, x => seq x (ofType t "item")
  | .map t, x => map x (ofType t "item")

end WriteExpr

end TaggedSum.Emit
