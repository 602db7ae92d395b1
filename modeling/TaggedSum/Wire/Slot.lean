import TaggedSum.IntWidth
import TaggedSum.Json.Basic
import TaggedSum.Wire.DecodeError

namespace TaggedSum.Slot

variable {α : Type}

def mismatch (place : Location) (expected : Expected) : Except DecodeError α :=
  .error (.typeMismatch place expected)

def string (j : Json) (place : Location) : Except DecodeError String :=
  match j with
  | .string s => .ok s
  | _ => mismatch place .string

def bool (j : Json) (place : Location) : Except DecodeError Bool :=
  match j with
  | .bool b => .ok b
  | _ => mismatch place .boolean

def null (j : Json) (place : Location) : Except DecodeError Unit :=
  match j with
  | .null => .ok ()
  | _ => mismatch place .null

/-- The integer of a slot: any number without a fraction, however it is written, that fits. -/
def integer (fits : Int → Bool) (expected : Expected) (j : Json) (place : Location) :
    Except DecodeError Int :=
  match j with
  | .number n =>
    match n.toInt? with
    | some i => if fits i then .ok i else mismatch place expected
    | none => mismatch place expected
  | _ => mismatch place expected

def signed (w : IntWidth) : Json → Location → Except DecodeError Int :=
  integer w.fitsSigned (.signed w.bits)

def unsigned (w : IntWidth) (j : Json) (place : Location) : Except DecodeError Nat :=
  (integer w.fitsUnsigned (.unsigned w.bits) j place).map Int.toNat

/-- Reads the items in order from the place `index` of a sequence on, up to the first error. -/
def items (read : Json → Location → Except DecodeError α) (place : Location) (index : Nat) :
    List Json → Except DecodeError (List α)
  | [] => .ok []
  | j :: rest => do
    let a ← read j (.element place index)
    return a :: (← items read place (index + 1) rest)

def seq (read : Json → Location → Except DecodeError α) (j : Json) (place : Location) :
    Except DecodeError (List α) :=
  match j with
  | .array js => items read place 0 js
  | _ => mismatch place .array

/-- Reads the entries of a mapping in the order of the document, up to the first error. -/
def entries (read : Json → Location → Except DecodeError α) (place : Location) :
    List (String × Json) → Except DecodeError (List (String × α))
  | [] => .ok []
  | (key, j) :: rest => do
    let a ← read j (.entry place key)
    return (key, a) :: (← entries read place rest)

def map (read : Json → Location → Except DecodeError α) (j : Json) (place : Location) :
    Except DecodeError (List (String × α)) :=
  match j with
  | .object members => (entries read place members).map Members.sorted
  | _ => mismatch place .object

/-- The elements of a tuple payload. -/
def array (length : Nat) : Json → Except DecodeError (List Json)
  | .array js => if js.length = length then .ok js else .error (.arityMismatch length js.length)
  | _ => mismatch .payload .array

/-- The members of a struct payload. -/
def object : Json → Except DecodeError (List (String × Json))
  | .object members => .ok members
  | _ => mismatch .payload .object

def field (members : List (String × Json)) (name : String) : Except DecodeError Json :=
  match Members.get? name members with
  | some j => .ok j
  | none => .error (.missingField name)

end TaggedSum.Slot
