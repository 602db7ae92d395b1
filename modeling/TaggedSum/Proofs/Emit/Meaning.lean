import TaggedSum.Emit.Body
import TaggedSum.Wire.Slot
/-!
The meaning of emitted codecs. Names are looked up where they are bound, `?` ends a function with
its error, a match takes the first arm that fits, and `from_json` and `to_json` run the codec of
their type. A run gets stuck where a name is not bound, an index is out of range, a pattern does not
fit or a type has no codec; calls nest to a bounded depth.
-/
namespace TaggedSum.Emit

/-- A value of an emitted type. Variants and named fields stand under their identifiers. -/
inductive Datum where
  | string (s : String)
  | bool (b : Bool)
  | integer (n : Int)
  | vec (items : List Datum)
  | map (entries : List (String × Datum))
  | enum (type variant : String) (payload : Payload Datum)
  | struct (type : String) (payload : Payload Datum)

/-- What a run of a reader gives: nothing where it gets stuck. -/
abbrev Run (α : Type) := ExceptT DecodeError Option α

namespace Run

variable {α : Type}

def of (x : Except DecodeError α) : Run α := some x

@[simp] theorem of_ok_bind {β : Type} (a : α) (f : α → Run β) : (of (.ok a) >>= f) = f a := rfl

/-- What a name is bound to. -/
def bound : Option α → Run α
  | some a => of (.ok a)
  | none => none

@[simp] theorem bound_some (a : α) : bound (some a) = of (.ok a) := rfl

/-- `result.map_err(|error| error.within(place))` -/
def within (place : Location) : Run α → Run α
  | some x => of (x.mapError (.within place))
  | none => none

def items (read : Json → Location → Run α) (place : Location) (index : Nat) :
    List Json → Run (List α)
  | [] => of (.ok [])
  | j :: rest => do
    let a ← read j (.element place index)
    return a :: (← items read place (index + 1) rest)

def entries (read : Json → Location → Run α) (place : Location) :
    List (String × Json) → Run (List (String × α))
  | [] => of (.ok [])
  | (key, j) :: rest => do
    let a ← read j (.entry place key)
    return (key, a) :: (← entries read place rest)

/-- `wire::decode_seq`, where the closure may get stuck -/
def seq (read : Json → Location → Run α) (j : Json) (place : Location) : Run (List α) :=
  match j with
  | .array js => items read place 0 js
  | _ => of (Slot.mismatch place .array)

/-- `wire::decode_map`, where the closure may get stuck -/
def map (read : Json → Location → Run α) (j : Json) (place : Location) :
    Run (List (String × α)) :=
  match j with
  | .object members => do return Members.sorted (← entries read place members)
  | _ => of (Slot.mismatch place .object)

end Run

/-- What the names in a reader are bound to, the innermost binding first. -/
structure Scope where
  documents : List (String × Json)
  places : List (String × Location)
  items : Option (List Json)
  object : Option (List (String × Json))

namespace Scope

/-- The scope of a body whose parameter or pattern binds `name`. -/
def ofDocument (name : String) (j : Json) : Scope := ⟨[(name, j)], [], none, none⟩

/-- The scope of the closure `|item, at|`. -/
def each (s : Scope) (j : Json) (place : Location) : Scope :=
  { s with documents := ("item", j) :: s.documents, places := ("at", place) :: s.places }

end Scope

def Operand.run (s : Scope) : Operand → Run Json
  | name x => .bound (Members.get? x s.documents)
  | element i => .bound (s.items.bind (·[i]?))
  | member key => do
    let object ← .bound s.object
    .of (Slot.field object key)

def PlaceTerm.run (s : Scope) : PlaceTerm → Run Location
  | name x => .bound (Members.get? x s.places)
  | index i => .of (.ok (.index i))
  | field key => .of (.ok (.name key))

/-- Runs a reader, where `call` runs `from_json` of a type. -/
def ReadExpr.run (call : String → Json → Run Datum) : ReadExpr → Scope → Run Datum
  | string j place, s => do
    let j ← j.run s
    let place ← place.run s
    .of ((Slot.string j place).map .string)
  | bool j place, s => do
    let j ← j.run s
    let place ← place.run s
    .of ((Slot.bool j place).map .bool)
  | signed w j place, s => do
    let j ← j.run s
    let place ← place.run s
    .of ((Slot.signed w j place).map .integer)
  | unsigned w j place, s => do
    let j ← j.run s
    let place ← place.run s
    .of ((Slot.unsigned w j place).map fun (n : Nat) => .integer n)
  | definition type j place, s => do
    let j ← j.run s
    let place ← place.run s
    (call type j).within place
  | seq j place item, s => do
    let j ← j.run s
    let place ← place.run s
    return .vec (← Run.seq (fun j at' => item.run call (s.each j at')) j place)
  | map j place entry, s => do
    let j ← j.run s
    let place ← place.run s
    return .map (← Run.map (fun j at' => entry.run call (s.each j at')) j place)

/-- Runs the readers of unnamed members in order. -/
def runElements (call : String → Json → Run Datum) (s : Scope) :
    List ReadExpr → Run (List Datum)
  | [] => .of (.ok [])
  | e :: es => do
    let d ← e.run call s
    return d :: (← runElements call s es)

/-- Runs the readers of named members in order, and puts what they give under identifiers. -/
def runMembers (call : String → Json → Run Datum) (s : Scope) :
    List (String × ReadExpr) → Run (List (String × Datum))
  | [] => .of (.ok [])
  | (name, e) :: es => do
    let d ← e.run call s
    return (identifier name, d) :: (← runMembers call s es)

/-- Runs the lines that build a payload from the document named `source`. -/
def runPayload (call : String → Json → Run Datum) (source : String) (s : Scope) :
    Payload ReadExpr → Run (Payload Datum)
  | .unit => .of (.ok .unit)
  | .newtype e => do return .newtype (← e.run call s)
  | .tuple es => do
    let j ← .bound (Members.get? source s.documents)
    let items ← .of (Slot.array es.length j)
    return .tuple (← runElements call { s with items := some items } es)
  | .struct es => do
    let j ← .bound (Members.get? source s.documents)
    let object ← .of (Slot.object j)
    return .struct (← runMembers call { s with object := some object } es)

def ChoiceReader.run (call : String → Json → Run Datum) (type : String) (r : ChoiceReader)
    (j : Json) : Run Datum := do
  match ← .of (Tagged.ofJson r.extraKeys r.tags j) with
  | .bare tag =>
    match r.bare.find? (·.tag = tag) with
    | some a => return .enum type a.variant .unit
    | none => .of (.error (.unknownUnitTag tag))
  | .wrapped tag payload =>
    match r.wrapped.find? (·.tag = tag) with
    | some a =>
      return .enum type a.variant
        (← runPayload call "payload" (.ofDocument "payload" payload) a.payload)
    | none =>
      if r.refused.contains tag then .of (.error .unrecognizedShape)
      else .of (.error (.unknownVariantTag tag))

/-- Runs a writer in the scope of some names, where `call` runs `to_json` of a value. -/
def WriteExpr.run (call : Datum → Option Json) : WriteExpr → List (String × Datum) → Option Json
  | string x, s =>
    match Members.get? x s with
    | some (.string t) => some (.string t)
    | _ => none
  | integer x, s =>
    match Members.get? x s with
    | some (.integer n) => some (.number (.integer n))
    | _ => none
  | bool x, s =>
    match Members.get? x s with
    | some (.bool b) => some (.bool b)
    | _ => none
  | definition x, s => (Members.get? x s).bind call
  | seq x item, s =>
    match Members.get? x s with
    | some (.vec ds) => (ds.mapM fun d => item.run call (("item", d) :: s)).map .array
    | _ => none
  | map x entry, s =>
    match Members.get? x s with
    | some (.map es) =>
      (es.mapM fun (key, d) =>
        (entry.run call (("item", d) :: ("key", .string key) :: s)).map (key, ·)).map
          fun members => .object (Members.merge members)
    | _ => none

/-- Binds the members of a payload to slot names; named members are found by their identifiers. -/
def bind {α : Type} : Payload α → Payload Datum → Option (List (String × Datum))
  | .unit, .unit => some []
  | .newtype _, .newtype d => some [(slotName 0, d)]
  | .tuple es, .tuple ds =>
    if es.length = ds.length then some ((slotNames es.length).zip ds) else none
  | .struct es, .struct ds =>
    (es.mapM fun e => Members.get? (identifier e.1) ds).map ((slotNames es.length).zip ·)
  | _, _ => none

/-- Runs the expression that writes a payload whose members are bound. -/
def runWritten (call : Datum → Option Json) (s : List (String × Datum)) :
    Payload WriteExpr → Option Json
  | .unit => some .null
  | .newtype e => e.run call s
  | .tuple es => (es.mapM fun e => WriteExpr.run call e s).map .array
  | .struct es =>
    (es.mapM fun m => (WriteExpr.run call m.2 s).map (m.1, ·)).map
      fun members => .object (Members.merge members)

def ChoiceWriter.run (call : Datum → Option Json) (w : ChoiceWriter) (variant : String)
    (payload : Payload Datum) : Option Json := do
  let a ← w.arms.find? (·.variant = variant)
  let s ← bind a.payload payload
  match a.payload with
  | .unit => return .string a.tag
  | writer => return (Tagged.wrapped a.tag (← runWritten call s writer)).toJson

namespace Impl

def type : Impl → String
  | enum type _ _ => type
  | record type _ _ => type

def toJson (call : Datum → Option Json) : Impl → Datum → Option Json
  | enum _ _ writer, .enum _ variant payload => writer.run call variant payload
  | record _ _ writer, .struct _ payload => do runWritten call (← bind writer payload) writer
  | _, _ => none

end Impl

/-- The codecs of a schema as they are emitted. -/
abbrev Program := List Impl

namespace Program

def ofPlan (p : CodecPlan) : Program := p.codecs.map (.ofCodec p.extraKeys)

/-- `to_json` of a value, with calls that nest less deep than `depth`. -/
def toJson (program : Program) : Nat → Datum → Option Json
  | 0, _ => none
  | depth + 1, d => do
    let type ← match d with
      | .enum type _ _ => some type
      | .struct type _ => some type
      | _ => none
    let impl ← program.find? (·.type = type)
    impl.toJson (program.toJson depth) d

end Program

end TaggedSum.Emit
