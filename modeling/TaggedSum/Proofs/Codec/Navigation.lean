import TaggedSum.Codec.Plan
import TaggedSum.Value

namespace TaggedSum

/-- What a location leads to, and what is declared there. -/
inductive Spot (α β : Type) where
  | payload (layout : Layout) (content : β)
  | slot (type : FieldType) (content : α)

/-- How the parts of documents or values are found, `α`, and those of their payloads, `β`. -/
structure Parts (α β : Type) where
  /-- What the place of a whole payload stands for. -/
  whole? : Codec → α → Option (Spot α β)
  payload? : Codec → α → Option (Layout × β)
  index? : Layout → β → Nat → Option (FieldType × α)
  member? : Layout → β → String → Option (FieldType × α)
  element? : α → Nat → Option α
  entry? : α → String → Option α

namespace Parts

variable {α β : Type}

/-- What a location leads to from `a` as an instance of a definition, where `codecs` finds what
references name. -/
def follow? (parts : Parts α β) (codecs : String → Option Codec) :
    Location → Codec → α → Option (Spot α β)
  | .payload, c, a => parts.whole? c a
  | .index n, c, a => do
    let (layout, b) ← parts.payload? c a
    let (t, x) ← parts.index? layout b n
    return .slot t x
  | .name s, c, a => do
    let (layout, b) ← parts.payload? c a
    let (t, x) ← parts.member? layout b s
    return .slot t x
  | .element field n, c, a =>
    match follow? parts codecs field c a with
    | some (.slot (.seq t) x) => (parts.element? x n).map (.slot t)
    | _ => none
  | .entry field key, c, a =>
    match follow? parts codecs field c a with
    | some (.slot (.map t) x) => (parts.entry? x key).map (.slot t)
    | _ => none
  | .nested field inner, c, a =>
    match follow? parts codecs field c a with
    | some (.slot (.reference name) x) => do follow? parts codecs inner (← codecs name) x
    | _ => none

variable {parts : Parts α β} {codecs : String → Option Codec} {c : Codec} {a x y : α} {b : β}
  {l : Layout} {t : FieldType} {field : Location}

theorem follow?_index {n : Nat} (hb : parts.payload? c a = some (l, b))
    (hx : parts.index? l b n = some (t, x)) :
    parts.follow? codecs (.index n) c a = some (.slot t x) := by
  simp [follow?, hb, hx]

theorem follow?_name {s : String} (hb : parts.payload? c a = some (l, b))
    (hx : parts.member? l b s = some (t, x)) :
    parts.follow? codecs (.name s) c a = some (.slot t x) := by
  simp [follow?, hb, hx]

theorem follow?_element {n : Nat} (h : parts.follow? codecs field c a = some (.slot (.seq t) x))
    (hy : parts.element? x n = some y) :
    parts.follow? codecs (.element field n) c a = some (.slot t y) := by
  simp [follow?, h, hy]

theorem follow?_entry {key : String}
    (h : parts.follow? codecs field c a = some (.slot (.map t) x))
    (hy : parts.entry? x key = some y) :
    parts.follow? codecs (.entry field key) c a = some (.slot t y) := by
  simp [follow?, h, hy]

theorem follow?_nested {name : String} {d : Codec} (inner : Location)
    (h : parts.follow? codecs field c a = some (.slot (.reference name) x))
    (hd : codecs name = some d) :
    parts.follow? codecs (.nested field inner) c a = parts.follow? codecs inner d x := by
  simp [follow?, h, hd]

end Parts

/-- The payload of an enum's document stands under its tag, that of a struct is the document, and
the payload of a newtype is its member. -/
def Json.payload? (ek : ExtraKeys) : Codec → Json → Option (Layout × Json)
  | .record r, j => some (r.layout, j)
  | .enum e, j =>
    match Tagged.ofJson ek e.tags j with
    | .ok (.wrapped tag payload) => (e.variant? tag).map fun v => (v.layout, payload)
    | _ => none

/-- The parts of documents. -/
def Json.parts (ek : ExtraKeys) : Parts Json Json where
  whole? c j := (payload? ek c j).map fun (layout, payload) => .payload layout payload
  payload? := payload? ek
  index?
    | .newtype t, j, 0 => some (t, j)
    | .tuple ts, .array js, n => do return (← ts[n]?, ← js[n]?)
    | _, _, _ => none
  member?
    | .struct fields, .object ms, s => do return (← Members.get? s fields, ← Members.get? s ms)
    | _, _, _ => none
  element?
    | .array js, n => js[n]?
    | _, _ => none
  entry?
    | .object ms, key => Members.get? key ms
    | _, _ => none

/-- The parts of values. The place of the whole payload is that of the value. -/
def Value.parts : Parts Value (Payload Value) where
  whole? c v := some (.slot (.reference c.name) v)
  payload?
    | .record r, .record a => some (r.layout, a)
    | .enum e, .variant a => (e.variant? a.tag).map fun v => (v.layout, a.payload)
    | _, _ => none
  index?
    | .newtype t, .newtype v, 0 => some (t, v)
    | .tuple ts, .tuple vs, n => do return (← ts[n]?, ← vs[n]?)
    | _, _, _ => none
  member?
    | .struct fields, .struct values, s => do
      return (← Members.get? s fields, ← Members.get? s values)
    | _, _, _ => none
  element?
    | .seq vs, n => vs[n]?
    | _, _ => none
  entry?
    | .map es, key => Members.get? key es
    | _, _ => none

namespace CodecPlan

/-- What a location leads to in a document of the named definition. -/
def followJson? (p : CodecPlan) (name : String) (place : Location) (j : Json) :
    Option (Spot Json Json) := do
  (Json.parts p.extraKeys).follow? p.get? place (← p.get? name) j

/-- What a location leads to in a value of the named definition. -/
def followValue? (p : CodecPlan) (name : String) (place : Location) (v : Value) :
    Option (Spot Value (Payload Value)) := do
  Value.parts.follow? p.get? place (← p.get? name) v

end CodecPlan

end TaggedSum
