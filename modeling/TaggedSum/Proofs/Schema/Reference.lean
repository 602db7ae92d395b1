import Mathlib.Logic.Relation
import TaggedSum.Proofs.Schema.Resolved

namespace TaggedSum

/-- The type is a reference to the name, or holds a type that mentions it. -/
inductive FieldType.Mentions (name : String) : FieldType → Prop
  | reference : Mentions name (.reference name)
  | seq {t : FieldType} (h : Mentions name t) : Mentions name (.seq t)
  | map {t : FieldType} (h : Mentions name t) : Mentions name (.map t)

theorem FieldType.mentions_iff {t : FieldType} {name : String} :
    t.Mentions name ↔ t.reference? = some name := by
  constructor
  · intro h
    induction h with
    | reference => rfl
    | seq _ ih => exact ih
    | map _ ih => exact ih
  · intro h
    induction t with
    | reference other =>
      obtain rfl := Option.some.inj h
      exact .reference
    | seq t ih => exact .seq (ih h)
    | map t ih => exact .map (ih h)
    | _ => cases h

/-- The type is a mapping, or a sequence of a type that holds one. -/
inductive FieldType.HoldsMap : FieldType → Prop
  | map {t : FieldType} : HoldsMap (.map t)
  | seq {t : FieldType} (h : HoldsMap t) : HoldsMap (.seq t)

/-- Some field of the definition mentions the name. -/
def Definition.RefersTo (d : Definition) (name : String) : Prop :=
  ∃ f ∈ d.fields, f.type.Mentions name

theorem Definition.refersTo_iff {d : Definition} {name : String} :
    d.RefersTo name ↔ name ∈ d.references := by
  simp only [Definition.RefersTo, Definition.references, List.mem_filterMap,
    FieldType.mentions_iff]

namespace Schema

/-- A definition of the first name refers to the second. -/
def Refers (s : Schema) (a b : String) : Prop := ∃ d ∈ s.definitions, d.name = a ∧ d.RefersTo b

/-- A chain of references, which may be empty, leads from the first name to the second. -/
def Reaches (s : Schema) : String → String → Prop := Relation.ReflTransGen s.Refers

variable {s s' : Schema} {a b : String}

/-- Names that are closed under references hold all that they reach. -/
theorem Reaches.mem_of_closed {names : List String} (ha : a ∈ names)
    (hc : ∀ d ∈ s.definitions, d.name ∈ names → ∀ r ∈ d.references, r ∈ names)
    (h : s.Reaches a b) : b ∈ names := by
  induction h with
  | refl => exact ha
  | tail _ hbc ih =>
    obtain ⟨d, hd, rfl, hr⟩ := hbc
    exact hc d hd ih _ (Definition.refersTo_iff.mp hr)

/-- The definition is the named one, or a chain of references leads to it. -/
def Needs (s : Schema) (name : String) (d : Definition) : Prop :=
  d ∈ s.definitions ∧ s.Reaches name d.name

/-- What a name reaches depends only on the definitions that it needs. -/
theorem Reaches.of_needs (h : ∀ d, s.Needs a d → s'.Needs a d) (hb : s.Reaches a b) :
    s'.Reaches a b := by
  induction hb with
  | refl => exact .refl
  | tail hab hbc ih =>
    obtain ⟨d, hd, rfl, hr⟩ := hbc
    exact ih.tail ⟨d, (h d ⟨hd, hab⟩).1, rfl, hr⟩

end Schema

namespace Resolved.Definition

def fields : Definition → List Field
  | enum e => e.variants.flatMap (·.fields)
  | struct t => t.fields

def RefersTo (r : Definition) (name : String) : Prop := ∃ f ∈ r.fields, f.type.Mentions name

variable {d : TaggedSum.Definition} {r : Definition}

theorem fields_variants {vs : List TaggedSum.Variant} {ws : List Variant}
    (h : List.Forall₂ TaggedSum.Variant.Resolves vs ws) :
    ws.flatMap (·.fields) = vs.flatMap (·.fields) := by
  induction h with
  | nil => rfl
  | @cons v w _ _ h _ ih =>
    have hf : w.fields = v.fields := by rw [h.2]
    simp only [List.flatMap_cons, ih, hf]

theorem fields_eq (h : ofDefinition d = .ok r) : r.fields = d.fields := by
  cases d with
  | enum e =>
    obtain ⟨vs, hvs, rfl⟩ := Resolved.ofDefinition_enum h
    exact fields_variants hvs
  | struct t =>
    obtain ⟨shape, -, rfl⟩ := Resolved.ofDefinition_struct h
    rfl

end Resolved.Definition

end TaggedSum
