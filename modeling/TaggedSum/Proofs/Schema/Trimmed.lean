import TaggedSum.Proofs.Schema.Element
import TaggedSum.Proofs.Schema.Spelling

namespace TaggedSum

open Outcome

def Field.trimmed (f : Field) : Field :=
  { f with docs := f.docs.bind fun d =>
      if (Text.trim d.toList).isEmpty then none else some (Text.trimmed d) }

def Variant.trimmed (v : Variant) : Variant := { v with fields := v.fields.map Field.trimmed }

def Enum.trimmed (e : Enum) : Enum := { e with variants := e.variants.map Variant.trimmed }

def Struct.trimmed (s : Struct) : Struct := { s with fields := s.fields.map Field.trimmed }

def Definition.trimmed : Definition → Definition
  | enum e => enum e.trimmed
  | struct s => struct s.trimmed

def Schema.trimmed (s : Schema) : Schema :=
  { s with definitions := s.definitions.map Definition.trimmed }

section Trimmed

@[simp] theorem Field.trimmed_trimmed (f : Field) : f.trimmed.trimmed = f.trimmed := by
  obtain ⟨name, type, docs⟩ := f
  cases docs with
  | none => rfl
  | some d =>
    by_cases hd : Text.trim d.toList = []
    · simp [trimmed, hd]
    · simp [trimmed, hd, Text.trimmed, FieldType.trim_trim]

theorem map_trimmed_trimmed (fields : List Field) :
    (fields.map Field.trimmed).map Field.trimmed = fields.map Field.trimmed := by
  simp only [List.map_map, Function.comp_def, Field.trimmed_trimmed]

@[simp] theorem Variant.trimmed_trimmed (v : Variant) : v.trimmed.trimmed = v.trimmed := by
  simp only [trimmed, map_trimmed_trimmed]

@[simp] theorem Enum.trimmed_trimmed (e : Enum) : e.trimmed.trimmed = e.trimmed := by
  simp only [trimmed, List.map_map, Function.comp_def, Variant.trimmed_trimmed]

@[simp] theorem Struct.trimmed_trimmed (s : Struct) : s.trimmed.trimmed = s.trimmed := by
  simp only [trimmed, map_trimmed_trimmed]

@[simp] theorem Definition.trimmed_trimmed (d : Definition) : d.trimmed.trimmed = d.trimmed := by
  cases d with
  | enum e => exact congrArg enum e.trimmed_trimmed
  | struct s => exact congrArg struct s.trimmed_trimmed

@[simp] theorem Schema.trimmed_trimmed (s : Schema) : s.trimmed.trimmed = s.trimmed := by
  simp only [trimmed, List.map_map, Function.comp_def, Definition.trimmed_trimmed]

@[simp] theorem Definition.name_trimmed (d : Definition) : d.trimmed.name = d.name := by
  cases d <;> rfl

@[simp] theorem Definition.kind_trimmed (d : Definition) : d.trimmed.kind = d.kind := by
  cases d <;> rfl

theorem Schema.has_trimmed (s : Schema) (name : String) : s.trimmed.has name = s.has name := by
  simp only [has, get?, trimmed, ← List.map_drop, ← List.map_reverse, List.find?_map,
    Option.isSome_map, Function.comp_def, Definition.name_trimmed]

theorem Schema.trimmed_add (s : Schema) (d : Definition) :
    (s.add d).trimmed = s.trimmed.add d.trimmed := by
  simp only [add, trimmed, List.map_append, List.map_cons, List.map_nil]

end Trimmed

def Owner.trimmed : Owner → Owner
  | variant e v => variant e.trimmed v
  | struct s => struct s

@[simp] theorem Owner.trimmed_trimmed (o : Owner) : o.trimmed.trimmed = o.trimmed := by
  cases o with
  | variant e v => exact congrArg (variant · v) e.trimmed_trimmed
  | struct s => rfl

@[simp] theorem Owner.name_trimmed (o : Owner) : o.trimmed.name = o.name := by
  cases o <;> rfl

namespace Element

open Xml (Event Tag)

/-- A field that is still open keeps its description. -/
def Place.trimmed : Place → Place
  | document => document
  | enum e => enum e.trimmed
  | payload owner fields => payload owner.trimmed (fields.map Field.trimmed)
  | text owner fields f cs => text owner.trimmed (fields.map Field.trimmed) f cs

@[simp] theorem Place.trimmed_trimmed (p : Place) : p.trimmed.trimmed = p.trimmed := by
  cases p <;> simp [Place.trimmed]

namespace State

variable {s s' : State}

def trimmed (s : State) : State := ⟨s.schema.map Schema.trimmed, s.place.trimmed⟩

@[simp] theorem trimmed_trimmed (s : State) : s.trimmed.trimmed = s.trimmed := by
  obtain ⟨sc, place⟩ := s
  cases sc <;> simp [trimmed]

theorem define_trimmed (s : State) {d d' : Definition} (h : d'.trimmed = d.trimmed) :
    (s.trimmed.define d').map trimmed = (s.define d).map trimmed := by
  obtain ⟨sc, place⟩ := s
  cases sc with
  | none => rfl
  | some sc =>
    have hname : d'.name = d.name := by rw [← d'.name_trimmed, h, d.name_trimmed]
    have hkind : d'.kind = d.kind := by rw [← d'.kind_trimmed, h, d.kind_trimmed]
    simp only [define, trimmed, Option.map_some, add, sc.has_trimmed, hname, hkind]
    cases sc.has d.name with
    | true => rfl
    | false => simp [Schema.trimmed_add, h, trimmed]

theorem finish_trimmed (s : State) (owner : Owner) (fields : List Field) :
    (s.trimmed.finish owner.trimmed (fields.map Field.trimmed)).map trimmed =
      (s.finish owner fields).map trimmed := by
  cases owner with
  | variant e v =>
    cases hs : s.schema <;>
      simp [finish, Owner.trimmed, trimmed, Place.trimmed, Enum.trimmed, Variant.trimmed, hs]
  | struct t => exact s.define_trimmed (by simp [Definition.trimmed, Struct.trimmed])

theorem openTop_trimmed (s : State) (t : Tag) (content : Bool) :
    (s.trimmed.openTop t content).map trimmed = (s.openTop t content).map trimmed := by
  obtain ⟨sc, place⟩ := s
  cases sc with
  | none =>
    simp only [openTop, trimmed, Option.map_none]
    by_cases hn : t.name = "sumSchema"
    · simp only [if_pos hn]
      cases Element.schema t <;> simp [trimmed]
    · simp [if_neg hn]
  | some sc =>
    simp only [openTop, trimmed, Option.map_some]
    by_cases he : t.name = "enum"
    · simp only [if_pos he]
      cases Element.enum t with
      | error e => rfl
      | ok e =>
        cases content with
        | true => simp [trimmed, Place.trimmed]
        | false => exact define_trimmed ⟨some sc, place⟩ rfl
    · simp only [if_neg he]
      by_cases hs : t.name = "struct"
      · simp only [if_pos hs]
        cases Element.struct t with
        | error e => rfl
        | ok d =>
          cases content with
          | true => simp [trimmed, Place.trimmed, Owner.trimmed]
          | false => exact define_trimmed ⟨some sc, place⟩ rfl
      · simp [if_neg hs]

theorem openVariant_trimmed (s : State) (e : Enum) (t : Tag) (content : Bool) :
    (s.trimmed.openVariant e.trimmed t content).map trimmed =
      (s.openVariant e t content).map trimmed := by
  simp only [openVariant]
  by_cases hn : t.name = "variant"
  · simp only [if_pos hn]
    cases Element.variant t with
    | error e => rfl
    | ok v =>
      cases content <;> cases hs : s.schema <;>
        simp [trimmed, Place.trimmed, Owner.trimmed, Enum.trimmed, hs]
  · simp [if_neg hn, Enum.trimmed]

theorem openField_trimmed (s : State) (owner : Owner) (fields : List Field) (t : Tag)
    (content : Bool) :
    (s.trimmed.openField owner.trimmed (fields.map Field.trimmed) t content).map trimmed =
      (s.openField owner fields t content).map trimmed := by
  simp only [openField]
  by_cases hn : t.name = "field"
  · simp only [if_pos hn]
    cases Element.field t with
    | error e => rfl
    | ok f => cases content <;> cases hs : s.schema <;> simp [trimmed, Place.trimmed, hs]
  · simp [if_neg hn]

theorem step_trimmed (s : State) (e : Event) :
    (s.trimmed.step e).map trimmed = (s.step e).map trimmed := by
  have hs := s.trimmed_trimmed
  obtain ⟨sc, place⟩ := s
  cases place with
  | document =>
    cases e with
    | start t => exact openTop_trimmed _ t true
    | empty t => exact openTop_trimmed _ t false
    | _ => exact congrArg Except.ok hs
  | enum d =>
    cases e with
    | start t => exact openVariant_trimmed _ d t true
    | empty t => exact openVariant_trimmed _ d t false
    | stop => exact define_trimmed _ (Definition.enum d).trimmed_trimmed
    | _ => exact congrArg Except.ok hs
  | payload owner fields =>
    cases e with
    | start t => exact openField_trimmed _ owner fields t true
    | empty t => exact openField_trimmed _ owner fields t false
    | stop => exact finish_trimmed _ owner fields
    | _ => exact congrArg Except.ok hs
  | text owner fields f cs =>
    cases e with
    | stop => cases sc <;> simp [step, trimmed, Place.trimmed]
    | char c => cases sc <;> simp [step, trimmed, Place.trimmed]
    | reference body =>
      simp only [step, trimmed, Place.trimmed]
      cases Xml.textReference? body <;> cases sc <;> simp [trimmed, Place.trimmed]
    | _ => exact congrArg Except.ok hs

/-- States that are alike but for white space stay so, or both are refused. -/
theorem run_trimmed (h : s.trimmed = s'.trimmed) (es : List Event) :
    (es.foldlM step s).map trimmed = (es.foldlM step s').map trimmed := by
  induction es generalizing s s' with
  | nil => exact congrArg Except.ok h
  | cons e es ih =>
    have hstep : (s.step e).map trimmed = (s'.step e).map trimmed := by
      rw [← step_trimmed s, h, step_trimmed s']
    simp only [List.foldlM_cons]
    cases hs : s.step e with
    | error x =>
      rw [hs, map_error, eq_comm, map_eq_error] at hstep
      rw [hstep]
    | ok r =>
      rw [hs, map_ok, eq_comm, map_eq_ok] at hstep
      obtain ⟨r', hr', ht⟩ := hstep
      rw [hr']
      exact ih ht.symm

end State

theorem exists_load_trimmed {s s' : State} {x : Xml.Stream} {sc : Schema}
    (h : s.trimmed = s'.trimmed) (hl : load s x = .ok sc) :
    ∃ sc', load s' x = .ok sc' ∧ sc.trimmed = sc'.trimmed := by
  obtain ⟨hf, hs⟩ := load_eq_ok.mp hl
  have hrun := State.run_trimmed h x.events
  rw [hs, map_ok, eq_comm, map_eq_ok] at hrun
  obtain ⟨⟨osc, place⟩, hs', ht⟩ := hrun
  obtain ⟨hsc, hp⟩ := State.mk.inj ht
  obtain ⟨sc', rfl, hsc'⟩ := Option.map_eq_some_iff.mp hsc
  obtain rfl : place = .document := by cases place <;> first | rfl | cases hp
  exact ⟨sc', load_eq_ok.mpr ⟨hf, hs'⟩, hsc'.symm⟩

end Element

end TaggedSum
