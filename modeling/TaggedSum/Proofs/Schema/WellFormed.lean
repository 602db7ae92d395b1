import Mathlib.Data.List.Duplicate
import TaggedSum.Proofs.Schema.Cycle
import TaggedSum.Proofs.Schema.Loaded

namespace TaggedSum

open Outcome

/-- All fields have names, which are different, or none has one. -/
structure PayloadFormed (fields : List Field) : Prop where
  uniform : (∀ f ∈ fields, f.name.isSome) ∨ ∀ f ∈ fields, f.name = none
  named : ∀ f ∈ fields, ∀ n, f.name = some n → Text.MemberName n
  names_nodup : (fields.filterMap (·.name)).Nodup

/-- Variants have names and tags of their own. -/
structure Enum.Formed (e : Enum) : Prop where
  named : ∀ v ∈ e.variants, Text.MemberName v.name
  names_nodup : (e.variants.map (·.name)).Nodup
  tags_nodup : (e.variants.map (·.wireTag)).Nodup

/-- The lists of fields that the definition declares. -/
def Definition.payloads : Definition → List (List Field)
  | .enum e => e.variants.map (·.fields)
  | .struct t => [t.fields]

theorem Definition.mem_fields {d : Definition} {f : Field} :
    f ∈ d.fields ↔ ∃ fields ∈ d.payloads, f ∈ fields := by
  cases d <;> simp [Definition.fields, Definition.payloads]

namespace Schema

structure WellFormed (s : Schema) : Prop where
  identifiers : ∀ d ∈ s.definitions, Text.Identifier d.name
  unreserved : ∀ d ∈ s.definitions, d.name ∉ reservedNames
  apart : ∀ d ∈ s.definitions, ∀ e ∈ s.enums, d.name ≠ e.name ++ "Handlers"
  names_nodup : (s.definitions.map Definition.name).Nodup
  enums : ∀ e ∈ s.enums, e.Formed
  payloads : ∀ d ∈ s.definitions, ∀ fields ∈ d.payloads, PayloadFormed fields
  references : ∀ d ∈ s.definitions, ∀ n, d.RefersTo n → n ∈ s.definitions.map Definition.name

/-- The schema has been loaded from a text or started empty, and then definitions may have been
added one by one. -/
inductive Built : Schema → Prop
  | empty (package : String) : Built (.empty package)
  | ofXml {source : String} {s : Schema} (h : Schema.ofXml source = .ok s) : Built s
  | ofJson {source : String} {s : Schema} (h : Schema.ofJson source = .ok s) : Built s
  | add {s : Schema} (h : Built s) (d : Definition) : Built (s.add d)
  | headed {s : Schema} (h : Built s) (package : String) (description : Option String) :
      Built { s with package := package, description := description }

variable {s : Schema} {owner : String} {fields : List Field} {d : Definition}

theorem Built.unlisted (h : s.Built) : s.unlisted = 0 := by
  induction h with
  | empty => rfl
  | ofXml h => exact (loaded_of_ofXml h).unlisted
  | ofJson h => exact (loaded_of_ofJson h).unlisted
  | add _ _ ih => exact ih
  | headed _ _ _ ih => exact ih

theorem Built.has_iff (h : s.Built) {name : String} :
    s.has name ↔ name ∈ s.definitions.map Definition.name := by
  refine ⟨mem_names_of_has, fun hn => ?_⟩
  obtain ⟨package, description, ds, unlisted⟩ := s
  obtain rfl : unlisted = 0 := h.unlisted
  exact has_ofDefinitions hn

theorem classify_eq_ok_iff : (∃ shape, classify owner fields = .ok shape) ↔
    (∀ f ∈ fields, f.name.isSome) ∨ ∀ f ∈ fields, f.name = none := by
  unfold classify
  by_cases hnone : ∀ f ∈ fields, f.name = none
  · have hall : fields.all (·.name.isNone) := by simpa using hnone
    refine iff_of_true ?_ (.inr hnone)
    rw [if_pos hall]
    split <;> exact ⟨_, rfl⟩
  · have hall : ¬fields.all (·.name.isNone) := by simpa using hnone
    rw [if_neg hall, ← List.all_eq_true]
    by_cases hsome : fields.all (·.name.isSome) <;> simp [hsome, hnone]

theorem payloadChecked_iff (h : s.Built) : PayloadChecked s owner fields ↔
    PayloadFormed fields ∧
      ∀ f ∈ fields, ∀ n, f.type.Mentions n → n ∈ s.definitions.map Definition.name := by
  constructor
  · rintro ⟨hc, hn, hd, hr⟩
    refine ⟨⟨classify_eq_ok_iff.mp hc, fun f hf n hfn => ?_, hd⟩, fun f hf n hfn => ?_⟩
    · exact Text.isMemberName_iff.mp (hn n (List.mem_filterMap.mpr ⟨f, hf, hfn⟩))
    · exact mem_names_of_has (hr f hf n (FieldType.mentions_iff.mp hfn))
  · rintro ⟨⟨hc, hn, hd⟩, hr⟩
    refine ⟨classify_eq_ok_iff.mpr hc, fun n hfn => ?_, hd, fun f hf n hfn => ?_⟩
    · obtain ⟨f, hf, hfn⟩ := List.mem_filterMap.mp hfn
      exact Text.isMemberName_iff.mpr (hn f hf n hfn)
    · exact h.has_iff.mpr (hr f hf n (FieldType.mentions_iff.mpr hfn))

theorem checkDefinition_eq_ok_iff (h : s.Built) : checkDefinition s d = .ok () ↔
    (∀ e, d.enum? = some e → e.Formed) ∧ (∀ fields ∈ d.payloads, PayloadFormed fields) ∧
      ∀ n, d.RefersTo n → n ∈ s.definitions.map Definition.name := by
  have hrefs : (∀ n, d.RefersTo n → n ∈ s.definitions.map Definition.name) ↔
      ∀ fields ∈ d.payloads, ∀ f ∈ fields, ∀ n, f.type.Mentions n →
        n ∈ s.definitions.map Definition.name := by
    simp only [Definition.RefersTo, Definition.mem_fields]
    constructor
    · exact fun h fields hfields f hf n hn => h n ⟨f, ⟨fields, hfields, hf⟩, hn⟩
    · rintro h n ⟨f, ⟨fields, hfields, hf⟩, hn⟩
      exact h fields hfields f hf n hn
  rw [hrefs]
  cases d with
  | enum e =>
    simp only [checkDefinition, checkVariants_eq_ok_iff, payloadChecked_iff h,
      Definition.enum?, Definition.payloads, List.forall_mem_map, Text.isMemberName_iff]
    constructor
    · rintro ⟨hall, hn, ht⟩
      refine ⟨?_, fun v hv => (hall v hv).2.2.2.1, fun v hv => (hall v hv).2.2.2.2⟩
      rintro _ ⟨⟩
      exact ⟨fun v hv => (hall v hv).1, hn, ht⟩
    · rintro ⟨he, hp, hr⟩
      obtain ⟨hnames, hn, ht⟩ := he e rfl
      refine ⟨fun v hv => ⟨hnames v hv, ?_, ?_, hp v hv, hr v hv⟩, hn, ht⟩
      · exact List.not_mem_nil
      · exact List.not_mem_nil
  | struct t =>
    simp [checkDefinition, checkPayload_eq_ok_iff, payloadChecked_iff h, Definition.enum?,
      Definition.payloads]

theorem mem_enums {e : Enum} : e ∈ s.enums ↔ ∃ d ∈ s.definitions, d.enum? = some e :=
  List.mem_filterMap

theorem validate_iff_wellFormed (h : s.Built) : s.validate = .ok () ↔ s.WellFormed := by
  rw [validate_eq_ok_iff, checkNames_eq_ok_iff]
  simp only [checkDefinition_eq_ok_iff h, Text.isIdentifier_iff]
  constructor
  · rintro ⟨⟨hnames, hn⟩, hd⟩
    constructor
    case identifiers => exact fun d hmem => (hnames d hmem).1
    case unreserved => exact fun d hmem => (hnames d hmem).2.1
    case apart =>
      intro d hmem e he hne
      exact (hnames d hmem).2.2.1 (hne ▸ List.mem_map_of_mem (f := Enum.handlersName) he)
    case names_nodup => exact hn
    case enums =>
      intro e he
      obtain ⟨d, hmem, hde⟩ := mem_enums.mp he
      exact (hd d hmem).1 e hde
    case payloads => exact fun d hmem => (hd d hmem).2.1
    case references => exact fun d hmem => (hd d hmem).2.2
  · rintro ⟨hi, hu, ha, hn, he, hp, hr⟩
    refine ⟨⟨fun d hmem => ⟨hi d hmem, hu d hmem, ?_, List.not_mem_nil⟩, hn⟩, fun d hmem => ?_⟩
    · intro hne
      obtain ⟨e, hmem', hne⟩ := List.mem_map.mp hne
      exact ha d hmem e hmem' hne.symm
    · exact ⟨fun e hde => he e (mem_enums.mpr ⟨d, hmem, hde⟩), hp d hmem, hr d hmem⟩

end Schema

namespace Resolved

variable {enum : String} {seen : List String} {vs : List TaggedSum.Variant} {e : SchemaError}

/-- The names of the handlers of an enum. -/
def handlerNames (vs : List TaggedSum.Variant) : List String :=
  vs.map fun v => Text.snakeCase v.name

/-- Variants whose payloads have shapes fail only where a name of a handler comes again. -/
theorem ofVariants_eq_error (hs : ∀ v ∈ vs, ∃ shape, v.shape = .ok shape)
    (h : ofVariants enum seen vs = .error e) : ∃ handler, e = .duplicateHandler enum handler ∧
      ((handler ∈ seen ∧ handler ∈ handlerNames vs) ∨ List.Duplicate handler (handlerNames vs)) := by
  induction vs generalizing seen with
  | nil => cases h
  | cons v vs ih =>
    obtain ⟨⟨shape, hshape⟩, hs⟩ := List.forall_mem_cons.mp hs
    by_cases hseen : Text.snakeCase v.name ∈ seen
    · simp only [ofVariants, List.contains_iff_mem, hseen, if_true, throw_def, error_bind] at h
      cases h
      exact ⟨_, rfl, .inl ⟨hseen, List.mem_cons_self⟩⟩
    · simp only [ofVariants, List.contains_iff_mem, hseen, if_false, pure_def, hshape, ok_bind,
        bind_ok_eq_error] at h
      obtain ⟨handler, rfl, hdup⟩ := ih hs h
      refine ⟨handler, rfl, ?_⟩
      rcases hdup with ⟨hmem, hvs⟩ | hdup
      · rcases List.mem_cons.mp hmem with rfl | hmem
        · exact .inr (.cons_mem hvs)
        · exact .inl ⟨hmem, List.mem_cons_of_mem _ hvs⟩
      · exact .inr (.cons_duplicate hdup)

namespace Definition

theorem ofDefinition_eq_error {d : TaggedSum.Definition}
    (hp : ∀ fields ∈ d.payloads, ∀ owner, ∃ shape, classify owner fields = .ok shape)
    (h : ofDefinition d = .error e) : ∃ en, d.enum? = some en ∧ ∃ handler,
      e = .duplicateHandler en.name handler ∧
        List.Duplicate handler (handlerNames en.variants) := by
  cases d with
  | enum en =>
    obtain ⟨handler, rfl, ⟨hmem, -⟩ | hdup⟩ := ofVariants_eq_error
      (fun v hv => hp v.fields (List.mem_map_of_mem hv) v.name) (bind_ok_eq_error.mp h)
    · cases hmem
    · exact ⟨en, rfl, handler, rfl, hdup⟩
  | struct t =>
    obtain ⟨shape, hshape⟩ := hp t.fields (List.mem_singleton_self _) t.name
    rw [ofDefinition, TaggedSum.Struct.shape, hshape] at h
    cases h

theorem ofDefinitions_eq_error {ds : List TaggedSum.Definition}
    (h : ofDefinitions ds = .error e) : ∃ d ∈ ds, ofDefinition d = .error e := by
  induction ds with
  | nil => cases h
  | cons d ds ih =>
    rcases bind_eq_error.mp h with hd | ⟨r, -, h⟩
    · exact ⟨d, List.mem_cons_self, hd⟩
    · obtain ⟨d', hmem, hd'⟩ := ih (bind_ok_eq_error.mp h)
      exact ⟨d', List.mem_cons_of_mem _ hmem, hd'⟩

end Definition

theorem Schema.ofSchema_eq_error {s : TaggedSum.Schema} (hv : s.validate = .ok ())
    (hp : ∀ d ∈ s.definitions, ∀ fields ∈ d.payloads, PayloadFormed fields)
    (h : Schema.ofSchema s = .error e) :
    (∃ path, e = .circularReference path ∧ s.IsCycle path) ∨
      ∃ en ∈ s.enums, ∃ handler, e = .duplicateHandler en.name handler ∧
        List.Duplicate handler (handlerNames en.variants) := by
  have hs := TaggedSum.Schema.linked_of_validate hv
  rw [Schema.ofSchema, hv, ok_bind] at h
  rcases bind_eq_error.mp h with ho | ⟨ds, hds, h⟩
  · exact .inl (TaggedSum.Schema.exists_cycle hs ho)
  · obtain ⟨d, hd, hde⟩ := Definition.ofDefinitions_eq_error (bind_ok_eq_error.mp h)
    have hmem := (TaggedSum.Schema.mem_dependencyOrder hs hds).mp hd
    have hshapes : ∀ fields ∈ d.payloads, ∀ owner, ∃ shape, classify owner fields = .ok shape :=
      fun fields hf _ => TaggedSum.Schema.classify_eq_ok_iff.mpr (hp d hmem fields hf).uniform
    obtain ⟨en, hen, hcollide⟩ := Definition.ofDefinition_eq_error hshapes hde
    exact .inr ⟨en, TaggedSum.Schema.mem_enums.mpr ⟨d, hmem, hen⟩, hcollide⟩

end Resolved

namespace Schema

/-- The checks accept exactly the well-formed schemas, and leave only cycles of references and
handlers of one name for resolving to refuse. -/
theorem validate_exact {s : Schema} (h : s.Built) :
    (s.validate = .ok () ↔ s.WellFormed) ∧
      (s.validate = .ok () → ∀ e, Resolved.Schema.ofSchema s = .error e →
        (∃ path, e = .circularReference path ∧ s.IsCycle path) ∨
          ∃ en ∈ s.enums, ∃ handler, e = .duplicateHandler en.name handler ∧
            List.Duplicate handler (Resolved.handlerNames en.variants)) := by
  refine ⟨validate_iff_wellFormed h, fun hv e he => ?_⟩
  exact Resolved.Schema.ofSchema_eq_error hv ((validate_iff_wellFormed h).mp hv).payloads he

namespace Clashing

def point : Definition :=
  .struct ⟨"Point", none, [⟨some "x", .signed .w32, none⟩, ⟨some "y", .signed .w32, none⟩]⟩

def shape : Definition :=
  .enum ⟨"Shape", none, [⟨"FilledDot", some "dot", none, [⟨none, .reference "Point", none⟩]⟩,
    ⟨"Filled_dot", none, none, [⟨none, .seq (.reference "Point"), none⟩]⟩]⟩

/-- Two variants of different names whose handlers share one. -/
def schema : Schema := ((empty "shapes").add shape).add point

theorem built_schema : schema.Built := ((Built.empty "shapes").add shape).add point

theorem validate_schema : schema.validate = .ok () := by decide +kernel

theorem ofSchema_schema :
    Resolved.Schema.ofSchema schema = .error (.duplicateHandler "Shape" "filled_dot") := by
  have hd : schema.dependencyOrder = .ok [point, shape] := by cbv
  have hr : Resolved.Definition.ofDefinitions [point, shape] =
      .error (.duplicateHandler "Shape" "filled_dot") := by decide +kernel
  rw [Resolved.Schema.ofSchema, validate_schema, ok_bind, hd, ok_bind, hr, error_bind]

end Clashing

theorem validate_exact_clashing : Clashing.schema.Built ∧ Clashing.schema.WellFormed ∧
    ∃ en ∈ Clashing.schema.enums, en.name = "Shape" ∧
      List.Duplicate "filled_dot" (Resolved.handlerNames en.variants) := by
  obtain ⟨hiff, hfail⟩ := validate_exact Clashing.built_schema
  refine ⟨Clashing.built_schema, hiff.mp Clashing.validate_schema, ?_⟩
  obtain ⟨path, he, -⟩ | ⟨en, hen, handler, he, hdup⟩ :=
    hfail Clashing.validate_schema _ Clashing.ofSchema_schema
  · cases he
  · obtain ⟨hname, rfl⟩ := SchemaError.duplicateHandler.inj he
    exact ⟨en, hen, hname.symm, hdup⟩

end Schema

end TaggedSum
