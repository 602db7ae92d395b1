import TaggedSum.Proofs.Outcome
import TaggedSum.Proofs.Schema.Order
import TaggedSum.Schema.Validation

namespace TaggedSum.Schema

open Outcome

variable {s : Schema} {owner : String}

/-- One check before those of the rest. -/
theorem check_cons_iff {p : Prop} [Decidable p] {e : SchemaError} {rest : Except SchemaError Unit} :
    (if p then .error e else rest) = .ok () ↔ ¬p ∧ rest = .ok () := by
  by_cases h : p <;> simp [h]

theorem checkNames_eq_ok_iff {handlerSets seen : List String} {ds : List Definition} :
    checkNames handlerSets seen ds = .ok () ↔
      (∀ d ∈ ds, Text.isIdentifier d.name ∧ d.name ∉ reservedNames ∧ d.name ∉ handlerSets ∧
        d.name ∉ seen) ∧ (ds.map Definition.name).Nodup := by
  induction ds generalizing seen with
  | nil => simp [checkNames]
  | cons d ds ih =>
    simp only [checkNames, check_cons_iff, ih, List.contains_iff_mem, List.forall_mem_cons,
      List.map_cons, List.nodup_cons, List.mem_map, not_exists, not_and]
    simp only [List.mem_cons, not_or]
    constructor
    · rintro ⟨h₁, h₂, h₃, h₄, hall, hn⟩
      exact ⟨⟨⟨by simpa using h₁, h₂, h₃, h₄⟩, fun e he => ⟨(hall e he).1, (hall e he).2.1,
        (hall e he).2.2.1, (hall e he).2.2.2.2⟩⟩, fun e he => (hall e he).2.2.2.1, hn⟩
    · rintro ⟨⟨⟨h₁, h₂, h₃, h₄⟩, hall⟩, hd, hn⟩
      exact ⟨by simpa using h₁, h₂, h₃, h₄, fun e he => ⟨(hall e he).1, (hall e he).2.1,
        (hall e he).2.2.1, hd e he, (hall e he).2.2.2⟩, hn⟩

theorem checkFieldNames_eq_ok_iff {seen names : List String} :
    checkFieldNames owner seen names = .ok () ↔
      (∀ n ∈ names, Text.isMemberName n ∧ n ∉ seen) ∧ names.Nodup := by
  induction names generalizing seen with
  | nil => simp [checkFieldNames]
  | cons n names ih =>
    simp only [checkFieldNames, check_cons_iff, ih, List.contains_iff_mem, List.forall_mem_cons,
      List.nodup_cons]
    simp only [List.mem_cons, not_or]
    constructor
    · rintro ⟨h₁, h₂, hall, hn⟩
      exact ⟨⟨⟨by simpa using h₁, h₂⟩, fun m hm => ⟨(hall m hm).1, (hall m hm).2.2⟩⟩,
        fun h => (hall n h).2.1 rfl, hn⟩
    · rintro ⟨⟨⟨h₁, h₂⟩, hall⟩, hnew, hn⟩
      exact ⟨by simpa using h₁, h₂,
        fun m hm => ⟨(hall m hm).1, fun he => hnew (he ▸ hm), (hall m hm).2⟩, hn⟩

theorem checkReferences_eq_ok_iff {fields : List Field} :
    checkReferences s owner fields = .ok () ↔
      ∀ f ∈ fields, ∀ r, f.type.reference? = some r → s.has r := by
  induction fields with
  | nil => simp [checkReferences]
  | cons f fields ih =>
    simp only [checkReferences, List.forall_mem_cons]
    cases hf : f.type.reference? with
    | none => simp [ih]
    | some r => by_cases hr : s.has r <;> simp [hr, ih]

/-- What the check of a payload establishes. -/
structure PayloadChecked (s : Schema) (owner : String) (fields : List Field) : Prop where
  classified : ∃ shape, classify owner fields = .ok shape
  memberNames : ∀ n ∈ fields.filterMap (·.name), Text.isMemberName n
  names_nodup : (fields.filterMap (·.name)).Nodup
  references : ∀ f ∈ fields, ∀ r, f.type.reference? = some r → s.has r

theorem checkPayload_eq_ok_iff {fields : List Field} :
    checkPayload s owner fields = .ok () ↔ PayloadChecked s owner fields := by
  have h : checkPayload s owner fields = .ok () ↔ (∃ shape, classify owner fields = .ok shape) ∧
      checkFieldNames owner [] (fields.filterMap (·.name)) = .ok () ∧
      checkReferences s owner fields = .ok () := by
    rw [checkPayload, bind_eq_ok]
    simp only [check_bind_eq_ok, exists_and_right]
  rw [h, checkFieldNames_eq_ok_iff, checkReferences_eq_ok_iff]
  constructor
  · rintro ⟨hc, ⟨hn, hd⟩, hr⟩
    exact ⟨hc, fun n hm => (hn n hm).1, hd, hr⟩
  · rintro ⟨hc, hn, hd, hr⟩
    exact ⟨hc, ⟨fun n hm => ⟨hn n hm, List.not_mem_nil⟩, hd⟩, hr⟩

theorem checkVariants_eq_ok_iff {enum : String} {seenNames seenTags : List String}
    {vs : List Variant} :
    checkVariants s enum seenNames seenTags vs = .ok () ↔
      (∀ v ∈ vs, Text.isMemberName v.name ∧ v.name ∉ seenNames ∧ v.wireTag ∉ seenTags ∧
        PayloadChecked s v.name v.fields) ∧
      (vs.map (·.name)).Nodup ∧ (vs.map (·.wireTag)).Nodup := by
  induction vs generalizing seenNames seenTags with
  | nil => simp [checkVariants]
  | cons v vs ih =>
    have h : checkVariants s enum seenNames seenTags (v :: vs) = .ok () ↔
        ¬(!Text.isMemberName v.name) ∧ v.name ∉ seenNames ∧ v.wireTag ∉ seenTags ∧
        checkPayload s v.name v.fields = .ok () ∧
        checkVariants s enum (v.name :: seenNames) (v.wireTag :: seenTags) vs = .ok () := by
      by_cases h₁ : Text.isMemberName v.name <;> by_cases h₂ : v.name ∈ seenNames <;>
        by_cases h₃ : v.wireTag ∈ seenTags <;>
        simp [checkVariants, h₁, h₂, h₃, check_bind_eq_ok]
    rw [h, checkPayload_eq_ok_iff, ih]
    simp only [List.forall_mem_cons, List.map_cons, List.nodup_cons]
    simp only [List.mem_cons, not_or]
    -- the variant in front is seen by those behind it, which is what makes them apart
    constructor
    · rintro ⟨h₁, h₂, h₃, h₄, hall, hn, ht⟩
      refine ⟨⟨⟨by simpa using h₁, h₂, h₃, h₄⟩, fun w hw => ?_⟩, ⟨?_, hn⟩, ?_, ht⟩
      · exact ⟨(hall w hw).1, (hall w hw).2.1.2, (hall w hw).2.2.1.2, (hall w hw).2.2.2⟩
      · intro h
        obtain ⟨w, hw, he⟩ := List.mem_map.mp h
        exact (hall w hw).2.1.1 he
      · intro h
        obtain ⟨w, hw, he⟩ := List.mem_map.mp h
        exact (hall w hw).2.2.1.1 he
    · rintro ⟨⟨⟨h₁, h₂, h₃, h₄⟩, hall⟩, ⟨hnn, hn⟩, hnt, ht⟩
      refine ⟨by simpa using h₁, h₂, h₃, h₄, fun w hw => ?_, hn, ht⟩
      refine ⟨(hall w hw).1, ⟨?_, (hall w hw).2.1⟩, ⟨?_, (hall w hw).2.2.1⟩, (hall w hw).2.2.2⟩
      · exact fun he => hnn (List.mem_map.mpr ⟨w, hw, he⟩)
      · exact fun he => hnt (List.mem_map.mpr ⟨w, hw, he⟩)

theorem checkDefinitions_eq_ok_iff {ds : List Definition} :
    checkDefinitions s ds = .ok () ↔ ∀ d ∈ ds, checkDefinition s d = .ok () := by
  induction ds with
  | nil => simp [checkDefinitions]
  | cons d ds ih => simp [checkDefinitions, check_bind_eq_ok, ih]

/-- A valid schema has names and definitions that pass their checks. -/
theorem validate_eq_ok_iff :
    s.validate = .ok () ↔
      checkNames (s.enums.map Enum.handlersName) [] s.definitions = .ok () ∧
        ∀ d ∈ s.definitions, checkDefinition s d = .ok () := by
  simp [validate, check_bind_eq_ok, checkDefinitions_eq_ok_iff]

theorem mem_names_of_has {name : String} (h : s.has name) :
    name ∈ s.definitions.map Definition.name := by
  obtain ⟨d, hd⟩ := Option.isSome_iff_exists.mp h
  have hmem := List.mem_of_mem_drop (List.mem_reverse.mp (List.mem_of_find?_eq_some hd))
  exact List.mem_map.mpr ⟨d, hmem, by simpa using List.find?_some hd⟩

theorem has_of_mem_references {d : Definition} (h : checkDefinition s d = .ok ()) {r : String}
    (hr : r ∈ d.references) : s.has r := by
  obtain ⟨f, hf, hfr⟩ := List.mem_filterMap.mp hr
  cases d with
  | enum e =>
    obtain ⟨v, hv, hvf⟩ := List.mem_flatMap.mp hf
    exact ((checkVariants_eq_ok_iff.mp h).1 v hv).2.2.2.references f hvf r hfr
  | struct t => exact (checkPayload_eq_ok_iff.mp h).references f hf r hfr

theorem linked_of_validate (h : s.validate = .ok ()) : s.Linked := by
  obtain ⟨hn, hd⟩ := validate_eq_ok_iff.mp h
  exact ⟨(checkNames_eq_ok_iff.mp hn).2,
    fun d hmem r hr => mem_names_of_has (has_of_mem_references (hd d hmem) hr)⟩

-- The checks look at the other definitions of a schema only through what it has.
section Rearranged

variable {s' : Schema}

theorem PayloadChecked.mono {fields : List Field} (hs : ∀ n, s.has n → s'.has n)
    (h : PayloadChecked s owner fields) : PayloadChecked s' owner fields where
  classified := h.classified
  memberNames := h.memberNames
  names_nodup := h.names_nodup
  references f hf r hr := hs r (h.references f hf r hr)

theorem checkDefinition_mono {d : Definition} (hs : ∀ n, s.has n → s'.has n)
    (h : checkDefinition s d = .ok ()) : checkDefinition s' d = .ok () := by
  cases d with
  | enum e =>
    obtain ⟨hall, hn, ht⟩ := checkVariants_eq_ok_iff.mp h
    refine checkVariants_eq_ok_iff.mpr ⟨fun v hv => ?_, hn, ht⟩
    exact ⟨(hall v hv).1, (hall v hv).2.1, (hall v hv).2.2.1, (hall v hv).2.2.2.mono hs⟩
  | struct t => exact checkPayload_eq_ok_iff.mpr ((checkPayload_eq_ok_iff.mp h).mono hs)

theorem has_ofDefinitions {package : String} {description : Option String}
    {ds : List Definition} {name : String} (h : name ∈ ds.map Definition.name) :
    (ofDefinitions package description ds).has name := by
  obtain ⟨d, hd, rfl⟩ := List.mem_map.mp h
  refine List.find?_isSome.mpr ⟨d, ?_, by simp⟩
  simpa [ofDefinitions] using hd

/-- The rules hold of a schema in whichever order its definitions are declared. -/
theorem validate_ofDefinitions (package : String) (description : Option String)
    {ds : List Definition} (hp : ds.Perm s.definitions) (h : s.validate = .ok ()) :
    (ofDefinitions package description ds).validate = .ok () := by
  obtain ⟨hn, hd⟩ := validate_eq_ok_iff.mp h
  obtain ⟨hall, hnd⟩ := checkNames_eq_ok_iff.mp hn
  have hhandlers : ((ofDefinitions package description ds).enums.map Enum.handlersName).Perm
      (s.enums.map Enum.handlersName) := (hp.filterMap _).map _
  refine validate_eq_ok_iff.mpr ⟨checkNames_eq_ok_iff.mpr ⟨?_, ?_⟩, ?_⟩
  · intro d hd
    rw [hhandlers.mem_iff]
    exact hall d (hp.mem_iff.mp hd)
  · exact (hp.map Definition.name).nodup_iff.mpr hnd
  · intro d hmem
    refine checkDefinition_mono (fun n hn => has_ofDefinitions ?_) (hd d (hp.mem_iff.mp hmem))
    exact (hp.map Definition.name).mem_iff.mpr (mem_names_of_has hn)

end Rearranged

end TaggedSum.Schema
