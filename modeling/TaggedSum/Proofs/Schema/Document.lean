import TaggedSum.Proofs.Json.Outline
import TaggedSum.Proofs.Members
import TaggedSum.Proofs.Schema.FieldType
import TaggedSum.Schema.Document
import TaggedSum.Schema.Element

namespace TaggedSum

open Json (Fits)
open Outcome

theorem fits_textMember (room : Nat) (name : String) (o : Option String) :
    ∀ m ∈ textMember name o, Fits room m.2 := by
  cases o with
  | none => exact List.forall_mem_nil _
  | some s => exact List.forall_mem_singleton.mpr (.string s)

theorem fits_array {α : Type} {room : Nat} {write : α → Json} {as : List α}
    (h : ∀ a ∈ as, Fits room (write a)) : Fits (room + 1) (.array (as.map write)) :=
  .array (List.forall_mem_map.mpr h)

theorem Field.fits_toJson (f : Field) (room : Nat) : Fits (room + 1) f.toJson := by
  refine .object (List.forall_mem_append.mpr ⟨fits_textMember _ _ _, ?_⟩)
  exact List.forall_mem_cons.mpr ⟨.string _, fits_textMember _ _ _⟩

theorem Variant.fits_toJson (v : Variant) (room : Nat) : Fits (room + 3) v.toJson := by
  have hdocs := fits_textMember (room + 2) "docs" v.docs
  refine .object (List.forall_mem_append.mpr ⟨List.forall_mem_append.mpr ⟨?_, hdocs⟩, ?_⟩)
  · exact List.forall_mem_cons.mpr ⟨.string _, fits_textMember _ _ _⟩
  · exact List.forall_mem_singleton.mpr (fits_array fun f _ => f.fits_toJson room)

/-- The members of a definition behind its kind. -/
def Definition.entries : Definition → List (String × Json)
  | enum e => ("name", .string e.name) :: (textMember "docs" e.docs ++
    [("variants", .array (e.variants.map Variant.toJson))])
  | struct s => ("name", .string s.name) :: (textMember "docs" s.docs ++
    [("fields", .array (s.fields.map Field.toJson))])

theorem Definition.toJson_eq (d : Definition) :
    d.toJson = .object (("kind", .string d.kind.word) :: d.entries) := by
  cases d <;> rfl

theorem Definition.fits_entries (d : Definition) (room : Nat) :
    ∀ m ∈ d.entries, Fits (room + 4) m.2 := by
  have hdocs := fits_textMember (room + 4) "docs"
  cases d with
  | enum e =>
    refine List.forall_mem_cons.mpr ⟨.string _, List.forall_mem_append.mpr ⟨hdocs _, ?_⟩⟩
    exact List.forall_mem_singleton.mpr (fits_array fun v _ => v.fits_toJson room)
  | struct s =>
    refine List.forall_mem_cons.mpr ⟨.string _, List.forall_mem_append.mpr ⟨hdocs _, ?_⟩⟩
    exact List.forall_mem_singleton.mpr (fits_array fun f _ => f.fits_toJson (room + 2))

theorem Definition.fits_toJson (d : Definition) (room : Nat) : Fits (room + 5) d.toJson := by
  rw [d.toJson_eq]
  exact .object (List.forall_mem_cons.mpr ⟨.string _, d.fits_entries room⟩)

theorem Schema.fits_toJson (s : Schema) : Fits 7 s.toJson := by
  refine .object (List.forall_mem_append.mpr ⟨?_, ?_⟩)
  · exact List.forall_mem_cons.mpr ⟨.string _, fits_textMember _ _ _⟩
  · exact List.forall_mem_singleton.mpr (fits_array fun d _ => d.fits_toJson 0)

theorem Draft.items_map {α : Type} {read : Json → Except DataError α} {write : α → Json}
    {as : List α} (h : ∀ a ∈ as, read (write a) = .ok a) :
    Draft.items read (as.map write) = .ok as := by
  induction as with
  | nil => rfl
  | cons a as ih =>
    obtain ⟨ha, has⟩ := List.forall_mem_cons.mp h
    simp [Draft.items, ha, ih has]

theorem Draft.type_text {t : FieldType} (h : t.Legible) : Draft.type (.string t.text) = .ok t := by
  simp [Draft.type, Draft.text, FieldType.ofText?, FieldType.ofChars?_text h]

theorem Field.read_toJson {f : Field} (h : f.type.Legible) : Draft.field f.toJson = .ok f := by
  obtain ⟨name, type, docs⟩ := f
  have ht := Draft.type_text h
  cases name <;> cases docs <;>
    simp [toJson, textMember, Draft.field, Draft.OfField.set, Draft.once, Draft.optional,
      Draft.text, Draft.required, ht]

theorem Variant.read_toJson {v : Variant} (h : ∀ f ∈ v.fields, f.type.Legible) :
    Draft.variant v.toJson = .ok v := by
  obtain ⟨name, tag, docs, fields⟩ := v
  have hf : Draft.list Draft.field (.array (fields.map Field.toJson)) = .ok fields :=
    Draft.items_map fun f hf => Field.read_toJson (h f hf)
  cases tag <;> cases docs <;>
    simp [toJson, textMember, Draft.variant, Draft.OfVariant.set, Draft.once, Draft.optional,
      Draft.text, Draft.required, hf]

/-- The types of its fields can be read back. -/
def Definition.Legible (d : Definition) : Prop := ∀ f ∈ d.fields, f.type.Legible

theorem Definition.ofMembers_entries {d : Definition} (h : d.Legible) :
    Draft.ofMembers d.kind d.entries = .ok d := by
  cases d with
  | enum e =>
    obtain ⟨name, docs, variants⟩ := e
    have hv : Draft.list Draft.variant (.array (variants.map Variant.toJson)) = .ok variants :=
      Draft.items_map fun v hv =>
        Variant.read_toJson fun f hf => h f (List.mem_flatMap.mpr ⟨v, hv, hf⟩)
    cases docs <;>
      simp [entries, kind, textMember, Draft.ofMembers, Draft.OfDefinition.set, Draft.once,
        Draft.optional, Draft.text, Draft.required, hv]
  | struct s =>
    obtain ⟨name, docs, fields⟩ := s
    have hf : Draft.list Draft.field (.array (fields.map Field.toJson)) = .ok fields :=
      Draft.items_map fun f hf => Field.read_toJson (h f hf)
    cases docs <;>
      simp [entries, kind, textMember, Draft.ofMembers, Draft.OfDefinition.set, Draft.once,
        Draft.optional, Draft.text, Draft.required, hf]

theorem Definition.kind_not_mem (d : Definition) : "kind" ∉ Members.names d.entries := by
  cases d with
  | enum e => cases hd : e.docs <;> simp [entries, textMember, hd]
  | struct s => cases hd : s.docs <;> simp [entries, textMember, hd]

theorem Reading.foldlM_add {ms : List (String × Json)} (hn : "kind" ∉ Members.names ms)
    (hf : ∀ m ∈ ms, Fits contentRoom m.2) (c : Content) :
    (Json.outlineMembers ms).foldlM Content.add c = .ok { c with members := c.members ++ ms } := by
  induction ms generalizing c with
  | nil => simp [Json.outlineMembers]
  | cons m ms ih =>
    obtain ⟨k, j⟩ := m
    obtain ⟨hj, hms⟩ := List.forall_mem_cons.mp hf
    rw [Members.names_cons, List.mem_cons, not_or] at hn
    have hadd : Content.add c (Piece.ofText k, j.outline) =
        .ok { c with members := c.members ++ [(k, j)] } := by
      simp [Content.add, Piece.text?_ofText, grammatical, Ne.symm hn.1, Json.json?_outline hj]
    rw [Json.outlineMembers, List.foldlM_cons, hadd, ok_bind, ih hn.2 hms, List.append_assoc,
      List.singleton_append]

theorem Reading.kind_word (k : DefinitionKind) :
    Reading.kind (Json.outline (.string k.word)) = .ok k := by
  cases k <;> simp [Reading.kind, Json.outline, text, Piece.text?_ofText, grammatical,
    DefinitionKind.word]

theorem Reading.definition_toJson {d : Definition} (h : d.Legible) :
    Reading.definition d.toJson.outline = .ok d := by
  have hkind : Content.add ⟨none, []⟩ (Piece.ofText "kind", Json.outline (.string d.kind.word)) =
      .ok ⟨some d.kind, []⟩ := by
    simp [Content.add, Piece.text?_ofText, grammatical, Draft.once, data, Reading.kind_word]
  rw [d.toJson_eq, Json.outline, Json.outlineMembers]
  simp only [Reading.definition, List.foldlM_cons, hkind, ok_bind,
    foldlM_add d.kind_not_mem (d.fits_entries 120), List.nil_append]
  simp [closes, Draft.required, data, Definition.ofMembers_entries h]

theorem Reading.definitions_map {ds : List Definition} (h : ∀ d ∈ ds, d.Legible) :
    Reading.definitions (Json.outlineItems (ds.map Definition.toJson)) = .ok ds := by
  induction ds with
  | nil => rfl
  | cons d ds ih =>
    obtain ⟨hd, hds⟩ := List.forall_mem_cons.mp h
    simp [Json.outlineItems, Reading.definitions, definition_toJson hd, ih hds]

theorem Reading.schema_toJson {s : Schema} (h : ∀ d ∈ s.definitions, d.Legible) :
    Reading.schema s.toJson.outline =
      .ok (.ofDefinitions s.package s.description s.definitions) := by
  obtain ⟨package, description, ds, unlisted⟩ := s
  have hd := definitions_map h
  cases description <;>
    simp [Schema.toJson, textMember, Json.outline, Json.outlineMembers, Reading.schema,
      OfSchema.set, Piece.text?_ofText, grammatical, data, Draft.once, text, optional,
      definitionList, hd, closes, Draft.required]

/-- Whatever was read of a schema is read again from its text. -/
theorem Schema.read_render {s : Schema} (h : ∀ d ∈ s.definitions, d.Legible) :
    Schema.read s.toJson.render = .ok (.ofDefinitions s.package s.description s.definitions) := by
  simp [Schema.read, Json.ofText_render s.fits_toJson, Reading.schema_toJson h, Reading.closes]

end TaggedSum
