import TaggedSum.Codec.Plan
import TaggedSum.Proofs.Lists
import TaggedSum.Proofs.Members
import TaggedSum.Proofs.Schema.Resolved

namespace TaggedSum

namespace Layout

/-- The types of the members. -/
def types : Layout → List FieldType
  | .unit => []
  | .newtype t => [t]
  | .tuple ts => ts
  | .struct fields => fields.map Prod.snd

/-- The names of the members, if they are named. -/
def names : Layout → List String
  | .struct fields => Members.names fields
  | _ => []

end Layout

namespace Codec

def tags : Codec → List String
  | enum e => e.tags
  | record _ => []

def layouts : Codec → List Layout
  | enum e => e.variants.map (·.layout)
  | record r => [r.layout]

/-- The names that the members refer to, through sequences and mappings. -/
def references (c : Codec) : List String :=
  (c.layouts.flatMap Layout.types).filterMap FieldType.reference?

theorem mem_references {c : Codec} {l : Layout} {t : FieldType} {r : String} (hl : l ∈ c.layouts)
    (ht : t ∈ l.types) (hr : t.reference? = some r) : r ∈ c.references :=
  List.mem_filterMap.mpr ⟨t, List.mem_flatMap.mpr ⟨l, hl, ht⟩, hr⟩

/-- No tag of an enum and no member of a payload comes twice. -/
structure Distinct (c : Codec) : Prop where
  tags : c.tags.Nodup
  members : ∀ l ∈ c.layouts, l.names.Nodup

end Codec

/-- A plan in which nothing leads back: a codec refers neither to itself nor to a later one. -/
structure CodecPlan.Grounded (p : CodecPlan) : Prop where
  names_nodup : p.names.Nodup
  backward : p.codecs.Pairwise fun c d => d.name ∉ c.references
  irreflexive : ∀ c ∈ p.codecs, c.name ∉ c.references
  distinct : ∀ c ∈ p.codecs, c.Distinct

/-- A plan that has a codec for every reference. -/
def CodecPlan.Closed (p : CodecPlan) : Prop := ∀ c ∈ p.codecs, ∀ r ∈ c.references, r ∈ p.names

section Layout

variable {owner : String} {fields : List Field} {shape : Shape}

theorem length_bindings (fields : List Field) :
    (Resolved.bindings fields).length = fields.length := by
  simp [Resolved.bindings]

theorem types_ofFields (h : classify owner fields = .ok shape) :
    (Layout.ofFields shape fields).types = fields.map (·.type) := by
  rcases classify_eq_ok h with ⟨rfl, rfl⟩ | ⟨rfl, f, rfl⟩ | ⟨rfl, -⟩ | ⟨rfl, -⟩
  · rfl
  · rfl
  · rfl
  · exact List.map_snd_zip (by simp [length_bindings])

theorem names_ofFields_struct (fields : List Field) :
    (Layout.ofFields .struct fields).names = Resolved.bindings fields :=
  List.map_fst_zip (by simp [length_bindings])

theorem names_ofFields_subset (shape : Shape) (fields : List Field) :
    (Layout.ofFields shape fields).names ⊆ Resolved.bindings fields := by
  cases shape with
  | unit => exact List.nil_subset _
  | newtype => cases fields <;> exact List.nil_subset _
  | tuple => exact List.nil_subset _
  | struct => exact names_ofFields_struct fields ▸ List.Subset.refl _

theorem names_ofFields_nodup (h : classify owner fields = .ok shape)
    (hn : (fields.filterMap (·.name)).Nodup) : (Layout.ofFields shape fields).names.Nodup := by
  rcases classify_eq_ok h with ⟨rfl, rfl⟩ | ⟨rfl, f, rfl⟩ | ⟨rfl, -⟩ | ⟨rfl, hall⟩
  · exact .nil
  · exact .nil
  · exact .nil
  · rw [names_ofFields_struct, Resolved.bindings_of_isSome hall]
    exact hn

end Layout

section Codec

variable {s : Schema} {d : Definition} {r : Resolved.Definition}

theorem name_ofDefinition (h : Resolved.Definition.ofDefinition d = .ok r) :
    (Codec.ofDefinition r).name = d.name := by
  rw [← Resolved.Definition.name_eq h]
  cases r <;> rfl

theorem types_variants {vs : List Variant} {rs : List Resolved.Variant}
    (h : List.Forall₂ Variant.Resolves vs rs) :
    (rs.map fun r => Layout.ofFields r.shape r.fields).flatMap Layout.types =
      (vs.flatMap (·.fields)).map (·.type) := by
  induction h with
  | nil => rfl
  | @cons v r _ _ h _ ih =>
    have hf : r.fields = v.fields := by rw [h.2]
    simp only [List.map_cons, List.flatMap_cons, List.map_append, ih]
    rw [hf, types_ofFields h.1]

/-- The members of the payloads are the fields, in order. -/
theorem types_ofDefinition (h : Resolved.Definition.ofDefinition d = .ok r) :
    (Codec.ofDefinition r).layouts.flatMap Layout.types = d.fields.map (·.type) := by
  cases d with
  | enum e =>
    obtain ⟨vs, hvs, rfl⟩ := Resolved.ofDefinition_enum h
    simp only [Codec.ofDefinition, EnumCodec.ofEnum, Codec.layouts, List.map_map,
      Function.comp_def, types_variants hvs, Definition.fields]
  | struct t =>
    obtain ⟨shape, hshape, rfl⟩ := Resolved.ofDefinition_struct h
    simp only [Codec.ofDefinition, RecordCodec.ofStruct, Codec.layouts, List.flatMap_singleton,
      types_ofFields hshape, Definition.fields]

theorem exists_field (h : Resolved.Definition.ofDefinition d = .ok r) {l : Layout} {t : FieldType}
    (hl : l ∈ (Codec.ofDefinition r).layouts) (ht : t ∈ l.types) :
    ∃ field ∈ d.fields, field.type = t := by
  have hm : t ∈ (Codec.ofDefinition r).layouts.flatMap Layout.types :=
    List.mem_flatMap.mpr ⟨l, hl, ht⟩
  rw [types_ofDefinition h] at hm
  exact List.mem_map.mp hm

theorem references_ofDefinition (h : Resolved.Definition.ofDefinition d = .ok r) :
    (Codec.ofDefinition r).references = d.references := by
  rw [Codec.references, types_ofDefinition h, List.filterMap_map]
  rfl

theorem tags_variants {vs : List Variant} {rs : List Resolved.Variant}
    (h : List.Forall₂ Variant.Resolves vs rs) : rs.map (·.tag) = vs.map (·.wireTag) := by
  induction h with
  | nil => rfl
  | cons h _ ih => rw [List.map_cons, List.map_cons, ih, h.2]

theorem distinct_ofDefinition (hc : s.checkDefinition d = .ok ())
    (h : Resolved.Definition.ofDefinition d = .ok r) : (Codec.ofDefinition r).Distinct := by
  cases d with
  | enum e =>
    obtain ⟨vs, hvs, rfl⟩ := Resolved.ofDefinition_enum h
    obtain ⟨hall, -, htags⟩ := Schema.checkVariants_eq_ok_iff.mp hc
    constructor
    · simpa [Codec.tags, Codec.ofDefinition, EnumCodec.ofEnum, EnumCodec.tags, List.map_map,
        Function.comp_def, tags_variants hvs] using htags
    · intro l hl
      simp only [Codec.layouts, Codec.ofDefinition, EnumCodec.ofEnum, List.map_map,
        List.mem_map] at hl
      obtain ⟨w, hw, rfl⟩ := hl
      obtain ⟨v, hv, hres⟩ := Lists.exists_of_mem_right hvs hw
      have hf : w.fields = v.fields := by rw [hres.2]
      simp only [Function.comp_def, hf]
      exact names_ofFields_nodup hres.1 (hall v hv).2.2.2.names_nodup
  | struct t =>
    obtain ⟨shape, hshape, rfl⟩ := Resolved.ofDefinition_struct h
    constructor
    · exact .nil
    · intro l hl
      rw [List.mem_singleton.mp hl]
      exact names_ofFields_nodup hshape (Schema.checkPayload_eq_ok_iff.mp hc).names_nodup

end Codec

theorem EnumCodec.variant?_eq_some_iff {e : EnumCodec} {v : VariantCodec} {tag : String}
    (h : e.tags.Nodup) : e.variant? tag = some v ↔ v ∈ e.variants ∧ v.tag = tag := by
  constructor
  · intro hv
    exact ⟨List.mem_of_find?_eq_some hv, by simpa using List.find?_some hv⟩
  · rintro ⟨hv, rfl⟩
    exact Lists.find?_of_nodup h hv

theorem EnumCodec.mem_units_iff {e : EnumCodec} {tag : String} :
    tag ∈ e.units ↔ ∃ v ∈ e.variants, v.layout = .unit ∧ v.tag = tag := by
  simp [EnumCodec.units, VariantCodec.isUnit, and_assoc]

theorem EnumCodec.mem_units_iff_variant? {e : EnumCodec} (h : e.tags.Nodup) {tag : String} :
    tag ∈ e.units ↔ ∃ v, e.variant? tag = some v ∧ v.layout = .unit := by
  simp only [mem_units_iff, variant?_eq_some_iff h]
  constructor
  · rintro ⟨v, hv, hu, ht⟩
    exact ⟨v, ⟨hv, ht⟩, hu⟩
  · rintro ⟨v, ⟨hv, ht⟩, hu⟩
    exact ⟨v, hv, hu, ht⟩

section Schema

variable {s : Schema} {ir : Resolved.Schema}

/-- What later proofs use of a codec's definition. -/
theorem map_codecs {β : Type} {ds : List Definition} {rs : List Resolved.Definition}
    (h : List.Forall₂ (fun d r => Resolved.Definition.ofDefinition d = .ok r) ds rs)
    (f : Codec → β) (g : Definition → β)
    (hfg : ∀ d r, Resolved.Definition.ofDefinition d = .ok r → f (.ofDefinition r) = g d) :
    (rs.map Codec.ofDefinition).map f = ds.map g := by
  induction h with
  | nil => rfl
  | cons h _ ih => rw [List.map_cons, List.map_cons, List.map_cons, ih, hfg _ _ h]

theorem names_ofSchema (ek : ExtraKeys) {ds : List Definition}
    (h : List.Forall₂ (fun d r => Resolved.Definition.ofDefinition d = .ok r) ds ir.definitions) :
    (CodecPlan.ofSchema ek ir).names = ds.map Definition.name :=
  map_codecs h Codec.name Definition.name fun _ _ => name_ofDefinition

/-- Each codec is the one of a definition that is declared. -/
theorem exists_definition (ek : ExtraKeys) (h : Resolved.Schema.ofSchema s = .ok ir) {c : Codec}
    (hc : c ∈ (CodecPlan.ofSchema ek ir).codecs) :
    ∃ d ∈ s.definitions, ∃ r, Resolved.Definition.ofDefinition d = .ok r ∧
      c = .ofDefinition r := by
  obtain ⟨hv, ds, hds, hres⟩ := Resolved.ofSchema_eq_ok h
  obtain ⟨r, hr, rfl⟩ := List.mem_map.mp hc
  obtain ⟨d, hd, hdr⟩ := Lists.exists_of_mem_right hres hr
  exact ⟨d, (Schema.mem_dependencyOrder (Schema.linked_of_validate hv) hds).mp hd, r, hdr, rfl⟩

theorem grounded_ofSchema (ek : ExtraKeys) (h : Resolved.Schema.ofSchema s = .ok ir) :
    (CodecPlan.ofSchema ek ir).Grounded := by
  obtain ⟨hv, ds, hds, hres⟩ := Resolved.ofSchema_eq_ok h
  have hlinked := Schema.linked_of_validate hv
  obtain ⟨hg, -⟩ := Schema.dependencyOrder_grows hlinked hds
  have hpairs : (CodecPlan.ofSchema ek ir).codecs.map (fun c => (c.name, c.references)) =
      ds.map fun d => (d.name, d.references) :=
    map_codecs hres _ _ fun _ _ h => by rw [name_ofDefinition h, references_ofDefinition h]
  constructor
  · rw [names_ofSchema ek hres]
    exact hg.names_nodup
  · have hb : (ds.map fun d => (d.name, d.references)).Pairwise fun a b => b.1 ∉ a.2 :=
      List.pairwise_map.mpr hg.backward.1
    rw [← hpairs] at hb
    exact List.pairwise_map.mp hb
  · intro c hc
    have hm : (c.name, c.references) ∈ ds.map fun d => (d.name, d.references) :=
      hpairs ▸ List.mem_map.mpr ⟨c, hc, rfl⟩
    obtain ⟨d, hd, he⟩ := List.mem_map.mp hm
    obtain ⟨hn, hr⟩ := Prod.mk.inj he
    rw [← hn, ← hr]
    exact hg.backward.2 d hd
  · intro c hc
    obtain ⟨d, hd, r, hdr, rfl⟩ := exists_definition ek h hc
    exact distinct_ofDefinition ((Schema.validate_eq_ok_iff.mp hv).2 d hd) hdr

end Schema

end TaggedSum
