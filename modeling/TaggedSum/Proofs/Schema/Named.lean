import TaggedSum.Proofs.Lists
import TaggedSum.Proofs.Schema.Reference
import TaggedSum.Proofs.Text.Identifier

namespace TaggedSum.Resolved

open Outcome

/-- The members of a payload have names that differ, of their own or by their index; a unit has
none. -/
structure Bound (shape : Shape) (fields : List Field) : Prop where
  memberNames : ∀ n ∈ bindings fields, Text.isMemberName n
  nodup : (bindings fields).Nodup
  unit : shape = .unit → fields = []

/-- The variants of an enum have names that differ, also in snake case. -/
structure Enum.Named (e : Enum) : Prop where
  memberNames : ∀ v ∈ e.variants, Text.isMemberName v.name
  names_nodup : (e.variants.map (·.name)).Nodup
  handler_eq : ∀ v ∈ e.variants, v.handler = Text.snakeCase v.name
  handlers_nodup : (e.variants.map (·.handler)).Nodup
  bound : ∀ v ∈ e.variants, Bound v.shape v.fields

structure Schema.Named (s : Schema) : Prop where
  identifiers : ∀ n ∈ s.names, Text.isIdentifier n
  unreserved : ∀ n ∈ s.names, n ∉ TaggedSum.Schema.reservedNames
  names_nodup : s.names.Nodup
  apart : ∀ n ∈ s.names, ∀ e ∈ s.enums, n ≠ e.handlersName
  enums : ∀ e ∈ s.enums, e.Named
  structs : ∀ t ∈ s.structs, Bound t.shape t.fields
  references : ∀ d ∈ s.definitions, ∀ f ∈ d.fields, ∀ n, f.type.reference? = some n → n ∈ s.names

section Continues

variable {shape : Shape} {fields : List Field} {e : Enum} {v : Variant} {s : Schema}

theorem Bound.continues (h : Bound shape fields) : ∀ n ∈ bindings fields, Text.Continues n :=
  fun n hn => Text.continues_of_isMemberName (h.memberNames n hn)

theorem Enum.Named.continues (h : e.Named) (hv : v ∈ e.variants) : Text.Continues v.name :=
  Text.continues_of_isMemberName (h.memberNames v hv)

theorem Enum.Named.continues_handler (h : e.Named) (hv : v ∈ e.variants) :
    Text.Continues v.handler := h.handler_eq v hv ▸ (h.continues hv).snakeCase

theorem Schema.Named.continues (h : s.Named) : ∀ n ∈ s.names, Text.Continues n :=
  fun n hn => Text.continues_of_isIdentifier (h.identifiers n hn)

end Continues

section Fields

variable {owner : String} {fields : List Field} {shape : Shape}

theorem bindings_of_isNone (h : ∀ f ∈ fields, f.name = none) :
    bindings fields = (List.range fields.length).map fun i => "f" ++ toString i := by
  suffices hk : ∀ k, (fields.zipIdx k).map (fun x => x.1.name.getD ("f" ++ toString x.2)) =
      (List.range' k fields.length).map fun i => "f" ++ toString i by
    rw [List.range_eq_range']
    exact hk 0
  induction fields with
  | nil => exact fun k => rfl
  | cons f fields ih =>
    intro k
    rw [List.zipIdx_cons, List.map_cons, ih fun g hg => h g (List.mem_cons_of_mem _ hg),
      h f List.mem_cons_self]
    rfl

theorem bound_of_checked {s : TaggedSum.Schema} (h : s.PayloadChecked owner fields)
    (hs : classify owner fields = .ok shape) : Bound shape fields := by
  have hunit : shape = .unit → fields = [] := by
    rintro rfl
    rcases classify_eq_ok hs with ⟨-, h⟩ | ⟨h, -⟩ | ⟨h, -⟩ | ⟨h, -⟩
    · exact h
    all_goals cases h
  by_cases hn : fields.all (·.name.isNone)
  · have hb := bindings_of_isNone fun f hf => by simpa using List.all_eq_true.mp hn f hf
    refine ⟨fun n hm => ?_, ?_, hunit⟩
    · obtain ⟨i, -, rfl⟩ := List.mem_map.mp (hb ▸ hm)
      exact Text.isMemberName_numbered i
    · rw [hb]
      exact List.nodup_range.map Text.numbered_injective
  · have hall : ∀ f ∈ fields, f.name.isSome := by
      unfold classify at hs
      rw [if_neg hn] at hs
      by_cases hall : fields.all (·.name.isSome)
      · exact List.all_eq_true.mp hall
      · rw [if_neg hall] at hs
        cases hs
    have hb := bindings_of_isSome hall
    exact ⟨hb ▸ h.memberNames, hb ▸ h.names_nodup, hunit⟩

end Fields

theorem map_name_variants {vs : List TaggedSum.Variant} {ws : List Variant}
    (h : List.Forall₂ TaggedSum.Variant.Resolves vs ws) :
    ws.map (·.name) = vs.map (·.name) := by
  induction h with
  | nil => rfl
  | cons h _ ih => rw [List.map_cons, List.map_cons, ih, h.2]

theorem handlers_of_ofVariants {enum : String} {seen : List String} {vs : List TaggedSum.Variant}
    {rs : List Variant} (h : ofVariants enum seen vs = .ok rs) :
    (rs.map (·.handler)).Nodup ∧ ∀ r ∈ rs, r.handler ∉ seen := by
  induction vs generalizing seen rs with
  | nil =>
    cases h
    exact ⟨.nil, fun _ hr => nomatch hr⟩
  | cons v vs ih =>
    obtain ⟨hs, shape, rest, -, hrest, rfl⟩ := ofVariants_cons_eq_ok.mp h
    obtain ⟨hn, hnew⟩ := ih hrest
    constructor
    · refine List.nodup_cons.mpr ⟨fun hm => ?_, hn⟩
      obtain ⟨r, hr, he⟩ := List.mem_map.mp hm
      exact hnew r hr (he ▸ List.mem_cons_self)
    · exact List.forall_mem_cons.mpr ⟨hs, fun r hr hm => hnew r hr (List.mem_cons_of_mem _ hm)⟩

theorem Enum.named_of_ofDefinition {s : TaggedSum.Schema} {e : TaggedSum.Enum} {r : Enum}
    (hc : s.checkDefinition (.enum e) = .ok ())
    (h : Definition.ofDefinition (.enum e) = .ok (.enum r)) : r.Named := by
  obtain ⟨hall, hnames, -⟩ := TaggedSum.Schema.checkVariants_eq_ok_iff.mp hc
  simp only [Definition.ofDefinition, bind_eq_ok, pure_def] at h
  obtain ⟨vs, hvs, h⟩ := h
  cases h
  have hres := resolves_of_ofVariants hvs
  have hof : ∀ w ∈ vs, ∃ v ∈ e.variants, w.name = v.name ∧ w.fields = v.fields ∧
      w.handler = Text.snakeCase v.name ∧ classify v.name v.fields = .ok w.shape := by
    intro w hw
    obtain ⟨v, hv, hs, hr⟩ := Lists.exists_of_mem_right hres hw
    exact ⟨v, hv, by rw [hr], by rw [hr], by rw [hr], hs⟩
  constructor
  · intro w hw
    obtain ⟨v, hv, hn, -⟩ := hof w hw
    exact hn ▸ (hall v hv).1
  · exact map_name_variants hres ▸ hnames
  · intro w hw
    obtain ⟨v, -, hn, -, hh, -⟩ := hof w hw
    rw [hh, hn]
  · exact (handlers_of_ofVariants hvs).1
  · intro w hw
    obtain ⟨v, hv, -, hf, -, hs⟩ := hof w hw
    exact hf ▸ bound_of_checked (hall v hv).2.2.2 hs

theorem Schema.mem_enums {s : Schema} {e : Enum} : e ∈ s.enums ↔ .enum e ∈ s.definitions := by
  rw [enums, List.mem_filterMap]
  constructor
  · rintro ⟨d, hd, he⟩
    cases d with
    | enum x => exact Option.some.inj he ▸ hd
    | struct x => cases he
  · exact fun h => ⟨.enum e, h, rfl⟩

theorem Schema.mem_structs {s : Schema} {t : Struct} :
    t ∈ s.structs ↔ .struct t ∈ s.definitions := by
  rw [structs, List.mem_filterMap]
  constructor
  · rintro ⟨d, hd, ht⟩
    cases d with
    | enum x => cases ht
    | struct x => exact Option.some.inj ht ▸ hd
  · exact fun h => ⟨.struct t, h, rfl⟩

theorem handlersNames_eq {ds : List TaggedSum.Definition} {rs : List Definition}
    (h : List.Forall₂ (fun d r => Definition.ofDefinition d = .ok r) ds rs) :
    (rs.filterMap (·.enum?)).map Enum.handlersName =
      (ds.filterMap (·.enum?)).map TaggedSum.Enum.handlersName := by
  induction h with
  | nil => rfl
  | @cons d r _ _ h _ ih =>
    cases d with
    | enum e =>
      obtain ⟨vs, -, rfl⟩ := ofDefinition_enum h
      simpa [Definition.enum?, TaggedSum.Definition.enum?, Enum.handlersName,
        TaggedSum.Enum.handlersName] using ih
    | struct t =>
      obtain ⟨shape, -, rfl⟩ := ofDefinition_struct h
      simpa [Definition.enum?, TaggedSum.Definition.enum?] using ih

theorem Schema.named_of_ofSchema {s : TaggedSum.Schema} {ir : Schema}
    (h : Schema.ofSchema s = .ok ir) : ir.Named := by
  obtain ⟨hv, ds, hds, hres⟩ := ofSchema_eq_ok h
  have hs := TaggedSum.Schema.linked_of_validate hv
  -- the definitions are those of the schema in another order, so its checks speak of them
  have hperm := TaggedSum.Schema.dependencyOrder_perm hs hds
  have hnames : ir.names = ds.map TaggedSum.Definition.name := Definition.map_name_eq hres
  obtain ⟨hcheck, hdefs⟩ := TaggedSum.Schema.validate_eq_ok_iff.mp hv
  have hrules : ∀ n ∈ ir.names, Text.isIdentifier n ∧ n ∉ TaggedSum.Schema.reservedNames ∧
      n ∉ s.enums.map TaggedSum.Enum.handlersName := by
    intro n hn
    obtain ⟨d, hd, rfl⟩ := List.mem_map.mp (hnames ▸ hn)
    have := (TaggedSum.Schema.checkNames_eq_ok_iff.mp hcheck).1 d (hperm.mem_iff.mp hd)
    exact ⟨this.1, this.2.1, this.2.2.1⟩
  have hof : ∀ r ∈ ir.definitions, ∃ d ∈ s.definitions, s.checkDefinition d = .ok () ∧
      Definition.ofDefinition d = .ok r := by
    intro r hr
    obtain ⟨d, hd, hdr⟩ := Lists.exists_of_mem_right hres hr
    have hd' := hperm.mem_iff.mp hd
    exact ⟨d, hd', hdefs d hd', hdr⟩
  constructor
  · exact fun n hn => (hrules n hn).1
  · exact fun n hn => (hrules n hn).2.1
  · exact hnames ▸ (hperm.map _).nodup_iff.mpr hs.names_nodup
  · rintro n hn e he rfl
    have hm := List.mem_map_of_mem (f := Enum.handlersName) he
    rw [Schema.enums, handlersNames_eq hres] at hm
    exact (hrules _ hn).2.2 (((hperm.filterMap _).map _).mem_iff.mp hm)
  · intro e he
    obtain ⟨d, -, hc, hdr⟩ := hof _ (Schema.mem_enums.mp he)
    cases d with
    | enum x => exact Enum.named_of_ofDefinition hc hdr
    | struct x =>
      obtain ⟨shape, -, h⟩ := ofDefinition_struct hdr
      cases h
  · intro t ht
    obtain ⟨d, -, hc, hdr⟩ := hof _ (Schema.mem_structs.mp ht)
    cases d with
    | enum x =>
      obtain ⟨vs, -, h⟩ := ofDefinition_enum hdr
      cases h
    | struct x =>
      obtain ⟨shape, hs, h⟩ := ofDefinition_struct hdr
      cases h
      exact bound_of_checked (TaggedSum.Schema.checkPayload_eq_ok_iff.mp hc) hs
  · intro r hr f hf n hn
    obtain ⟨d, hd, -, hdr⟩ := hof r hr
    rw [Definition.fields_eq hdr] at hf
    rw [hnames]
    exact (hperm.map _).mem_iff.mpr (hs.references d hd n (List.mem_filterMap.mpr ⟨f, hf, hn⟩))

end TaggedSum.Resolved
