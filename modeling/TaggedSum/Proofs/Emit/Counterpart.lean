import TaggedSum.Proofs.Codec.Locality
import TaggedSum.Proofs.Dispatch.Registration
import TaggedSum.Proofs.Emit.Assembly

namespace TaggedSum

/-- The levels of an enum: the tags are the same, in the order of declaration, a tag leads to
variants of one name, and the tags without fields travel bare. -/
structure Enum.Counterparts (e : Enum) (r : Resolved.Enum) (c : EnumCodec) (p : DispatchPlan) :
    Prop where
  names : r.name = e.name ∧ c.name = e.name ∧ p.enum = e.name
  tags : r.tags = e.variants.map (·.wireTag) ∧ c.tags = e.variants.map (·.wireTag) ∧
    p.arms.map (·.tag) = e.variants.map (·.wireTag)
  variant?_wireTag : ∀ v ∈ e.variants, e.variant? v.wireTag = some v
  variant? : ∀ tag, (r.variant? tag).map (·.name) = (e.variant? tag).map (·.name) ∧
    (c.variant? tag).map (·.name) = (e.variant? tag).map (·.name) ∧
    (p.arm? tag).map (·.variant) = (e.variant? tag).map (·.name)
  units : c.units = (e.variants.filter (·.fields.isEmpty)).map (·.wireTag)

section Variants

variable {e : Enum} {r : Resolved.Enum} {vs : List Variant} {rs : List Resolved.Variant}

theorem find?_variants (h : List.Forall₂ Variant.Resolves vs rs) (tag : String) :
    (rs.find? (·.tag = tag)).map (·.name) = (vs.find? (·.wireTag = tag)).map (·.name) := by
  induction h with
  | nil => rfl
  | @cons v r _ _ h _ ih =>
    have ht : r.tag = v.wireTag := by rw [h.2]
    have hn : r.name = v.name := by rw [h.2]
    by_cases hv : v.wireTag = tag <;> simp [hv, ht, hn, ih]

theorem ofFields_eq_unit_iff {owner : String} {fields : List Field} {shape : Shape}
    (h : classify owner fields = .ok shape) :
    Layout.ofFields shape fields = .unit ↔ fields = [] := by
  constructor
  · intro hu
    rcases classify_eq_ok h with ⟨-, hf⟩ | ⟨rfl, f, rfl⟩ | ⟨rfl, -⟩ | ⟨rfl, -⟩
    · exact hf
    all_goals cases hu
  · rintro rfl
    cases h
    rfl

theorem units_variants (h : List.Forall₂ Variant.Resolves e.variants r.variants) :
    (EnumCodec.ofEnum r).units = (e.variants.filter (·.fields.isEmpty)).map (·.wireTag) := by
  rw [EnumCodec.units, EnumCodec.ofEnum]
  generalize e.variants = vs, r.variants = rs at h
  induction h with
  | nil => rfl
  | @cons v r _ _ h _ ih =>
    have ht : r.tag = v.wireTag := by rw [h.2]
    have hf : r.fields = v.fields := by rw [h.2]
    have hu : (Layout.ofFields r.shape r.fields == .unit) = v.fields.isEmpty := by
      rw [hf, Bool.eq_iff_iff, beq_iff_eq, List.isEmpty_iff, ofFields_eq_unit_iff h.1]
    simp only [List.map_cons, List.filter_cons, VariantCodec.isUnit, hu]
    by_cases hv : v.fields.isEmpty = true
    · simp only [hv, if_true, List.map_cons, ht]
      exact congrArg _ ih
    · simp only [hv]
      exact ih

/-- The look-ups of the codec and of the plan are the one of the resolved enum. -/
theorem Enum.counterparts (hn : r.name = e.name)
    (h : List.Forall₂ Variant.Resolves e.variants r.variants)
    (ht : (e.variants.map (·.wireTag)).Nodup) : e.Counterparts r (.ofEnum r) (.ofEnum r) where
  names := ⟨hn, hn, hn⟩
  tags := by
    simp only [Resolved.Enum.tags, EnumCodec.tags, EnumCodec.ofEnum, DispatchPlan.ofEnum,
      DispatchPlan.armOf, List.map_map, Function.comp_def, tags_variants h, and_self]
  variant?_wireTag v hv := Lists.find?_of_nodup ht hv
  variant? tag := by
    have hr : (r.variant? tag).map (·.name) = (e.variant? tag).map (·.name) :=
      find?_variants h tag
    rw [← hr]
    refine ⟨rfl, ?_, ?_⟩
    · rw [EnumCodec.variant?, EnumCodec.ofEnum, List.find?_map, Option.map_map]
      rfl
    · rw [DispatchPlan.arm?, DispatchPlan.ofEnum, List.find?_map, Option.map_map]
      rfl
  units := units_variants h

end Variants

namespace Resolved.Schema

variable {s : TaggedSum.Schema} {ir : Schema} {d : Definition}

theorem get?_positions (h : ofSchema s = .ok ir) {i : Nat} (hd : ir.definitions[i]? = some d) :
    Members.get? d.name ir.positions = some i := by
  have hpositions : ir.positions = positionsOf ir.definitions :=
    congrArg (·.positions) (eq_ofDefinitions_of_ofSchema h)
  rw [hpositions, get?_positionsOf (named_of_ofSchema h).names_nodup hd]

theorem get?_of_mem (h : ofSchema s = .ok ir) (hd : d ∈ ir.definitions) :
    ir.get? d.name = some d := by
  obtain ⟨i, hi⟩ := List.mem_iff_getElem?.mp hd
  rw [get?, lookUp, get?_positions h hi, Option.map_some, hi, Option.join_some]

/-- A name leads to what is left at the index where its definition stood. -/
theorem lookUp_without (h : ofSchema s = .ok ir) {i : Nat} (hd : ir.definitions[i]? = some d)
    (dropped : List String) :
    (ir.without dropped).lookUp d.name = some (ir.without dropped).definitions[i]? := by
  rw [lookUp, positions_without, get?_positions h hd, Option.map_some]

/-- A definition that is kept is found by its name exactly where none of those in front of it is
dropped. -/
theorem lookUp_without_eq_iff (h : ofSchema s = .ok ir) {front back : List Definition}
    (hds : ir.definitions = front ++ d :: back) {dropped : List String} (hd : d.name ∉ dropped) :
    (ir.without dropped).lookUp d.name = some (some d) ↔ ∀ e ∈ front, e.name ∉ dropped := by
  have hn : ir.definitions.Nodup := .of_map _ (named_of_ofSchema h).names_nodup
  have hat : ir.definitions[front.length]? = some d := by simp [hds]
  have hleft : (ir.without dropped).definitions =
      (front ++ d :: back).filter fun e => !dropped.contains e.name := by
    rw [without, hds]
  have hindex := Lists.getElem?_filter_iff (p := fun e => !dropped.contains e.name) (hds ▸ hn)
    (by simpa using hd)
  rw [lookUp_without h hat, Option.some.injEq, hleft, hindex]
  simp

end Resolved.Schema

namespace Emit

/-- The text of a definition: its type, its codec and, for an enum, its handler set if these are
emitted. -/
def text (c : Config) (d : Resolved.Definition) : String :=
  joined (Types.definition c d) ++ joined (Codec.definition c (.ofDefinition d)) ++
    joined (handlers c d)

theorem joined_whole (c : Config) (d : Resolved.Definition) : joined (whole c d) = text c d := by
  rw [whole, joined_append, joined_append, text]

/-- The plans of a schema have an entry of its own for each definition, and only a runtime path that
is blank keeps the source text from being what the definitions are emitted as, behind a header. -/
structure Assembled (ir : Resolved.Schema) : Prop where
  codec : ∀ ek, ∀ d ∈ ir.definitions,
    (CodecPlan.ofSchema ek ir).get? d.name = some (.ofDefinition d)
  dispatch : ∀ e, .enum e ∈ ir.definitions →
    (DispatchPlan.ofSchema ir).find? (·.enum = e.name) = some (.ofEnum e)
  source_eq : ∀ c, Text.trim c.runtimePath.toList ≠ [] →
    source c ir = .ok (joined (header c ir.package) ++ String.join (ir.definitions.map (text c)))
  source_error : ∀ c e, source c ir = .error e →
    e = .blankRuntimePath ∧ Text.trim c.runtimePath.toList = []

theorem assembled {ir : Resolved.Schema} (hg : ∀ ek, (CodecPlan.ofSchema ek ir).Grounded) :
    Assembled ir where
  codec ek _ hd := get?_of_mem (hg ek) hd
  dispatch _ he := find?_of_mem (names_nodup_of_grounded (hg .reject)) he
  source_eq c hc := by
    simp only [source_eq (hg _), List.isEmpty_iff, hc, if_false, joined_append, joined_flatMap,
      joined_whole]
  source_error c e he := by
    by_cases hc : Text.trim c.runtimePath.toList = []
    · simp only [source_eq (hg _), List.isEmpty_iff, hc, if_true, Except.error.injEq] at he
      exact ⟨he.symm, hc⟩
    · simp [source_eq (hg _), hc] at he

section Schema

variable {s : Schema} {ir : Resolved.Schema}

/-- What is left after dropping is resolved one by one, in the order of dependency. -/
theorem resolves_without (h : Resolved.Schema.ofSchema s = .ok ir) (dropped : List String) :
    ∃ ds, s.dependencyOrder = .ok ds ∧
      List.Forall₂ (fun d r => Resolved.Definition.ofDefinition d = .ok r)
        (ds.filter fun d => !dropped.contains d.name) (ir.without dropped).definitions := by
  obtain ⟨-, ds, hds, hres⟩ := Resolved.ofSchema_eq_ok h
  refine ⟨ds, hds, List.rel_filter ?_ hres⟩
  intro d r hdr
  simp only [Resolved.Definition.name_eq hdr]

theorem exists_counterpart (h : Resolved.Schema.ofSchema s = .ok ir) {e : Enum}
    (he : .enum e ∈ s.definitions) {dropped : List String} (hd : e.name ∉ dropped) :
    ∃ r, .enum r ∈ (ir.without dropped).definitions ∧ r.name = e.name ∧
      e.Counterparts r (.ofEnum r) (.ofEnum r) := by
  obtain ⟨hv, ds, hds, hres⟩ := Resolved.ofSchema_eq_ok h
  have hm := (Schema.mem_dependencyOrder (Schema.linked_of_validate hv) hds).mpr he
  obtain ⟨r, hr, hdr⟩ := Lists.exists_of_mem_left hres hm
  obtain ⟨vs, hvs, rfl⟩ := Resolved.ofDefinition_enum hdr
  have htags := (Schema.checkVariants_eq_ok_iff.mp ((Schema.validate_eq_ok_iff.mp hv).2 _ he)).2.2
  refine ⟨⟨e.name, e.docs, vs⟩, List.mem_filter.mpr ⟨hr, ?_⟩, rfl, e.counterparts rfl hvs htags⟩
  simpa [Resolved.Definition.name] using hd

/-- Whatever definitions of an accepted schema are dropped, the source text of the others is put
together from their own types, codecs and handler sets, in the order of dependency, and each enum
that is left has its counterparts: the one that its name was resolved to, which is left, too, and
those that the plans have for its name. -/
theorem assembled_of_ofSchema (h : Resolved.Schema.ofSchema s = .ok ir) (dropped : List String) :
    Assembled (ir.without dropped) ∧
      (∃ ds, s.dependencyOrder = .ok ds ∧
        List.Forall₂ (fun d r => Resolved.Definition.ofDefinition d = .ok r)
          (ds.filter fun d => !dropped.contains d.name) (ir.without dropped).definitions) ∧
      ∀ e, .enum e ∈ s.definitions → e.name ∉ dropped → ∃ r c p,
        ir.get? e.name = some (.enum r) ∧ .enum r ∈ (ir.without dropped).definitions ∧
        (∀ ek, (CodecPlan.ofSchema ek (ir.without dropped)).get? e.name = some (.enum c)) ∧
        (DispatchPlan.ofSchema (ir.without dropped)).find? (·.enum = e.name) = some p ∧
        e.Counterparts r c p := by
  have ha := assembled fun ek => CodecPlan.grounded_without ek dropped h
  refine ⟨ha, resolves_without h dropped, fun e he hd => ?_⟩
  obtain ⟨r, hr, hn, hc⟩ := exists_counterpart h he hd
  refine ⟨r, .ofEnum r, .ofEnum r, ?_, hr, fun ek => ?_, ?_, hc⟩
  · rw [← hn]
    exact Resolved.Schema.get?_of_mem h (List.mem_of_mem_filter hr)
  · rw [← hn]
    exact ha.codec ek _ hr
  · rw [← hn]
    exact ha.dispatch r hr

end Schema

/-- Books that are put together without the pages they are made of still have the marks. -/
theorem assembled_books :
    Resolved.Schema.ofSchema CodecPlan.Books.schema = .ok CodecPlan.Books.resolved ∧
      Assembled (CodecPlan.Books.resolved.without ["Page"]) ∧
      ∃ r c p, CodecPlan.Books.resolved.get? "Mark" = some (.enum r) ∧
        .enum r ∈ (CodecPlan.Books.resolved.without ["Page"]).definitions ∧
        Enum.Counterparts ⟨"Mark", none, [⟨"Blank", none, none, []⟩,
          ⟨"Dot", some "dot", none, [⟨none, .unsigned .w8, none⟩]⟩]⟩ r c p := by
  obtain ⟨ha, -, he⟩ := assembled_of_ofSchema CodecPlan.Books.ofSchema_schema ["Page"]
  obtain ⟨r, c, p, hr, hleft, -, -, hc⟩ :=
    he _ (List.mem_cons_of_mem _ List.mem_cons_self) (by decide)
  exact ⟨CodecPlan.Books.ofSchema_schema, ha, r, c, p, hr, hleft, hc⟩

end Emit

end TaggedSum
