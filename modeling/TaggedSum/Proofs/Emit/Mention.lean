import TaggedSum.Proofs.Emit.Declared
import TaggedSum.Proofs.Schema.Named

namespace TaggedSum.Emit

/-- What the types of fields refer to. -/
def references (fields : List Field) : List String := fields.filterMap (·.type.reference?)

/-- The definitions whose `from_json` a reader calls. -/
def ReadExpr.callees : ReadExpr → List String
  | definition type _ _ => [type]
  | seq _ _ item => item.callees
  | map _ _ entry => entry.callees
  | _ => []

/-- What the type refers to is told from the types that emitted code has of its own. -/
def Readable (t : FieldType) : Prop :=
  ∀ n, t.reference? = some n → Text.isIdentifier n ∧ n ∉ Schema.reservedNames

section FieldType

variable {t : FieldType}

theorem starts_typeName (h : Readable t) : Starts (typeName t) := by
  cases t with
  | reference n => exact starts_of_continues (Text.continues_of_isIdentifier (h n rfl).1)
  | string => exact ⟨'S', _, rfl, by decide⟩
  | bool => exact ⟨'b', _, rfl, by decide⟩
  | signed w => exact Starts.append ⟨'i', [], rfl, by decide⟩ _
  | unsigned w => exact Starts.append ⟨'u', [], rfl, by decide⟩ _
  | seq t => exact (Starts.append ⟨'V', ['e', 'c', '<'], rfl, by decide⟩ _).append _
  | map t =>
    have hs : Starts "std::collections::BTreeMap<String, " := ⟨'s', _, rfl, by decide⟩
    exact (hs.append _).append _

theorem reads_own {s : String} (h : IsWord s) (ho : isOwn s) : Reads s [] := by
  have hr := h.reads
  rwa [if_pos ho] at hr

/-- The text of a type mentions the name that the type refers to. -/
theorem reads_typeName (h : Readable t) : Reads (typeName t) t.reference?.toList := by
  induction t with
  | string => exact reads_own (by decide) (by decide)
  | bool => exact reads_own (by decide) (by decide)
  | signed w => cases w <;> exact reads_own (by decide) (by decide)
  | unsigned w => cases w <;> exact reads_own (by decide) (by decide)
  | reference n =>
    obtain ⟨hi, hr⟩ := h n rfl
    have ho : isOwn n = false := by
      have hne : n ≠ "'h" := by
        rintro rfl
        revert hi
        decide
      simp [isOwn, hr, hne]
    have hw := (isWord_of_continues (Text.continues_of_isIdentifier hi)).reads
    rwa [ho] at hw
  | seq t ih => exact ((ih h).prepend (by decide) (by decide)).close
  | map t ih => exact ((ih h).prepend (by decide) (by decide)).close

theorem callees_ofType (t : FieldType) (j : Operand) (place : PlaceTerm) :
    (ReadExpr.ofType t j place).callees = t.reference?.toList.map identifier := by
  induction t generalizing j place with
  | seq t ih => exact ih _ _
  | map t ih => exact ih _ _
  | _ => rfl

end FieldType

section Fields

variable {fields : List Field} {c : Config} {visibility : String}

theorem flatMap_references (fields : List Field) :
    (fields.flatMap fun f => f.type.reference?.toList) = references fields :=
  (List.filterMap_eq_flatMap_toList _ fields).symm

/-- Members of a payload stand beside their names. -/
theorem flatMap_bindings {α : Type} (fields : List Field) (g : Field → List α) :
    (((Resolved.bindings fields).zip fields).flatMap fun x => g x.2) = fields.flatMap g := by
  have hm : ((Resolved.bindings fields).zip fields).map Prod.snd = fields :=
    List.map_snd_zip (by simp [Resolved.bindings])
  rw [← List.flatMap_map Prod.snd g, hm]

theorem reads_commaList {α : Type} {xs : List α} {text : α → String} {names : α → List String}
    (h : ∀ x ∈ xs, Reads (text x) (names x)) :
    Reads (commaList (xs.map text)) (xs.flatMap names) := by
  rw [List.flatMap_def]
  refine Reads.commaList ?_
  rw [List.forall₂_map_left_iff, List.forall₂_map_right_iff, List.forall₂_same]
  exact h

theorem reads_fieldTypes {start : String} (hf : ∀ f ∈ fields, Readable f.type)
    (he : Ended start.toList) (hq : Quiet start) :
    Reads (commaList (fields.map fun f => start ++ typeName f.type)) (references fields) := by
  rw [← flatMap_references]
  exact reads_commaList fun f hfm => (reads_typeName (hf f hfm)).prepend he hq.typesIn

theorem reads_params (hf : ∀ f ∈ fields, Readable f.type)
    (hb : ∀ n ∈ Resolved.bindings fields, Text.Continues n) :
    Reads (commaList (Types.params fields)) (references fields) := by
  rw [← flatMap_references, ← flatMap_bindings]
  refine reads_commaList ?_
  rintro ⟨n, f⟩ hm
  obtain ⟨hn, hfm⟩ := List.of_mem_zip hm
  refine (reads_typeName (hf f hfm)).prepend (Ended.prepend (by decide) (by decide)) ?_
  exact ((isWord_identifier (hb n hn)).quiet.append (by decide)).typesIn

theorem map_type_params (v : Resolved.Variant) :
    (DispatchPlan.armOf v).params.map (·.type) = v.fields.map (·.type) := by
  have hl : (v.fields.map (·.type)).length ≤ (Resolved.bindings v.fields).length := by
    simp [Resolved.bindings]
  rw [DispatchPlan.armOf, List.map_zipWith, ← List.map_uncurry_zip_eq_zipWith]
  exact List.map_snd_zip hl

theorem reads_borrowed {v : Resolved.Variant} (hf : ∀ f ∈ v.fields, Readable f.type) :
    Reads (Dispatch.borrowed (DispatchPlan.armOf v)) (references v.fields) := by
  have hm : (DispatchPlan.armOf v).params.map (fun p => "&" ++ typeName p.type) =
      v.fields.map fun f => "&" ++ typeName f.type := by
    simpa only [List.map_map, Function.comp_def] using
      congrArg (List.map fun t => "&" ++ typeName t) (map_type_params v)
  rw [Dispatch.borrowed, hm]
  exact reads_fieldTypes hf (by decide) (by decide)

theorem types_field {f : Field} (hf : Readable f.type)
    (hv : visibility = "" ∨ visibility = "pub ") :
    readCode typesOf [visibility ++ typeName f.type ++ ","] = f.type.reference?.toList := by
  have hs : Starts (visibility ++ typeName f.type) := by
    rcases hv with rfl | rfl
    · rw [String.empty_append]
      exact starts_typeName hf
    · exact Starts.append ⟨'p', _, rfl, by decide⟩ _
  refine types_quiet_line (hs.append _).isRemark ?_ ?_ (reads_typeName hf) rfl rfl rfl
  · rcases hv with rfl | rfl <;> decide
  · rcases hv with rfl | rfl <;> decide

theorem types_positional {head close : String} (hf : ∀ f ∈ fields, Readable f.type)
    (hs : Starts head) (hq : Quiet head) (hv : visibility = "" ∨ visibility = "pub ")
    (hc : close = "," ∨ close = ";") :
    readCode typesOf (Types.positional c head visibility close fields) = references fields := by
  unfold Types.positional
  split
  · have hclose : readCode typesOf [")" ++ close] = [] := by
      rcases hc with rfl | rfl <;> decide
    have hhead : readCode typesOf [head ++ "("] = [] := types_quiet (hq.append (by decide))
    rw [readCode_append, readCode_cons, readCode_indented, readCode_flatMap, hhead, hclose,
      List.nil_append, List.append_nil, ← flatMap_references]
    refine List.flatMap_congr fun f hfm => ?_
    rw [readCode_append, readCode_remarks _ (isRemark_docLines c f.docs),
      types_field (hf f hfm) hv, List.nil_append]
  · have hvisibility : Ended visibility.toList ∧ Quiet visibility := by
      rcases hv with rfl | rfl <;> decide
    rw [@String.append_assoc _ ")" close]
    refine types_quiet_line (((hs.append _).append _).append _).isRemark ?_ ?_
      (reads_fieldTypes hf hvisibility.1 hvisibility.2) (String.toList_append ..) rfl ?_
    · exact Ended.prepend (by decide) (by decide)
    · exact hq.append (by decide)
    · rcases hc with rfl | rfl <;> decide

theorem types_named (hf : ∀ f ∈ fields, Readable f.type)
    (hb : ∀ n ∈ Resolved.bindings fields, Text.Continues n)
    (hv : visibility = "" ∨ visibility = "pub ") :
    readCode typesOf (Types.named c visibility fields) = references fields := by
  rw [Types.named, readCode_flatMap, ← flatMap_references, ← flatMap_bindings]
  refine List.flatMap_congr ?_
  rintro ⟨n, f⟩ hm
  obtain ⟨hn, hfm⟩ := List.of_mem_zip hm
  have hs : Starts (visibility ++ identifier n) := by
    rcases hv with rfl | rfl
    · rw [String.empty_append]
      exact starts_identifier (hb n hn)
    · exact Starts.append ⟨'p', _, rfl, by decide⟩ _
  have hq : Quiet visibility := by
    rcases hv with rfl | rfl <;> decide
  rw [readCode_append, readCode_remarks _ (isRemark_docLines c f.docs), List.nil_append]
  exact types_quiet_line (((hs.append _).append _).append _).isRemark
    (Ended.prepend (t := ": ") (by decide) (by decide))
    ((hq.append (isWord_identifier (hb n hn)).quiet).append (by decide))
    (reads_typeName (hf f hfm)) rfl rfl rfl

end Fields

section Definition

variable {c : Config} {v : Resolved.Variant}

theorem types_variant (hn : Text.Continues v.name) (hb : Resolved.Bound v.shape v.fields)
    (hf : ∀ f ∈ v.fields, Readable f.type) (hne : v.fields ≠ []) :
    readCode typesOf (Types.variant c v) = references v.fields := by
  have hs := starts_identifier hn
  have hq := (isWord_identifier hn).quiet
  rw [Types.variant, readCode_append, readCode_remarks _ (isRemark_docLines c v.docs),
    List.nil_append]
  split
  · rename_i hshape
    exact absurd (hb.unit hshape) hne
  · exact types_positional hf hs hq (.inl rfl) (.inl rfl)
  · exact types_positional hf hs hq (.inl rfl) (.inl rfl)
  · rw [readCode_closedBy_block rfl, types_named hf hb.continues (.inl rfl),
      types_quiet (hq.append (by decide)), List.nil_append]

theorem types_struct {t : Resolved.Struct} (hn : Text.Continues t.name)
    (hb : Resolved.Bound t.shape t.fields) (hf : ∀ f ∈ t.fields, Readable f.type) :
    readCode typesOf (Types.struct c t) = references t.fields := by
  have hs : Starts ("pub struct " ++ identifier t.name) := starts_pub "struct " _
  have hq : Quiet ("pub struct " ++ identifier t.name) :=
    Quiet.append (by decide) (isWord_identifier hn).quiet
  have hempty : readCode typesOf [""] = [] := by decide
  rw [Types.struct, readCode_append, readCode_append, readCode_append,
    readCode_remarks _ (isRemark_docLines c t.docs), readCode_remarks _ (isRemark_derives c), hempty,
    List.append_nil, List.nil_append, List.nil_append]
  split
  · rename_i hshape
    rw [types_quiet (hq.append (by decide)), hb.unit hshape]
    rfl
  · exact types_positional hf hs hq (.inr rfl) (.inr rfl)
  · exact types_positional hf hs hq (.inr rfl) (.inr rfl)
  · rw [readCode_block rfl, types_named hf hb.continues (.inr rfl),
      types_quiet (hq.append (by decide)), List.nil_append]

theorem types_constructorLines (hh : Text.Continues v.handler)
    (hb : Resolved.Bound v.shape v.fields) (hf : ∀ f ∈ v.fields, Readable f.type) :
    readCode typesOf (opening (Types.constructorLines v)) = references v.fields := by
  have hq : Quiet ("pub fn " ++ ("new_" ++ v.handler) ++ "(") :=
    (Quiet.append (by decide)
      (Quiet.append (by decide) (isWord_of_continues hh).quiet)).append (by decide)
  have hs : Starts ("pub fn " ++ Types.constructorName v) := starts_pub "fn " _
  rw [opening_constructorLines]
  exact types_quiet_line (((hs.append _).append _).append _).isRemark
    (Ended.prepend (by decide) (by decide)) hq (reads_params hf hb.continues) rfl rfl (by decide)

theorem types_slot (hh : Text.Continues v.handler) (hf : ∀ f ∈ v.fields, Readable f.type) :
    readCode typesOf [identifier v.handler ++ ": Option<Box<dyn FnOnce(" ++
      Dispatch.borrowed (DispatchPlan.armOf v) ++ ") -> Result<R, E> + 'h>>,"] =
        references v.fields :=
  types_quiet_line ((((starts_identifier hh).append _).append _).append _).isRemark
    (Ended.prepend (by decide) (by decide)) ((isWord_identifier hh).quiet.append (by decide))
    (reads_borrowed hf) rfl rfl (by decide)

theorem types_handlersStruct {e : Resolved.Enum} (hn : Text.Continues e.name)
    (hh : ∀ v ∈ e.variants, Text.Continues v.handler)
    (hf : ∀ v ∈ e.variants, ∀ f ∈ v.fields, Readable f.type) :
    readCode typesOf (Dispatch.handlersStruct c (.ofEnum e)) =
      e.variants.flatMap fun v => references v.fields := by
  have hhead : readCode typesOf
      ["pub struct " ++ (DispatchPlan.ofEnum e).handlers ++ "<'h, R, E>" ++ " \x7b"] = [] := by
    have hq : Quiet ("pub struct " ++ (e.name ++ "Handlers")) :=
      Quiet.append (by decide) ((isWord_of_continues hn).quiet.append (by decide))
    refine readCode_eq_nil typesOf ?_
    rw [@String.append_assoc _ "<'h, R, E>", words, String.toList_append, List.append_assoc]
    exact (typesIn_skip hq (d := '<') (by decide) (by decide) _).trans (by decide)
  have hslots : (DispatchPlan.ofEnum e).arms.flatMap (fun a => readCode typesOf
      [identifier a.handler ++ ": Option<Box<dyn FnOnce(" ++ Dispatch.borrowed a ++
        ") -> Result<R, E> + 'h>>,"]) = e.variants.flatMap fun v => references v.fields := by
    rw [DispatchPlan.ofEnum, List.flatMap_map]
    exact List.flatMap_congr fun v hv => types_slot (hh v hv) (hf v hv)
  have hmarker : readCode typesOf
      ["_marker: std::marker::PhantomData<(&'h (), fn() -> (R, E))>,"] = [] := by decide
  rw [readCode_handlersStruct rfl, hhead, hslots, hmarker, List.nil_append, List.append_nil]

/-- A setter takes itself first. -/
theorem types_setterLines (hh : Text.Continues v.handler) (hf : ∀ f ∈ v.fields, Readable f.type) :
    readCode typesOf (opening (Dispatch.setterLines c (DispatchPlan.armOf v))) =
      "self" :: references v.fields := by
  have hs : Starts ("pub fn " ++ (DispatchPlan.armOf v).setter) := starts_pub "fn " _
  have hq : Quiet ("pub fn " ++ ("on_" ++ v.handler)) :=
    Quiet.append (by decide) (Quiet.append (by decide) (isWord_of_continues hh).quiet)
  have hself : typesIn ("pub fn " ++ (DispatchPlan.armOf v).setter ++
      "(mut self, handler: impl FnOnce(").toList = ["self"] := by
    rw [String.toList_append]
    exact (typesIn_skip hq (d := '(') (by decide) (by decide) _).trans (by decide)
  rw [opening_setterLines]
  exact types_line (((hs.append _).append _).append _).isRemark
    (Ended.prepend (by decide) (by decide)) hself (reads_borrowed hf) rfl rfl (by decide)

end Definition

/-- What the code of a schema mentions of its definitions, and under which names it declares and
reads them. -/
structure Mentioned (c : Config) (s : Resolved.Schema) : Prop where
  /-- Enums and structs, constructor functions, handler sets and their setters mention what fields
  refer to by its name. -/
  variants : ∀ e ∈ s.enums, ∀ v ∈ e.variants, v.fields ≠ [] →
    readCode typesOf (Types.variant c v) = references v.fields
  structs : ∀ t ∈ s.structs, readCode typesOf (Types.struct c t) = references t.fields
  constructors : ∀ e ∈ s.enums, ∀ v ∈ e.variants,
    readCode typesOf (opening (Types.constructorLines v)) = references v.fields
  handlers : ∀ e ∈ s.enums, readCode typesOf (Dispatch.handlersStruct c (.ofEnum e)) =
    e.variants.flatMap fun v => references v.fields
  setters : ∀ e ∈ s.enums, ∀ v ∈ e.variants,
    readCode typesOf (opening (Dispatch.setterLines c (DispatchPlan.armOf v))) =
      "self" :: references v.fields
  /-- A definition is declared under the identifier of its name, and so is its codec. -/
  declared : ∀ d ∈ s.definitions,
    readCode (wordAt 2) (opening (Types.definition c d)) = [identifier d.name] ∧
    readCode (wordAt 1) (opening (Codec.definition c (.ofDefinition d))) = [identifier d.name]
  /-- A field that refers to a definition mentions its name and calls its identifier, which agree
  unless the name is a keyword. -/
  fields : ∀ d ∈ s.definitions, ∀ f ∈ d.fields, ∀ n, f.type.Mentions n → n ∈ s.names ∧
    readCode typesOf [typeName f.type ++ ","] = [n] ∧
    (∀ j place, (ReadExpr.ofType f.type j place).callees = [identifier n]) ∧
    (n = identifier n ↔ n ∉ pathKeywords ∧ n ∉ keywords)

theorem mentioned_of_ofSchema {s : Schema} {ir : Resolved.Schema} (c : Config)
    (h : Resolved.Schema.ofSchema s = .ok ir) : Mentioned c ir := by
  have hn := Resolved.Schema.named_of_ofSchema h
  have hread : ∀ d ∈ ir.definitions, ∀ f ∈ d.fields, Readable f.type := by
    intro d hd f hf n href
    have hmem := hn.references d hd f hf n href
    exact ⟨hn.identifiers n hmem, hn.unreserved n hmem⟩
  have hname : ∀ d ∈ ir.definitions, Text.Continues d.name := fun d hd =>
    hn.continues _ (List.mem_map_of_mem hd)
  have henum : ∀ e ∈ ir.enums, ∀ v ∈ e.variants, ∀ f ∈ v.fields, Readable f.type :=
    fun e he v hv f hf =>
      hread _ (Resolved.Schema.mem_enums.mp he) f (List.mem_flatMap.mpr ⟨v, hv, hf⟩)
  constructor
  · intro e he v hv hne
    have hv' := hn.enums e he
    exact types_variant (hv'.continues hv) (hv'.bound v hv) (henum e he v hv) hne
  · intro t ht
    have ht' := Resolved.Schema.mem_structs.mp ht
    exact types_struct (hname _ ht') (hn.structs t ht) (hread _ ht')
  · intro e he v hv
    have hv' := hn.enums e he
    exact types_constructorLines (hv'.continues_handler hv) (hv'.bound v hv) (henum e he v hv)
  · intro e he
    exact types_handlersStruct (hname _ (Resolved.Schema.mem_enums.mp he))
      (fun v hv => (hn.enums e he).continues_handler hv) (henum e he)
  · intro e he v hv
    exact types_setterLines ((hn.enums e he).continues_handler hv) (henum e he v hv)
  · exact fun d hd => ⟨name_definition (hname d hd), name_codec (hname d hd)⟩
  · intro d hd f hf n hm
    have href := FieldType.mentions_iff.mp hm
    refine ⟨hn.references d hd f hf n href, ?_, fun j place => ?_, ?_⟩
    · have htypes := types_field (hread d hd f hf) (.inl rfl)
      rwa [String.empty_append, href] at htypes
    · rw [callees_ofType, href]
      rfl
    · rw [← identifier_eq_self_iff, eq_comm]

namespace Keyword

def type : Resolved.Struct := ⟨"type", none, .unit, []⟩

def holder : Resolved.Struct :=
  ⟨"Holder", none, .struct, [⟨some "kinds", .seq (.reference "type"), none⟩]⟩

/-- A definition whose name is a keyword. -/
def schema : Schema :=
  ⟨"kinds", none, [.struct ⟨"type", none, []⟩, .struct ⟨"Holder", none, holder.fields⟩], 0⟩

def resolved : Resolved.Schema := .ofDefinitions "kinds" none [.struct type, .struct holder]

theorem ofSchema_schema : Resolved.Schema.ofSchema schema = .ok resolved := by
  have hd : schema.dependencyOrder = .ok schema.definitions := by cbv
  exact Resolved.ofSchema_of_ordered (by decide +kernel) hd (by decide +kernel)

end Keyword

theorem mentioned_keyword :
    Resolved.Schema.ofSchema Keyword.schema = .ok Keyword.resolved ∧
      Mentioned .standard Keyword.resolved :=
  ⟨Keyword.ofSchema_schema, mentioned_of_ofSchema .standard Keyword.ofSchema_schema⟩

/-- The type is declared and read under an identifier that its mention lacks. -/
theorem types_keyword :
    Resolved.Schema.ofSchema Keyword.schema = .ok Keyword.resolved ∧
      readCode typesOf (Types.struct .standard Keyword.holder) = ["type"] ∧
      readCode (wordAt 2) (opening (Types.definition .standard (.struct Keyword.type))) =
        ["r#type"] ∧
      ∀ j place, (ReadExpr.ofType (.seq (.reference "type")) j place).callees = ["r#type"] := by
  refine ⟨Keyword.ofSchema_schema, by decide +kernel, by decide +kernel, fun j place => ?_⟩
  rfl

end TaggedSum.Emit
