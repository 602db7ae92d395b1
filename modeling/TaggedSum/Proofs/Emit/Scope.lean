import TaggedSum.Proofs.Emit.Declared
import TaggedSum.Proofs.Schema.Named

namespace TaggedSum.Emit

/-- The types of a schema: one for each definition, and a handler set for each enum. -/
def typeScope (s : Resolved.Schema) : List String :=
  s.names.map identifier ++ s.enums.map Resolved.Enum.handlersName

def variantScope (e : Resolved.Enum) : List String := (e.variants.map (·.name)).map identifier

def fieldScope (fields : List Field) : List String := (Resolved.bindings fields).map identifier

/-- The fields of a handler set. -/
def slotScope (p : DispatchPlan) : List String :=
  (p.arms.map (·.handler)).map identifier ++ ["_marker"]

/-- The functions of a handler set. -/
def setterScope (p : DispatchPlan) : List String := p.arms.map DispatchArm.setter ++ ["new"]

/-- The functions of an enum. -/
def functionScope (e : Resolved.Enum) : List String :=
  e.variants.map Types.constructorName ++ ["tag", "to_json", "from_json", "apply"]

/-- The scopes hold what is read from emitted code. -/
structure Declared (c : Config) (s : Resolved.Schema) : Prop where
  types : s.definitions.flatMap (fun d => readCode (wordAt 2) (opening (Types.definition c d))) ++
    s.enums.flatMap (fun e =>
      readCode (wordAt 2) (opening (Dispatch.handlersStruct c (.ofEnum e)))) = typeScope s
  variants : ∀ e ∈ s.enums, e.variants.flatMap (fun v =>
    readCode (wordAt 0) (opening (Types.variant c v))) = variantScope e
  fields : ∀ e ∈ s.enums, ∀ v ∈ e.variants,
    readCode (wordAt 0) (Types.named c "" v.fields) = fieldScope v.fields
  params : ∀ e ∈ s.enums, ∀ v ∈ e.variants,
    (Types.params v.fields).flatMap (fun p => wordAt 0 (words p)) = fieldScope v.fields
  members : ∀ t ∈ s.structs,
    readCode (wordAt 1) (Types.named c "pub " t.fields) = fieldScope t.fields
  slots : ∀ p ∈ DispatchPlan.ofSchema s,
    readCode (wordAt 0) (Dispatch.handlersStruct c p) = "pub" :: slotScope p
  setters : ∀ p ∈ DispatchPlan.ofSchema s, p.arms.flatMap (fun a =>
    readCode (wordAt 2) (opening (Dispatch.setterLines c a))) ++ ["new"] = setterScope p
  functions : ∀ e ∈ s.enums, e.variants.flatMap (fun v =>
    readCode (wordAt 2) (opening (Types.constructorLines v))) ++
      ["tag", "to_json", "from_json", "apply"] = functionScope e

/-- In each scope, no identifier is declared twice unless the names hold twins. -/
structure Apart (s : Resolved.Schema) : Prop where
  types : (typeScope s).Nodup ↔ ¬Twins s.names
  variants : ∀ e ∈ s.enums, (variantScope e).Nodup ↔ ¬Twins (e.variants.map (·.name))
  fields : ∀ e ∈ s.enums, ∀ v ∈ e.variants,
    (fieldScope v.fields).Nodup ↔ ¬Twins (Resolved.bindings v.fields)
  members : ∀ t ∈ s.structs, (fieldScope t.fields).Nodup ↔ ¬Twins (Resolved.bindings t.fields)
  slots : ∀ p ∈ DispatchPlan.ofSchema s, (slotScope p).Nodup ↔ ¬Twins (p.arms.map (·.handler))
  setters : ∀ p ∈ DispatchPlan.ofSchema s, (setterScope p).Nodup
  functions : ∀ e ∈ s.enums, (functionScope e).Nodup

section Enum

variable {e : Resolved.Enum} {shape : Shape} {fields : List Field}

theorem fieldScope_nodup_iff (h : Resolved.Bound shape fields) :
    (fieldScope fields).Nodup ↔ ¬Twins (Resolved.bindings fields) :=
  nodup_map_identifier_iff (fun n hn => (h.continues n hn).not_mem (by decide)) h.nodup

theorem variantScope_nodup_iff (h : e.Named) :
    (variantScope e).Nodup ↔ ¬Twins (e.variants.map (·.name)) := by
  refine nodup_map_identifier_iff (fun n hn => ?_) h.names_nodup
  obtain ⟨v, hv, rfl⟩ := List.mem_map.mp hn
  exact (h.continues hv).not_mem (by decide)

theorem handlers_ofEnum (e : Resolved.Enum) :
    (DispatchPlan.ofEnum e).arms.map (·.handler) = e.variants.map (·.handler) := by
  simp only [DispatchPlan.ofEnum, List.map_map]
  rfl

theorem head?_handler_ne (h : e.Named) {v : Resolved.Variant} (hv : v ∈ e.variants) :
    v.handler.toList.head? ≠ some '_' := by
  rw [h.handler_eq v hv]
  exact Text.head?_snakeCase_ne (Text.head?_ne_of_isMemberName (h.memberNames v hv))

theorem identifier_ne_marker {n : String} (h : n.toList.head? ≠ some '_') :
    identifier n ≠ "_marker" := by
  rcases identifier_cases n with ⟨hk, -⟩ | ⟨-, hn⟩ | hn
  · clear h
    revert n
    decide
  · intro he
    have := mark_mem_append n
    rw [← hn, he] at this
    exact absurd this (by decide)
  · rintro he
    rw [hn] at he
    rw [he] at h
    exact h (by decide)

theorem slotScope_nodup_iff (h : e.Named) :
    (slotScope (.ofEnum e)).Nodup ↔ ¬Twins ((DispatchPlan.ofEnum e).arms.map (·.handler)) := by
  have hmark : ∀ n ∈ e.variants.map (·.handler), '#' ∉ n.toList := by
    intro n hn
    obtain ⟨v, hv, rfl⟩ := List.mem_map.mp hn
    exact (h.continues_handler hv).not_mem (by decide)
  rw [slotScope, handlers_ofEnum, List.nodup_append,
    nodup_map_identifier_iff hmark h.handlers_nodup]
  refine and_iff_left ⟨List.nodup_singleton _, ?_⟩
  intro a ha b hb
  obtain ⟨n, hn, rfl⟩ := List.mem_map.mp ha
  obtain ⟨v, hv, rfl⟩ := List.mem_map.mp hn
  rw [List.mem_singleton.mp hb]
  exact identifier_ne_marker (head?_handler_ne h hv)

/-- Names behind one prefix differ from each other, and from names that do not start with it. -/
theorem nodup_prefixed {start : String} {names others : List String} (hn : names.Nodup)
    (ho : others.Nodup) (hs : ∀ o ∈ others, ¬start.toList <+: o.toList) :
    (names.map (start ++ ·) ++ others).Nodup := by
  refine List.nodup_append.mpr ⟨hn.map fun a b => (String.append_right_inj start).mp, ho, ?_⟩
  rintro a ha o ho rfl
  obtain ⟨n, -, rfl⟩ := List.mem_map.mp ha
  exact hs _ ho (String.toList_append ▸ List.prefix_append _ _)

theorem setterScope_nodup (h : e.Named) : (setterScope (.ofEnum e)).Nodup := by
  have hm : (DispatchPlan.ofEnum e).arms.map DispatchArm.setter =
      (e.variants.map (·.handler)).map ("on_" ++ ·) := by
    rw [← handlers_ofEnum, List.map_map]
    rfl
  rw [setterScope, hm]
  exact nodup_prefixed h.handlers_nodup (List.nodup_singleton _) (by decide)

theorem functionScope_nodup (h : e.Named) : (functionScope e).Nodup := by
  have hm : e.variants.map Types.constructorName =
      (e.variants.map (·.handler)).map ("new_" ++ ·) := by
    rw [List.map_map]
    rfl
  rw [functionScope, hm]
  exact nodup_prefixed h.handlers_nodup (by decide) (by decide)

end Enum

section Schema

variable {s : Resolved.Schema}

theorem map_name_enums (ds : List Resolved.Definition) :
    ((ds.filterMap (·.enum?)).map (·.name)).Sublist (ds.map Resolved.Definition.name) := by
  induction ds with
  | nil => exact .slnil
  | cons d ds ih =>
    cases d with
    | enum e => exact ih.cons_cons e.name
    | struct t => exact ih.cons t.name

theorem typeScope_nodup_iff (h : s.Named) : (typeScope s).Nodup ↔ ¬Twins s.names := by
  have hmark : ∀ n ∈ s.names, '#' ∉ n.toList := fun n hn =>
    (h.continues n hn).not_mem (by decide)
  have hname : ∀ e ∈ s.enums, e.name ∈ s.names := fun e he =>
    List.mem_map.mpr ⟨.enum e, Resolved.Schema.mem_enums.mp he, rfl⟩
  have hsets : (s.enums.map Resolved.Enum.handlersName).Nodup := by
    have hn : (s.enums.map (·.name)).Nodup := h.names_nodup.sublist (map_name_enums s.definitions)
    have hm : s.enums.map Resolved.Enum.handlersName =
        (s.enums.map (·.name)).map (· ++ "Handlers") := by
      rw [List.map_map]
      rfl
    rw [hm]
    exact hn.map fun a b => (String.append_left_inj "Handlers").mp
  rw [typeScope, List.nodup_append, nodup_map_identifier_iff hmark h.names_nodup]
  refine and_iff_left ⟨hsets, ?_⟩
  intro a ha b hb hab
  obtain ⟨n, hn, rfl⟩ := List.mem_map.mp ha
  obtain ⟨e, he, rfl⟩ := List.mem_map.mp hb
  rcases identifier_cases n with ⟨-, hi⟩ | ⟨-, hi⟩ | hi <;> rw [hi] at hab
  · -- a handler set ends in no underscore
    have := congrArg (fun t => t.toList.getLast?) hab
    simp [Resolved.Enum.handlersName, String.toList_append] at this
  · have hm := mark_mem_append n
    rw [hab, Resolved.Enum.handlersName, String.toList_append, List.mem_append] at hm
    exact hm.elim (hmark _ (hname e he)) (by decide)
  · exact h.apart n hn e he hab

theorem flatMap_eq_map {α : Type} {xs : List α} {f : α → List String} {g : α → String}
    (h : ∀ x ∈ xs, f x = [g x]) : xs.flatMap f = xs.map g := by
  rw [List.map_eq_flatMap]
  exact List.flatMap_congr h

theorem exists_ofEnum {p : DispatchPlan} (h : p ∈ DispatchPlan.ofSchema s) :
    ∃ e ∈ s.enums, p = .ofEnum e := by
  obtain ⟨e, he, rfl⟩ := List.mem_map.mp h
  exact ⟨e, he, rfl⟩

theorem Declared.of_named (c : Config) (h : s.Named) : Declared c s := by
  have hname : ∀ d ∈ s.definitions, Text.Continues d.name := fun d hd =>
    h.continues _ (List.mem_map_of_mem hd)
  constructor
  · have hset : ∀ e ∈ s.enums, IsWord (DispatchPlan.ofEnum e).handlers := fun e he =>
      (isWord_of_continues (hname _ (Resolved.Schema.mem_enums.mp he))).append (by decide)
    rw [flatMap_eq_map fun d hd => name_definition (hname d hd),
      flatMap_eq_map fun e he => name_handlersStruct (hset e he), typeScope, Resolved.Schema.names,
      List.map_map]
    rfl
  · intro e he
    rw [flatMap_eq_map fun v hv => name_variant ((h.enums e he).continues hv), variantScope,
      List.map_map]
    rfl
  · exact fun e he v hv => names_named ((h.enums e he).bound v hv).continues (.inl ⟨rfl, rfl⟩)
  · exact fun e he v hv => names_params ((h.enums e he).bound v hv).continues
  · exact fun t ht => names_named (h.structs t ht).continues (.inr ⟨rfl, rfl⟩)
  · intro p hp
    obtain ⟨e, he, rfl⟩ := exists_ofEnum hp
    refine names_handlersStruct fun a ha => ?_
    obtain ⟨v, hv, rfl⟩ := List.mem_map.mp ha
    exact (h.enums e he).continues_handler hv
  · intro p hp
    obtain ⟨e, he, rfl⟩ := exists_ofEnum hp
    have hsetter : ∀ a ∈ (DispatchPlan.ofEnum e).arms, Text.Continues a.handler := by
      intro a ha
      obtain ⟨v, hv, rfl⟩ := List.mem_map.mp ha
      exact (h.enums e he).continues_handler hv
    rw [flatMap_eq_map fun a ha => name_setterLines (hsetter a ha), setterScope]
  · intro e he
    rw [flatMap_eq_map fun v hv => name_constructorLines ((h.enums e he).continues_handler hv),
      functionScope]

theorem Apart.of_named (h : s.Named) : Apart s := by
  constructor
  · exact typeScope_nodup_iff h
  · exact fun e he => variantScope_nodup_iff (h.enums e he)
  · exact fun e he v hv => fieldScope_nodup_iff ((h.enums e he).bound v hv)
  · exact fun t ht => fieldScope_nodup_iff (h.structs t ht)
  · intro p hp
    obtain ⟨e, he, rfl⟩ := exists_ofEnum hp
    exact slotScope_nodup_iff (h.enums e he)
  · intro p hp
    obtain ⟨e, he, rfl⟩ := exists_ofEnum hp
    exact setterScope_nodup (h.enums e he)
  · exact fun e he => functionScope_nodup (h.enums e he)

/-- The names that the code of an accepted schema declares do not collide unless they hold
twins. -/
theorem apart_of_ofSchema {s : Schema} {ir : Resolved.Schema}
    (h : Resolved.Schema.ofSchema s = .ok ir) : (∀ c, Declared c ir) ∧ Apart ir := by
  have hn := Resolved.Schema.named_of_ofSchema h
  exact ⟨fun c => .of_named c hn, .of_named hn⟩

end Schema

namespace Twinned

/-- A struct with twins, which no check refuses. -/
def schema : Schema :=
  ⟨"twins", none, [.struct ⟨"Pair", none,
    [⟨some "self", .unsigned .w8, none⟩, ⟨some "self_", .unsigned .w8, none⟩]⟩], 0⟩

def pair : Resolved.Struct :=
  ⟨"Pair", none, .struct,
    [⟨some "self", .unsigned .w8, none⟩, ⟨some "self_", .unsigned .w8, none⟩]⟩

def resolved : Resolved.Schema := .ofDefinitions "twins" none [.struct pair]

theorem ofSchema_schema : Resolved.Schema.ofSchema schema = .ok resolved := by
  have hd : schema.dependencyOrder = .ok schema.definitions := by cbv
  exact Resolved.ofSchema_of_ordered (by decide +kernel) hd (by decide +kernel)

end Twinned

theorem apart_twinned :
    Resolved.Schema.ofSchema Twinned.schema = .ok Twinned.resolved ∧
      (∀ c, Declared c Twinned.resolved) ∧ Apart Twinned.resolved :=
  ⟨Twinned.ofSchema_schema, apart_of_ofSchema Twinned.ofSchema_schema⟩

/-- Both fields of the struct are emitted under one identifier. -/
theorem fieldScope_twinned :
    Resolved.Schema.ofSchema Twinned.schema = .ok Twinned.resolved ∧
      Twinned.pair ∈ Twinned.resolved.structs ∧
      readCode (wordAt 1) (Types.named .standard "pub " Twinned.pair.fields) =
        ["self_", "self_"] ∧
      ¬(fieldScope Twinned.pair.fields).Nodup :=
  ⟨Twinned.ofSchema_schema, List.mem_singleton_self _, by decide +kernel, by decide⟩

end TaggedSum.Emit
