import TaggedSum.Emit.Source
import TaggedSum.Proofs.Codec.Lookup
import TaggedSum.Proofs.Emit.Scope

namespace TaggedSum.Emit

/-- The handler set of a definition: there is one for an enum, if handler sets are emitted. -/
def handlers (c : Config) : Resolved.Definition → List String
  | .enum e => if c.dispatch then Dispatch.plan c (.ofEnum e) else []
  | .struct _ => []

/-- All that is emitted of a definition. -/
def whole (c : Config) (d : Resolved.Definition) : List String :=
  Types.definition c d ++ Codec.definition c (.ofDefinition d) ++ handlers c d

variable {c : Config} {ir : Resolved.Schema}

theorem name_ofResolved (d : Resolved.Definition) : (Codec.ofDefinition d).name = d.name := by
  cases d <;> rfl

theorem names_nodup_of_grounded {ek : ExtraKeys} (hg : (CodecPlan.ofSchema ek ir).Grounded) :
    ir.names.Nodup := by
  have hn := hg.names_nodup
  simp only [CodecPlan.names, CodecPlan.ofSchema, List.map_map, Function.comp_def,
    name_ofResolved] at hn
  exact hn

theorem get?_of_mem {ek : ExtraKeys} (hg : (CodecPlan.ofSchema ek ir).Grounded)
    {d : Resolved.Definition} (hd : d ∈ ir.definitions) :
    (CodecPlan.ofSchema ek ir).get? d.name = some (.ofDefinition d) :=
  (CodecPlan.get?_eq_some_iff hg).mpr ⟨List.mem_map_of_mem hd, name_ofResolved d⟩

theorem find?_of_mem (hn : ir.names.Nodup) {e : Resolved.Enum} (he : .enum e ∈ ir.definitions) :
    (DispatchPlan.ofSchema ir).find? (·.enum = e.name) = some (.ofEnum e) := by
  have hplans : ((DispatchPlan.ofSchema ir).map (·.enum)).Nodup := by
    rw [DispatchPlan.ofSchema, List.map_map]
    exact hn.sublist (map_name_enums ir.definitions)
  exact Lists.find?_of_nodup hplans (List.mem_map_of_mem (Resolved.Schema.mem_enums.mpr he))

theorem codecOf_eq (hg : (CodecPlan.ofSchema c.extraKeys ir).Grounded) {d : Resolved.Definition}
    (hd : d ∈ ir.definitions) :
    codecOf c (.ofSchema c.extraKeys ir) d.name = .ok (Codec.definition c (.ofDefinition d)) := by
  rw [codecOf, get?_of_mem hg hd]

theorem dispatchOf_eq (hn : ir.names.Nodup) {d : Resolved.Definition} (hd : d ∈ ir.definitions) :
    dispatchOf c (DispatchPlan.ofSchema ir) d = .ok (handlers c d) := by
  cases d with
  | struct t => rfl
  | enum e => by_cases hc : c.dispatch <;> simp [dispatchOf, handlers, hc, find?_of_mem hn hd]

/-- The codec and the handler set of each definition are found. -/
theorem definitions_eq (hg : (CodecPlan.ofSchema c.extraKeys ir).Grounded) :
    definitions c (.ofSchema c.extraKeys ir) (DispatchPlan.ofSchema ir) ir.definitions =
      .ok (ir.definitions.flatMap (whole c)) := by
  suffices h : ∀ ds ⊆ ir.definitions, definitions c (.ofSchema c.extraKeys ir)
      (DispatchPlan.ofSchema ir) ds = .ok (ds.flatMap (whole c)) from h _ (List.Subset.refl _)
  intro ds hds
  induction ds with
  | nil => rfl
  | cons d ds ih =>
    obtain ⟨hd, hds⟩ := List.cons_subset.mp hds
    simp only [definitions, codecOf_eq hg hd, dispatchOf_eq (names_nodup_of_grounded hg) hd, ih hds,
      Outcome.ok_bind, Outcome.pure_def, List.flatMap_cons, whole]

theorem joined_append (a b : List String) : joined (a ++ b) = joined a ++ joined b := by
  rw [joined, List.map_append, String.join_append]
  rfl

theorem joined_flatMap {α : Type} (f : α → List String) (as : List α) :
    joined (as.flatMap f) = String.join (as.map fun a => joined (f a)) := by
  induction as with
  | nil => rfl
  | cons a as ih =>
    rw [List.flatMap_cons, joined_append, ih, List.map_cons, String.join_cons]

/-- Nothing but a blank runtime path stands against emitting a plan in which nothing leads back. -/
theorem source_eq (hg : (CodecPlan.ofSchema c.extraKeys ir).Grounded) :
    source c ir = if (Text.trim c.runtimePath.toList).isEmpty then .error .blankRuntimePath
      else .ok (joined (header c ir.package ++ ir.definitions.flatMap (whole c))) := by
  by_cases hb : (Text.trim c.runtimePath.toList).isEmpty = true
  · simp [source, hb]
  · simp [source, hb, definitions_eq hg]

theorem sourceOf_eq {s : Schema} (c : Config) (h : Resolved.Schema.ofSchema s = .ok ir) :
    sourceOf c s = if (Text.trim c.runtimePath.toList).isEmpty then .error .blankRuntimePath
      else .ok (joined (header c ir.package ++ ir.definitions.flatMap (whole c))) := by
  rw [sourceOf, h, Outcome.mapError_ok, Outcome.ok_bind, source_eq (grounded_ofSchema _ h)]

end TaggedSum.Emit
