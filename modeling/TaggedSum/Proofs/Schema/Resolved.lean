import TaggedSum.Proofs.Members
import TaggedSum.Proofs.Schema.Validation
import TaggedSum.Schema.Resolved

namespace TaggedSum

open Outcome

/-- A payload is a unit, a newtype, a tuple of at least two, or a struct of at least one. -/
theorem classify_eq_ok {owner : String} {fields : List Field} {shape : Shape}
    (h : classify owner fields = .ok shape) :
    (shape = .unit ∧ fields = []) ∨ (shape = .newtype ∧ ∃ f, fields = [f]) ∨
      (shape = .tuple ∧ 2 ≤ fields.length) ∨
      (shape = .struct ∧ ∀ f ∈ fields, f.name.isSome) := by
  unfold classify at h
  by_cases hnone : fields.all (·.name.isNone)
  · rw [if_pos hnone] at h
    match fields, h with
    | [], h =>
      cases h
      exact .inl ⟨rfl, rfl⟩
    | [f], h =>
      cases h
      exact .inr (.inl ⟨rfl, f, rfl⟩)
    | _ :: _ :: _, h =>
      cases h
      exact .inr (.inr (.inl ⟨rfl, by simp⟩))
  · rw [if_neg hnone] at h
    by_cases hsome : fields.all (·.name.isSome)
    · rw [if_pos hsome] at h
      cases h
      exact .inr (.inr (.inr ⟨rfl, List.all_eq_true.mp hsome⟩))
    · rw [if_neg hsome] at h
      cases h

/-- A resolved variant declares what the variant does. -/
def Variant.Resolves (v : Variant) (r : Resolved.Variant) : Prop :=
  v.shape = .ok r.shape ∧
    r = ⟨v.name, v.wireTag, v.docs, r.shape, v.fields, Text.snakeCase v.name⟩

namespace Resolved

/-- The fields of a struct are bound to their own names. -/
theorem bindings_of_isSome {fields : List Field} (h : ∀ f ∈ fields, f.name.isSome) :
    bindings fields = fields.filterMap (·.name) := by
  suffices hk : ∀ k, (fields.zipIdx k).map (fun x => x.1.name.getD ("f" ++ toString x.2)) =
      fields.filterMap (·.name) from hk 0
  induction fields with
  | nil => exact fun k => rfl
  | cons f fields ih =>
    intro k
    obtain ⟨n, hn⟩ := Option.isSome_iff_exists.mp (h f List.mem_cons_self)
    rw [List.zipIdx_cons, List.map_cons, List.filterMap_cons_some hn,
      ih fun g hg => h g (List.mem_cons_of_mem _ hg)]
    simp only [hn, Option.getD_some]

section Variants

variable {enum : String} {seen : List String} {v : TaggedSum.Variant} {vs : List TaggedSum.Variant}
  {rs : List Variant}

theorem ofVariants_cons_eq_ok : ofVariants enum seen (v :: vs) = .ok rs ↔
    Text.snakeCase v.name ∉ seen ∧ ∃ shape rest, v.shape = .ok shape ∧
      ofVariants enum (Text.snakeCase v.name :: seen) vs = .ok rest ∧
      rs = ⟨v.name, v.wireTag, v.docs, shape, v.fields, Text.snakeCase v.name⟩ :: rest := by
  by_cases hs : Text.snakeCase v.name ∈ seen
  · simp [ofVariants, hs]
  · simp only [ofVariants, List.contains_iff_mem, hs, if_false, pure_def, bind_eq_ok,
      not_false_eq_true, true_and, Except.ok.injEq, exists_and_left, eq_comm (a := rs)]

theorem resolves_of_ofVariants (h : ofVariants enum seen vs = .ok rs) :
    List.Forall₂ TaggedSum.Variant.Resolves vs rs := by
  induction vs generalizing seen rs with
  | nil =>
    cases h
    exact .nil
  | cons v vs ih =>
    obtain ⟨-, shape, rest, hshape, hrest, rfl⟩ := ofVariants_cons_eq_ok.mp h
    exact .cons ⟨hshape, rfl⟩ (ih hrest)

end Variants

theorem ofDefinition_enum {e : TaggedSum.Enum} {r : Definition}
    (h : Definition.ofDefinition (.enum e) = .ok r) :
    ∃ vs, List.Forall₂ TaggedSum.Variant.Resolves e.variants vs ∧
      r = .enum ⟨e.name, e.docs, vs⟩ := by
  simp only [Definition.ofDefinition, bind_eq_ok, pure_def] at h
  obtain ⟨vs, hvs, h⟩ := h
  cases h
  exact ⟨vs, resolves_of_ofVariants hvs, rfl⟩

theorem ofDefinition_struct {t : TaggedSum.Struct} {r : Definition}
    (h : Definition.ofDefinition (.struct t) = .ok r) :
    ∃ shape, t.shape = .ok shape ∧ r = .struct ⟨t.name, t.docs, shape, t.fields⟩ := by
  simp only [Definition.ofDefinition, bind_eq_ok, pure_def] at h
  obtain ⟨shape, hshape, h⟩ := h
  cases h
  exact ⟨shape, hshape, rfl⟩

namespace Definition

theorem name_eq {d : TaggedSum.Definition} {r : Definition} (h : ofDefinition d = .ok r) :
    r.name = d.name := by
  cases d with
  | enum e =>
    obtain ⟨vs, -, rfl⟩ := Resolved.ofDefinition_enum h
    rfl
  | struct t =>
    obtain ⟨shape, -, rfl⟩ := Resolved.ofDefinition_struct h
    rfl

theorem map_name_eq {ds : List TaggedSum.Definition} {rs : List Definition}
    (h : List.Forall₂ (fun d r => ofDefinition d = .ok r) ds rs) :
    rs.map name = ds.map TaggedSum.Definition.name := by
  induction h with
  | nil => rfl
  | cons h _ ih => rw [List.map_cons, List.map_cons, ih, name_eq h]

end Definition

theorem ofDefinitions_eq_ok_iff {ds : List TaggedSum.Definition} {rs : List Definition} :
    Definition.ofDefinitions ds = .ok rs ↔
      List.Forall₂ (fun d r => Definition.ofDefinition d = .ok r) ds rs := by
  constructor
  · intro h
    induction ds generalizing rs with
    | nil =>
      cases h
      exact .nil
    | cons d ds ih =>
      simp only [Definition.ofDefinitions, bind_eq_ok, pure_def] at h
      obtain ⟨r, hr, rs', hrs, h⟩ := h
      cases h
      exact .cons hr (ih hrs)
  · intro h
    induction h with
    | nil => rfl
    | cons h _ ih => simp only [Definition.ofDefinitions, h, ih, ok_bind, pure_def]

/-- The steps of resolving: the checks, the order, and the definitions one by one. -/
theorem ofSchema_eq_ok_iff {s : TaggedSum.Schema} {ir : Schema} :
    Schema.ofSchema s = .ok ir ↔ s.validate = .ok () ∧ ∃ ds, s.dependencyOrder = .ok ds ∧
      ∃ rs, List.Forall₂ (fun d r => Definition.ofDefinition d = .ok r) ds rs ∧
        ir = .ofDefinitions s.package s.description rs := by
  rw [Schema.ofSchema, check_bind_eq_ok]
  simp only [bind_eq_ok, pure_def, ofDefinitions_eq_ok_iff, Except.ok.injEq, eq_comm (b := ir)]

theorem ofSchema_of_ordered {s : TaggedSum.Schema} {ds : List TaggedSum.Definition}
    {rs : List Definition} (hv : s.validate = .ok ()) (hds : s.dependencyOrder = .ok ds)
    (hrs : Definition.ofDefinitions ds = .ok rs) :
    Schema.ofSchema s = .ok (.ofDefinitions s.package s.description rs) :=
  ofSchema_eq_ok_iff.mpr ⟨hv, ds, hds, rs, ofDefinitions_eq_ok_iff.mp hrs, rfl⟩

theorem ofSchema_eq_ok {s : TaggedSum.Schema} {ir : Schema} (h : Schema.ofSchema s = .ok ir) :
    s.validate = .ok () ∧ ∃ ds, s.dependencyOrder = .ok ds ∧
      List.Forall₂ (fun d r => Definition.ofDefinition d = .ok r) ds ir.definitions := by
  obtain ⟨hv, ds, hds, rs, hrs, rfl⟩ := ofSchema_eq_ok_iff.mp h
  exact ⟨hv, ds, hds, hrs⟩

theorem eq_ofDefinitions_of_ofSchema {s : TaggedSum.Schema} {ir : Schema}
    (h : Schema.ofSchema s = .ok ir) :
    ir = .ofDefinitions s.package s.description ir.definitions := by
  obtain ⟨-, ds, -, rs, -, rfl⟩ := ofSchema_eq_ok_iff.mp h
  rfl

namespace Schema

@[simp] theorem positions_without (s : Schema) (names : List String) :
    (s.without names).positions = s.positions := rfl

theorem names_positions (ds : List Definition) :
    Members.names (ds.zipIdx.map fun (d, i) => (d.name, i)) = ds.map Definition.name := by
  have hfst : ds.map Definition.name = (ds.zipIdx.map Prod.fst).map Definition.name := by
    rw [List.zipIdx_map_fst]
  rw [hfst, Members.names, List.map_map, List.map_map]
  rfl

theorem get?_positionsOf {ds : List Definition} (hn : (ds.map Definition.name).Nodup) {i : Nat}
    {d : Definition} (hd : ds[i]? = some d) : Members.get? d.name (positionsOf ds) = some i := by
  rw [← names_positions] at hn
  rw [positionsOf, Members.merge_eq_self hn]
  exact Members.get?_of_mem hn (List.mem_map_of_mem (List.mk_mem_zipIdx_iff_getElem?.mpr hd))

end Schema

end Resolved

end TaggedSum
