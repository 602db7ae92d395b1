import TaggedSum.Proofs.Schema.Resolved

namespace TaggedSum

open Outcome

def Field.plain (f : Field) : Field := { f with docs := f.docs.map fun _ => "" }

def Variant.plain (v : Variant) : Variant :=
  { v with docs := v.docs.map fun _ => "", fields := v.fields.map Field.plain }

def Definition.plain : Definition → Definition
  | enum e => enum ⟨e.name, e.docs.map fun _ => "", e.variants.map Variant.plain⟩
  | struct s => struct ⟨s.name, s.docs.map fun _ => "", s.fields.map Field.plain⟩

/-- The schema without free text. Documentation that is there stays, but says nothing. -/
def Schema.plain (s : Schema) : Schema :=
  ⟨"", none, s.definitions.map Definition.plain, s.unlisted⟩

namespace Resolved

def Variant.plain (v : Variant) : Variant :=
  { v with docs := v.docs.map fun _ => "", fields := v.fields.map Field.plain }

def Enum.plain (e : Enum) : Enum :=
  ⟨e.name, e.docs.map fun _ => "", e.variants.map Variant.plain⟩

def Struct.plain (s : Struct) : Struct :=
  ⟨s.name, s.docs.map fun _ => "", s.shape, s.fields.map Field.plain⟩

def Definition.plain : Definition → Definition
  | enum e => enum e.plain
  | struct s => struct s.plain

end Resolved

@[simp] theorem Field.name_plain (f : Field) : f.plain.name = f.name := rfl

@[simp] theorem Field.type_plain (f : Field) : f.plain.type = f.type := rfl

theorem Definition.name_plain (d : Definition) : d.plain.name = d.name := by
  cases d <;> rfl

theorem fields_plain (vs : List Variant) :
    (vs.map Variant.plain).flatMap (·.fields) = (vs.flatMap (·.fields)).map Field.plain := by
  rw [List.flatMap_map, List.map_flatMap]
  rfl

theorem Definition.references_plain (d : Definition) : d.plain.references = d.references := by
  have h : d.plain.fields = d.fields.map Field.plain := by
    cases d with
    | enum e => exact fields_plain e.variants
    | struct s => rfl
  rw [references, references, h, List.filterMap_map]
  rfl

theorem classify_plain (owner : String) (fields : List Field) :
    classify owner (fields.map Field.plain) = classify owner fields := by
  have hnames : ∀ p : Option String → Bool, (fields.map Field.plain).all (fun f => p f.name) =
      fields.all fun f => p f.name := fun p => by rw [List.all_map]; rfl
  unfold classify
  rw [hnames Option.isNone, hnames Option.isSome]
  rcases fields with _ | ⟨f, _ | ⟨g, fs⟩⟩ <;> rfl

namespace Schema

section Visit

variable {unopened ordered : List Definition} {path : List String} {name : String}

theorem visit_of_find? (hnew : ¬ordered.any (·.name == name)) {d : Definition}
    (hd : unopened.find? (·.name == name) = some d) : visit unopened path ordered name =
      (visitAll (unopened.eraseP (·.name == name)) (path ++ [name]) ordered d.references).map
        (· ++ [d]) := by
  rw [visit, if_neg hnew]
  split
  · next e he =>
    obtain rfl := Option.some.inj (hd.symm.trans he)
    split <;> next h => rw [h]; rfl
  · next he => cases hd.symm.trans he

theorem visit_of_find?_eq_none (hnew : ¬ordered.any (·.name == name))
    (hd : unopened.find? (·.name == name) = none) : visit unopened path ordered name =
      if path.contains name then .error (.circularReference (cycleFrom name path))
      else .ok ordered := by
  rw [visit, if_neg hnew]
  split
  · next e he => cases hd.symm.trans he
  · rfl

variable {f : Definition → Definition} (hn : ∀ d, (f d).name = d.name)
  (hr : ∀ d, (f d).references = d.references)

include hn in
theorem any_name_map (ds : List Definition) (name : String) :
    (ds.map f).any (·.name == name) = ds.any (·.name == name) := by
  simp only [List.any_map, Function.comp_def, hn]

include hn in
theorem find?_name_map {ds : List Definition} {found : Option Definition}
    (h : ds.find? (·.name == name) = found) :
    (ds.map f).find? (·.name == name) = found.map f := by
  simp only [← h, List.find?_map, Function.comp_def, hn]

include hn in
theorem eraseP_name_map (ds : List Definition) (name : String) :
    (ds.map f).eraseP (·.name == name) = (ds.eraseP (·.name == name)).map f := by
  simp only [List.eraseP_map, Function.comp_def, hn]

include hn hr in
/-- The search reads nothing of a definition but its name and its references. -/
theorem visit_map :
    (∀ unopened path ordered name, visit (unopened.map f) path (ordered.map f) name =
      (visit unopened path ordered name).map (List.map f)) ∧
    ∀ unopened path ordered names, visitAll (unopened.map f) path (ordered.map f) names =
      (visitAll unopened path ordered names).map (List.map f) := by
  -- both searches make the same calls, so the cases of the one are those of the other
  refine visit.mutual_induct_unfolding
    (fun unopened path ordered name r =>
      visit (unopened.map f) path (ordered.map f) name = r.map (List.map f))
    (fun unopened path ordered names r =>
      visitAll (unopened.map f) path (ordered.map f) names = r.map (List.map f))
    ?placed ?opened ?belowFails ?cycle ?unknown ?nil ?cons ?headFails
  case placed =>
    intro unopened path ordered name h
    rw [visit, any_name_map hn, if_pos h]
    rfl
  case opened =>
    intro unopened path ordered name hnew d hd ordered' hall ih
    rw [visit_of_find? (any_name_map hn ordered name ▸ hnew) (find?_name_map hn hd),
      eraseP_name_map hn, hr, ih, hall]
    simp
  case belowFails =>
    intro unopened path ordered name hnew d hd e hall ih
    rw [visit_of_find? (any_name_map hn ordered name ▸ hnew) (find?_name_map hn hd),
      eraseP_name_map hn, hr, ih, hall]
    rfl
  case cycle =>
    intro unopened path ordered name hnew hd hpath
    rw [visit_of_find?_eq_none (any_name_map hn ordered name ▸ hnew) (find?_name_map hn hd),
      if_pos hpath]
    rfl
  case unknown =>
    intro unopened path ordered name hnew hd hpath
    rw [visit_of_find?_eq_none (any_name_map hn ordered name ▸ hnew) (find?_name_map hn hd),
      if_neg hpath]
    rfl
  case nil =>
    intro unopened path ordered
    rw [visitAll]
    rfl
  case cons =>
    intro unopened path ordered name names ordered' hv ih ihs
    rw [visitAll, ih, hv]
    exact ihs
  case headFails =>
    intro unopened path ordered name names e hv ih
    rw [visitAll, ih, hv]
    rfl

theorem dependencyOrder_plain (s : Schema) :
    s.plain.dependencyOrder = s.dependencyOrder.map (List.map Definition.plain) := by
  have hnames : s.plain.definitions.map Definition.name = s.definitions.map Definition.name := by
    simp only [Schema.plain, List.map_map, Function.comp_def, Definition.name_plain]
  rw [dependencyOrder, hnames]
  exact (visit_map Definition.name_plain Definition.references_plain).2 s.definitions [] [] _

end Visit

end Schema

namespace Resolved

theorem ofVariants_plain {enum : String} {seen : List String} {vs : List TaggedSum.Variant}
    {rs : List Variant} (h : ofVariants enum seen vs = .ok rs) :
    ofVariants enum seen (vs.map TaggedSum.Variant.plain) = .ok (rs.map Variant.plain) := by
  induction vs generalizing seen rs with
  | nil =>
    cases h
    rfl
  | cons v vs ih =>
    have hname : v.plain.name = v.name := rfl
    have hshape : v.plain.shape = v.shape := classify_plain v.name v.fields
    obtain ⟨hs, shape, rest, hv, hrest, rfl⟩ := ofVariants_cons_eq_ok.mp h
    rw [List.map_cons, ofVariants_cons_eq_ok, hname, hshape]
    exact ⟨hs, shape, rest.map Variant.plain, hv, ih hrest, rfl⟩

theorem ofDefinition_plain {d : TaggedSum.Definition} {r : Definition}
    (h : Definition.ofDefinition d = .ok r) : Definition.ofDefinition d.plain = .ok r.plain := by
  cases d with
  | enum e =>
    simp only [Definition.ofDefinition, bind_eq_ok, pure_def] at h
    obtain ⟨vs, hvs, h⟩ := h
    cases h
    simp only [TaggedSum.Definition.plain, Definition.ofDefinition, ofVariants_plain hvs, ok_bind]
    rfl
  | struct s =>
    obtain ⟨shape, hs, rfl⟩ := ofDefinition_struct h
    have hp : (⟨s.name, s.docs.map fun _ => "", s.fields.map Field.plain⟩ :
        TaggedSum.Struct).shape = .ok shape := (classify_plain s.name s.fields).trans hs
    simp only [TaggedSum.Definition.plain, Definition.ofDefinition, hp, ok_bind]
    rfl

/-- Resolving a schema and taking its free text away can be done in either order. -/
theorem definitions_plain {s : TaggedSum.Schema} {ir : Schema} (h : Schema.ofSchema s = .ok ir) :
    (s.plain.dependencyOrder >>= Definition.ofDefinitions) =
      .ok (ir.definitions.map Definition.plain) := by
  obtain ⟨-, ds, hds, hres⟩ := ofSchema_eq_ok h
  rw [TaggedSum.Schema.dependencyOrder_plain, hds, map_ok, ok_bind, ofDefinitions_eq_ok_iff,
    List.forall₂_map_left_iff, List.forall₂_map_right_iff]
  exact hres.imp fun _ _ => ofDefinition_plain

/-- Schemas that differ in their free text only resolve to definitions that differ likewise. -/
theorem definitions_eq_of_plain {s s' : TaggedSum.Schema} {ir ir' : Schema}
    (h : Schema.ofSchema s = .ok ir) (h' : Schema.ofSchema s' = .ok ir')
    (hp : s.plain = s'.plain) :
    ir.definitions.map Definition.plain = ir'.definitions.map Definition.plain := by
  have hd := definitions_plain h
  rw [hp, definitions_plain h'] at hd
  exact (Except.ok.inj hd).symm

end Resolved

end TaggedSum
