import TaggedSum.Proofs.Outcome
import TaggedSum.Proofs.Schema.Document

namespace TaggedSum

open Outcome

namespace Draft

theorem legible_type {j : Json} {t : FieldType} (h : Draft.type j = .ok t) : t.Legible := by
  obtain ⟨s, -, h⟩ := bind_eq_ok.mp h
  split at h
  · rename_i htype
    cases h
    exact FieldType.legible_of_ofChars? htype
  · cases h

theorem forall_of_items {α : Type} {read : Json → Except DataError α} {P : α → Prop}
    (hr : ∀ j a, read j = .ok a → P a) {js : List Json} {as : List α}
    (h : items read js = .ok as) : ∀ a ∈ as, P a := by
  induction js generalizing as with
  | nil =>
    cases h
    exact List.forall_mem_nil _
  | cons j js ih =>
    obtain ⟨a, ha, h⟩ := bind_eq_ok.mp h
    obtain ⟨as, has, h⟩ := bind_eq_ok.mp h
    cases h
    exact List.forall_mem_cons.mpr ⟨hr j a ha, ih has⟩

theorem forall_of_list {α : Type} {read : Json → Except DataError α} {P : α → Prop}
    (hr : ∀ j a, read j = .ok a → P a) {j : Json} {as : List α} (h : list read j = .ok as) :
    ∀ a ∈ as, P a := by
  cases j with
  | array js => exact forall_of_items hr h
  | _ => cases h

theorem required_eq_ok {α : Type} {name : String} {o : Option α} {a : α} :
    required name o = .ok a ↔ o = some a := by
  cases o <;> simp [required]

theorem legible_setField {d d' : OfField} {m : String × Json}
    (hd : ∀ t, d.type = some t → t.Legible) (h : d.set m = .ok d') :
    ∀ t, d'.type = some t → t.Legible := by
  simp only [OfField.set] at h
  split at h
  · obtain ⟨o, -, rfl⟩ := checked_eq_ok h
    exact hd
  · obtain ⟨t, ht, rfl⟩ := checked_eq_ok h
    rintro t ⟨⟩
    exact legible_type ht
  · obtain ⟨o, -, rfl⟩ := checked_eq_ok h
    exact hd
  · cases h
    exact hd

theorem legible_field {j : Json} {f : Field} (h : field j = .ok f) : f.type.Legible := by
  cases j with
  | object ms =>
    obtain ⟨d, hd, h⟩ := bind_eq_ok.mp h
    obtain ⟨t, ht, h⟩ := bind_eq_ok.mp h
    cases h
    have hl : ∀ t, d.type = some t → t.Legible :=
      foldlM_preserves (P := fun d : OfField => ∀ t, d.type = some t → t.Legible)
        (fun _ _ _ => legible_setField) (by rintro t ⟨⟩) hd
    exact hl t (required_eq_ok.mp ht)
  | array js =>
    obtain ⟨name, -, h⟩ := bind_eq_ok.mp h
    obtain ⟨t, ht, h⟩ := bind_eq_ok.mp h
    obtain ⟨docs, -, h⟩ := bind_eq_ok.mp h
    obtain ⟨-, h⟩ := check_bind_eq_ok.mp h
    cases h
    cases hj : js[1]? with
    | none =>
      rw [hj] at ht
      cases ht
    | some j =>
      rw [hj] at ht
      exact legible_type ht
  | _ => cases h

/-- The fields of a list that may not have been read. -/
def LegibleFields (fields : Option (List Field)) : Prop :=
  ∀ fs, fields = some fs → ∀ f ∈ fs, f.type.Legible

theorem legible_list {j : Json} {fs : List Field} (h : list field j = .ok fs) :
    ∀ f ∈ fs, f.type.Legible :=
  forall_of_list (fun _ _ => legible_field) h

theorem legible_setVariant {d d' : OfVariant} {m : String × Json} (hd : LegibleFields d.fields)
    (h : d.set m = .ok d') : LegibleFields d'.fields := by
  simp only [OfVariant.set] at h
  split at h
  · obtain ⟨o, -, rfl⟩ := checked_eq_ok h
    exact hd
  · obtain ⟨o, -, rfl⟩ := checked_eq_ok h
    exact hd
  · obtain ⟨o, -, rfl⟩ := checked_eq_ok h
    exact hd
  · obtain ⟨fs, hfs, rfl⟩ := checked_eq_ok h
    rintro fs ⟨⟩
    exact legible_list hfs
  · cases h
    exact hd

theorem forall_getD {α : Type} {P : α → Prop} {o : Option (List α)}
    (h : ∀ as, o = some as → ∀ a ∈ as, P a) : ∀ a ∈ o.getD [], P a := by
  cases o with
  | none => exact List.forall_mem_nil _
  | some as => exact h as rfl

theorem forall_of_entryOr {α : Type} {read : Json → Except DataError (List α)} {P : α → Prop}
    (hr : ∀ j as, read j = .ok as → ∀ a ∈ as, P a) {o : Option Json} {as : List α}
    (h : entryOr [] read o = .ok as) : ∀ a ∈ as, P a := by
  cases o with
  | none =>
    cases h
    exact List.forall_mem_nil _
  | some j => exact hr j as h

theorem legible_variant {j : Json} {v : Variant} (h : variant j = .ok v) :
    ∀ f ∈ v.fields, f.type.Legible := by
  cases j with
  | object ms =>
    obtain ⟨d, hd, h⟩ := bind_eq_ok.mp h
    obtain ⟨name, -, h⟩ := bind_eq_ok.mp h
    cases h
    exact forall_getD (foldlM_preserves (P := fun d : OfVariant => LegibleFields d.fields)
      (fun _ _ _ => legible_setVariant) (by rintro fs ⟨⟩) hd)
  | array js =>
    obtain ⟨name, -, h⟩ := bind_eq_ok.mp h
    obtain ⟨tag, -, h⟩ := bind_eq_ok.mp h
    obtain ⟨docs, -, h⟩ := bind_eq_ok.mp h
    obtain ⟨fields, hf, h⟩ := bind_eq_ok.mp h
    obtain ⟨-, h⟩ := check_bind_eq_ok.mp h
    cases h
    exact forall_of_entryOr (fun _ _ => legible_list) hf
  | _ => cases h

theorem entries_set {α : Type} {key : String} {read : Json → Except DataError α} {P : α → Prop}
    (hr : ∀ j a, read j = .ok a → P a) {d d' : OfDefinition α} {m : String × Json}
    (hd : ∀ as, d.entries = some as → ∀ a ∈ as, P a) (h : d.set key read m = .ok d') :
    ∀ as, d'.entries = some as → ∀ a ∈ as, P a := by
  simp only [OfDefinition.set] at h
  split at h
  · obtain ⟨o, -, rfl⟩ := checked_eq_ok h
    exact hd
  · split at h
    · obtain ⟨o, -, rfl⟩ := checked_eq_ok h
      exact hd
    · split at h
      · obtain ⟨as, has, rfl⟩ := checked_eq_ok h
        rintro as ⟨⟩
        exact forall_of_list hr has
      · cases h
        exact hd

theorem entries_foldlM {α : Type} {key : String} {read : Json → Except DataError α}
    {P : α → Prop} (hr : ∀ j a, read j = .ok a → P a) {ms : List (String × Json)}
    {d : OfDefinition α} (h : ms.foldlM (OfDefinition.set key read) ⟨none, none, none⟩ = .ok d) :
    ∀ a ∈ d.entries.getD [], P a :=
  forall_getD (foldlM_preserves
    (P := fun d : OfDefinition α => ∀ as, d.entries = some as → ∀ a ∈ as, P a)
    (fun _ _ _ => entries_set hr) (by rintro as ⟨⟩) h)

theorem legible_enum {name : String} {docs : Option String} {vs : List Variant}
    (h : ∀ v ∈ vs, ∀ f ∈ v.fields, f.type.Legible) :
    (Definition.enum ⟨name, docs, vs⟩).Legible := by
  intro f hf
  obtain ⟨v, hv, hf⟩ := List.mem_flatMap.mp hf
  exact h v hv f hf

theorem legible_ofMembers {k : DefinitionKind} {ms : List (String × Json)} {d : Definition}
    (h : ofMembers k ms = .ok d) : d.Legible := by
  cases k with
  | enum =>
    obtain ⟨r, hr, h⟩ := bind_eq_ok.mp h
    obtain ⟨name, -, h⟩ := bind_eq_ok.mp h
    cases h
    exact legible_enum (entries_foldlM (fun _ _ => legible_variant) hr)
  | struct =>
    obtain ⟨r, hr, h⟩ := bind_eq_ok.mp h
    obtain ⟨name, -, h⟩ := bind_eq_ok.mp h
    cases h
    exact entries_foldlM (fun _ _ => legible_field) hr

theorem legible_ofEntries {k : DefinitionKind} {js : List Json} {d : Definition}
    (h : ofEntries k js = .ok d) : d.Legible := by
  obtain ⟨name, -, h⟩ := bind_eq_ok.mp h
  obtain ⟨docs, -, h⟩ := bind_eq_ok.mp h
  cases k with
  | enum =>
    obtain ⟨vs, hvs, h⟩ := bind_eq_ok.mp h
    obtain ⟨-, h⟩ := check_bind_eq_ok.mp h
    cases h
    exact legible_enum
      (forall_of_entryOr (fun _ _ => forall_of_list fun _ _ => legible_variant) hvs)
  | struct =>
    obtain ⟨fs, hfs, h⟩ := bind_eq_ok.mp h
    obtain ⟨-, h⟩ := check_bind_eq_ok.mp h
    cases h
    exact forall_of_entryOr (fun _ _ => legible_list) hfs

end Draft

namespace Reading

theorem legible_data {r : Except DataError Definition} {d : Definition}
    (hr : ∀ d, r = .ok d → d.Legible) (h : data r = .ok d) : d.Legible :=
  hr d (mapError_eq_ok.mp h)

theorem mismatch_ne_ok {α : Type} {wanted : Wanted} {v : Outline} {a : α} :
    mismatch wanted v ≠ .ok a := by
  intro h
  obtain ⟨f, -, h⟩ := bind_eq_ok.mp h
  cases h

theorem legible_definition {v : Outline} {d : Definition} (h : definition v = .ok d) :
    d.Legible := by
  simp only [definition] at h
  split at h
  · obtain ⟨c, -, h⟩ := bind_eq_ok.mp h
    obtain ⟨-, h⟩ := check_bind_eq_ok.mp h
    refine legible_data (fun d hd => ?_) h
    obtain ⟨k, -, hd⟩ := bind_eq_ok.mp hd
    exact Draft.legible_ofMembers hd
  · obtain ⟨-, h⟩ := check_bind_eq_ok.mp h
    cases h
  · obtain ⟨k, -, h⟩ := bind_eq_ok.mp h
    obtain ⟨js, -, h⟩ := bind_eq_ok.mp h
    obtain ⟨-, h⟩ := check_bind_eq_ok.mp h
    exact legible_data (fun d hd => Draft.legible_ofEntries hd) h
  · exact absurd h mismatch_ne_ok

theorem legible_definitions {vs : List Outline} {ds : List Definition}
    (h : definitions vs = .ok ds) : ∀ d ∈ ds, d.Legible := by
  induction vs generalizing ds with
  | nil =>
    cases h
    exact List.forall_mem_nil _
  | cons v vs ih =>
    obtain ⟨d, hd, h⟩ := bind_eq_ok.mp h
    obtain ⟨ds, hds, h⟩ := bind_eq_ok.mp h
    cases h
    exact List.forall_mem_cons.mpr ⟨legible_definition hd, ih hds⟩

theorem legible_definitionList {v : Outline} {ds : List Definition}
    (h : definitionList v = .ok ds) : ∀ d ∈ ds, d.Legible := by
  simp only [definitionList] at h
  split at h
  · obtain ⟨ds, hds, h⟩ := bind_eq_ok.mp h
    obtain ⟨-, h⟩ := check_bind_eq_ok.mp h
    cases h
    exact legible_definitions hds
  · exact absurd h mismatch_ne_ok

theorem legible_set {d d' : OfSchema} {m : List Piece × Outline}
    (hd : ∀ ds, d.definitions = some ds → ∀ d ∈ ds, d.Legible) (h : d.set m = .ok d') :
    ∀ ds, d'.definitions = some ds → ∀ d ∈ ds, d.Legible := by
  obtain ⟨name, -, h⟩ := bind_eq_ok.mp h
  split at h
  · obtain ⟨o, -, rfl⟩ := checked_eq_ok h
    exact hd
  · obtain ⟨o, -, rfl⟩ := checked_eq_ok h
    exact hd
  · obtain ⟨ds, hds, rfl⟩ := checked_eq_ok h
    rintro ds ⟨⟩
    exact legible_definitionList hds
  · split at h
    · cases h
      exact hd
    · cases h

theorem legible_schema {v : Outline} {s : Schema} (h : schema v = .ok s) :
    ∀ d ∈ s.definitions, d.Legible := by
  simp only [schema] at h
  split at h
  · obtain ⟨d, hd, h⟩ := bind_eq_ok.mp h
    obtain ⟨-, h⟩ := check_bind_eq_ok.mp h
    obtain ⟨package, -, h⟩ := bind_eq_ok.mp h
    cases h
    exact Draft.forall_getD (foldlM_preserves
      (P := fun d : OfSchema => ∀ ds, d.definitions = some ds → ∀ d ∈ ds, d.Legible)
      (fun _ _ _ => legible_set) (by rintro ds ⟨⟩) hd)
  · rename_i vs closed
    obtain ⟨package, -, h⟩ := bind_eq_ok.mp h
    obtain ⟨description, -, h⟩ := bind_eq_ok.mp h
    obtain ⟨ds, hds, h⟩ := bind_eq_ok.mp h
    obtain ⟨-, h⟩ := check_bind_eq_ok.mp h
    cases h
    cases hv : vs[2]? with
    | none =>
      rw [hv, entryOr, check_bind_eq_ok] at hds
      cases hds.2
      exact List.forall_mem_nil _
    | some v =>
      rw [hv] at hds
      exact legible_definitionList hds
  · exact absurd h mismatch_ne_ok

end Reading

end TaggedSum
