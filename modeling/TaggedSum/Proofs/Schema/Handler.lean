import TaggedSum.Proofs.Schema.Named
import TaggedSum.Proofs.Schema.WellFormed
import TaggedSum.Proofs.Text.SnakeCase

namespace TaggedSum.Resolved

open Outcome

section Variants

variable {enum : String} {vs : List TaggedSum.Variant} {rs : List Variant} {e : TaggedSum.Enum}

theorem map_handler (h : List.Forall₂ TaggedSum.Variant.Resolves vs rs) :
    rs.map (·.handler) = handlerNames vs := by
  induction h with
  | nil => rfl
  | cons h _ ih =>
    rw [handlerNames, List.map_cons, List.map_cons, ih, h.2]
    rfl

/-- Variants that have shapes are resolved exactly if their handlers have different names. -/
theorem exists_ofVariants_iff (hs : ∀ v ∈ vs, ∃ shape, v.shape = .ok shape) :
    (∃ rs, ofVariants enum [] vs = .ok rs) ↔ (handlerNames vs).Nodup := by
  constructor
  · rintro ⟨rs, h⟩
    rw [← map_handler (resolves_of_ofVariants h)]
    exact (handlers_of_ofVariants h).1
  · intro hn
    cases h : ofVariants enum [] vs with
    | ok rs => exact ⟨rs, rfl⟩
    | error e =>
      obtain ⟨handler, -, ⟨hseen, -⟩ | hdup⟩ := ofVariants_eq_error hs h
      · cases hseen
      · exact absurd hn hdup.not_nodup

theorem exists_ofDefinition_iff (hs : ∀ v ∈ e.variants, ∃ shape, v.shape = .ok shape) :
    (∃ r, Definition.ofDefinition (.enum e) = .ok r) ↔ (handlerNames e.variants).Nodup := by
  have hiff : (∃ rs, ofVariants e.name [] e.variants = .ok rs) ↔ (handlerNames e.variants).Nodup :=
    exists_ofVariants_iff hs
  rw [← hiff]
  simp only [Definition.ofDefinition, bind_eq_ok, pure_def]
  constructor
  · rintro ⟨r, vs, hvs, -⟩
    exact ⟨vs, hvs⟩
  · rintro ⟨vs, hvs⟩
    exact ⟨_, vs, hvs, rfl⟩

theorem handlers_of_ofDefinition {r : Enum}
    (h : Definition.ofDefinition (.enum e) = .ok (.enum r)) :
    r.variants.map (·.handler) = handlerNames e.variants := by
  obtain ⟨vs, hvs, h⟩ := ofDefinition_enum h
  cases h
  exact map_handler hvs

end Variants

theorem memberName_of_validate {s : TaggedSum.Schema} (h : s.validate = .ok ())
    {e : TaggedSum.Enum} (he : e ∈ s.enums) {v : TaggedSum.Variant} (hv : v ∈ e.variants) :
    Text.MemberName v.name := by
  obtain ⟨d, hd, hde⟩ := TaggedSum.Schema.mem_enums.mp he
  have hcheck := (TaggedSum.Schema.validate_eq_ok_iff.mp h).2 d hd
  cases d with
  | struct t => cases hde
  | enum x =>
    obtain rfl := Option.some.inj hde
    have hall := (TaggedSum.Schema.checkVariants_eq_ok_iff.mp hcheck).1
    exact Text.isMemberName_iff.mp (hall v hv).1

/-- Snake case settles at once, and only lowers what it does not part; accepted variants have
handlers with names that can be declared, and an enum whose payloads have shapes is resolved, with
these names, exactly if they are different. -/
theorem handlerNames_sound :
    (∀ n, Text.snakeCase (Text.snakeCase n) = Text.snakeCase n ∧
      (Text.snakeCase n).toList.filter (· != '_') =
        (n.toList.filter (· != '_')).map Char.toLower ∧
      (n.toList.map Char.toLower).Sublist (Text.snakeCase n).toList) ∧
    (∀ s : TaggedSum.Schema, s.validate = .ok () → ∀ e ∈ s.enums, ∀ v ∈ e.variants,
      Text.HandlerName (Text.snakeCase v.name)) ∧
    ∀ e : TaggedSum.Enum, (∀ v ∈ e.variants, ∃ shape, v.shape = .ok shape) →
      ((∃ r, Definition.ofDefinition (.enum e) = .ok r) ↔ (handlerNames e.variants).Nodup) ∧
      ∀ r, Definition.ofDefinition (.enum e) = .ok (.enum r) →
        r.variants.map (·.handler) = handlerNames e.variants := by
  refine ⟨fun n => ?_, fun s h e he v hv => ?_, fun e hs => ?_⟩
  · rw [Text.snakeCase, Text.snakeCase, String.toList_ofList]
    exact ⟨congrArg String.ofList (Text.snake_snake n.toList), Text.filter_snake n.toList,
      Text.sublist_snake n.toList⟩
  · exact (memberName_of_validate h he hv).handlerName
  · exact ⟨exists_ofDefinition_iff hs, fun r => handlers_of_ofDefinition⟩

/-- The handler of a variant of an accepted enum has a name, which that of another variant shares,
so the enum is not resolved. -/
theorem handlerNames_sound_clashing :
    TaggedSum.Schema.Clashing.schema.validate = .ok () ∧
      ∃ e ∈ TaggedSum.Schema.Clashing.schema.enums, (∃ v ∈ e.variants, v.name = "FilledDot" ∧
        Text.HandlerName (Text.snakeCase v.name)) ∧
        (∀ v ∈ e.variants, ∃ shape, v.shape = .ok shape) ∧
        ¬∃ r, Definition.ofDefinition (.enum e) = .ok r := by
  obtain ⟨-, hname, henum⟩ := handlerNames_sound
  have hv := TaggedSum.Schema.Clashing.validate_schema
  refine ⟨hv, _, List.mem_cons_self, ⟨_, List.mem_cons_self, rfl, ?_⟩, ?_⟩
  · exact hname _ hv _ List.mem_cons_self _ List.mem_cons_self
  · have hs : ∀ v ∈ [(⟨"FilledDot", some "dot", none, [⟨none, .reference "Point", none⟩]⟩ :
        TaggedSum.Variant), ⟨"Filled_dot", none, none, [⟨none, .seq (.reference "Point"), none⟩]⟩],
        ∃ shape, v.shape = .ok shape := by
      simp only [List.forall_mem_cons]
      exact ⟨⟨.newtype, rfl⟩, ⟨.newtype, rfl⟩, List.forall_mem_nil _⟩
    refine ⟨hs, ?_⟩
    rw [(henum _ hs).1]
    decide +kernel

end TaggedSum.Resolved
