import Mathlib.Data.List.Nodup
import TaggedSum.Emit.Name

namespace TaggedSum.Emit

variable {a b name : String} {names : List String}

theorem identifier_pathKeyword (h : name ∈ pathKeywords) : identifier name = name ++ "_" := by
  rw [identifier, if_pos (List.contains_iff_mem.mpr h)]

theorem identifier_keyword (hp : name ∉ pathKeywords) (hk : name ∈ keywords) :
    identifier name = "r#" ++ name := by
  rw [identifier, if_neg (mt List.contains_iff_mem.mp hp), if_pos (List.contains_iff_mem.mpr hk)]

theorem identifier_plain (hp : name ∉ pathKeywords) (hk : name ∉ keywords) :
    identifier name = name := by
  rw [identifier, if_neg (mt List.contains_iff_mem.mp hp), if_neg (mt List.contains_iff_mem.mp hk)]

theorem identifier_cases (name : String) :
    (name ∈ pathKeywords ∧ identifier name = name ++ "_") ∨
      (name ∈ keywords ∧ identifier name = "r#" ++ name) ∨ identifier name = name := by
  by_cases hp : name ∈ pathKeywords
  · exact .inl ⟨hp, identifier_pathKeyword hp⟩
  · by_cases hk : name ∈ keywords
    · exact .inr (.inl ⟨hk, identifier_keyword hp hk⟩)
    · exact .inr (.inr (identifier_plain hp hk))

theorem append_ne_self {mark : String} (h : mark.length ≠ 0) : name ++ mark ≠ name := fun he =>
  h (Nat.add_eq_left.mp (String.length_append name mark ▸ congrArg String.length he))

theorem prepend_ne_self {mark : String} (h : mark.length ≠ 0) : mark ++ name ≠ name := fun he =>
  h (Nat.add_eq_right.mp (String.length_append mark name ▸ congrArg String.length he))

/-- A name is its own identifier unless it is a keyword. -/
theorem identifier_eq_self_iff :
    identifier name = name ↔ name ∉ pathKeywords ∧ name ∉ keywords := by
  refine ⟨fun h => ?_, fun h => identifier_plain h.1 h.2⟩
  have hp : name ∉ pathKeywords := by
    intro hp
    rw [identifier_pathKeyword hp] at h
    exact append_ne_self (by decide) h
  refine ⟨hp, fun hk => ?_⟩
  rw [identifier_keyword hp hk] at h
  exact prepend_ne_self (by decide) h

/-- With an underscore behind it, a keyword that cannot be marked is none. -/
theorem identifier_underscore (h : name ∈ pathKeywords) :
    identifier (name ++ "_") = name ++ "_" := by
  revert name
  decide

theorem mark_mem_append (name : String) : '#' ∈ ("r#" ++ name).toList := by
  simp [String.toList_append]

theorem mark_not_mem_append (h : '#' ∉ name.toList) : '#' ∉ (name ++ "_").toList := by
  simpa [String.toList_append] using h

theorem identifier_eq_identifier (ha : '#' ∉ a.toList) (hb : '#' ∉ b.toList)
    (h : identifier a = identifier b) :
    a = b ∨ (a ∈ pathKeywords ∧ b = a ++ "_") ∨ (b ∈ pathKeywords ∧ a = b ++ "_") := by
  have ha' := mark_not_mem_append ha
  have hb' := mark_not_mem_append hb
  rcases identifier_cases a with ⟨hpa, hia⟩ | ⟨-, hia⟩ | hia <;>
    rcases identifier_cases b with ⟨hpb, hib⟩ | ⟨-, hib⟩ | hib <;> rw [hia, hib] at h
  · exact .inl (String.append_left_inj "_" |>.mp h)
  · exact absurd (h ▸ mark_mem_append b) ha'
  · exact .inr (.inl ⟨hpa, h.symm⟩)
  · exact absurd (h ▸ mark_mem_append a) hb'
  · exact .inl (String.append_right_inj "r#" |>.mp h)
  · exact absurd (h ▸ mark_mem_append a) hb
  · exact .inr (.inr ⟨hpb, h⟩)
  · exact absurd (h ▸ mark_mem_append b) ha
  · exact .inl h

/-- The names hold a keyword that cannot be marked, and also that keyword with an underscore
behind it. -/
def Twins (names : List String) : Prop := ∃ k ∈ pathKeywords, k ∈ names ∧ k ++ "_" ∈ names

instance (names : List String) : Decidable (Twins names) :=
  inferInstanceAs (Decidable (∃ k ∈ pathKeywords, k ∈ names ∧ k ++ "_" ∈ names))

/-- Distinct names have distinct identifiers unless they hold twins. -/
theorem nodup_map_identifier_iff (hm : ∀ n ∈ names, '#' ∉ n.toList) (hn : names.Nodup) :
    (names.map identifier).Nodup ↔ ¬Twins names := by
  constructor
  · rintro h ⟨k, hk, hk₁, hk₂⟩
    have he := List.inj_on_of_nodup_map h hk₁ hk₂
      ((identifier_pathKeyword hk).trans (identifier_underscore hk).symm)
    exact append_ne_self (by decide) he.symm
  · intro ht
    refine hn.map_on fun a ha b hb h => ?_
    rcases identifier_eq_identifier (hm a ha) (hm b hb) h with h | ⟨hk, rfl⟩ | ⟨hk, rfl⟩
    · exact h
    · exact absurd ⟨a, hk, ha, hb⟩ ht
    · exact absurd ⟨b, hk, hb, ha⟩ ht

end TaggedSum.Emit
