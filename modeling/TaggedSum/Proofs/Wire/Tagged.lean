import TaggedSum.Proofs.Members
import TaggedSum.Wire.Tagged

namespace TaggedSum.Tagged

variable {ek : ExtraKeys} {tags : List String} {j : Json} {tag : String}

/-- The document of a tagged payload has one key, or, where others are ignored, one declared key. -/
def Under (ek : ExtraKeys) (tags : List String) (tag : String) (payload : Json)
    (ms : List (String × Json)) : Prop :=
  ms = [(tag, payload)] ∨
    ek = .ignore ∧ ms.filter (fun m => tags.contains m.1) = [(tag, payload)]

theorem ofJson_eq_bare (h : ofJson ek tags j = .ok (.bare tag)) : j = .string tag := by
  unfold ofJson at h
  split at h
  · cases h
    rfl
  · cases h
  · cases ek with
    | reject => cases h
    | ignore =>
      simp only [declared] at h
      split at h <;> cases h
  · cases h

theorem ofJson_eq_wrapped {payload : Json}
    (h : ofJson ek tags j = .ok (.wrapped tag payload)) :
    ∃ ms, j = .object ms ∧ Under ek tags tag payload ms := by
  unfold ofJson at h
  split at h
  · cases h
  · cases h
    exact ⟨_, rfl, .inl rfl⟩
  · cases ek with
    | reject => cases h
    | ignore =>
      simp only [declared] at h
      split at h
      · cases h
        exact ⟨_, rfl, .inr ⟨rfl, ‹_›⟩⟩
      · cases h
  · cases h

theorem ofJson_eq_error {e : DecodeError} (h : ofJson ek tags j = .error e) :
    e = .unrecognizedShape := by
  unfold ofJson at h
  split at h
  · cases h
  · cases h
  · cases ek with
    | reject => exact (Except.error.inj h).symm
    | ignore =>
      simp only [declared] at h
      split at h
      · cases h
      · exact (Except.error.inj h).symm
  · exact (Except.error.inj h).symm

variable {ms ms' : List (String × Json)} {payload : Json}

theorem Under.ofJson_eq (h : Under ek tags tag payload ms) :
    ofJson ek tags (.object ms) = .ok (.wrapped tag payload) := by
  rcases h with rfl | ⟨rfl, h⟩
  · rfl
  · match ms, h with
    | [m], h =>
      -- the only key is the declared one
      obtain rfl := List.mem_singleton.mp (List.mem_of_mem_filter (h ▸ List.mem_cons_self))
      rfl
    | m :: n :: rest, h =>
      simp only [ofJson, declared, h]

/-- An object is tagged by one of its keys, or its shape is not recognized. -/
theorem ofJson_object (ek : ExtraKeys) (tags : List String) (ms : List (String × Json)) :
    (∃ tag payload, Under ek tags tag payload ms) ∨
      (∀ tag payload, ¬Under ek tags tag payload ms) ∧
        ofJson ek tags (.object ms) = .error .unrecognizedShape := by
  by_cases h : ∃ tag payload, Under ek tags tag payload ms
  · exact .inl h
  · have hn : ∀ tag payload, ¬Under ek tags tag payload ms := fun tag payload hu =>
      h ⟨tag, payload, hu⟩
    refine .inr ⟨hn, ?_⟩
    cases ho : ofJson ek tags (.object ms) with
    | error e => rw [ofJson_eq_error ho]
    | ok tagged =>
      cases tagged with
      | bare tag => cases ofJson_eq_bare ho
      | wrapped tag payload =>
        obtain ⟨ms', he, hu⟩ := ofJson_eq_wrapped ho
        cases he
        exact absurd hu (hn tag payload)

/-- Which key is the tag depends on the keys only. -/
theorem Under.of_perm (hn : (Members.names ms).Perm (Members.names ms'))
    (h : Under ek tags tag payload ms) : ∃ payload', Under ek tags tag payload' ms' := by
  rcases h with rfl | ⟨hek, h⟩
  · obtain ⟨payload', rfl⟩ := Members.eq_singleton_of_names (List.perm_singleton.mp hn.symm)
    exact ⟨payload', .inl rfl⟩
  · have hp := hn.filter tags.contains
    rw [← Members.names_filter, ← Members.names_filter, h] at hp
    obtain ⟨payload', hp'⟩ := Members.eq_singleton_of_names (List.perm_singleton.mp hp.symm)
    exact ⟨payload', .inr ⟨hek, hp'⟩⟩

theorem Under.mem (h : Under ek tags tag payload ms) : (tag, payload) ∈ ms := by
  rcases h with rfl | ⟨-, h⟩
  · exact List.mem_cons_self
  · exact List.mem_of_mem_filter (h ▸ List.mem_cons_self)

/-- Of the declared keys, only the tag is there. -/
theorem Under.eq_of_mem (h : Under ek tags tag payload ms) {m : String × Json} (hm : m ∈ ms)
    (ht : m.1 ∈ tags) : m = (tag, payload) := by
  rcases h with rfl | ⟨-, h⟩
  · exact List.mem_singleton.mp hm
  · have hf : m ∈ ms.filter fun m => tags.contains m.1 :=
      List.mem_filter.mpr ⟨hm, List.contains_iff_mem.mpr ht⟩
    exact List.mem_singleton.mp (h ▸ hf)

end TaggedSum.Tagged
