import TaggedSum.Json.Reader
import TaggedSum.Proofs.Members

namespace TaggedSum.Json

/-- No object repeats a name, at any depth. -/
inductive Distinct : Json → Prop
  | null : Distinct .null
  | bool (b : Bool) : Distinct (.bool b)
  | number (n : Number) : Distinct (.number n)
  | string (s : String) : Distinct (.string s)
  | array {js : List Json} (h : ∀ j ∈ js, Distinct j) : Distinct (.array js)
  | object {ms : List (String × Json)} (hn : (Members.names ms).Nodup)
      (h : ∀ m ∈ ms, Distinct m.2) : Distinct (.object ms)

attribute [simp] Distinct.null Distinct.bool Distinct.number Distinct.string

@[simp] theorem distinct_array_iff {js : List Json} :
    (array js).Distinct ↔ ∀ j ∈ js, j.Distinct :=
  ⟨fun | .array h => h, .array⟩

@[simp] theorem distinct_object_iff {ms : List (String × Json)} :
    (object ms).Distinct ↔ (Members.names ms).Nodup ∧ ∀ m ∈ ms, m.2.Distinct :=
  ⟨fun | .object hn h => ⟨hn, h⟩, fun h => .object h.1 h.2⟩

mutual

theorem distinct_merged : ∀ j : Json, j.merged.Distinct
  | .null => .null
  | .bool b => .bool b
  | .number n => .number n
  | .string s => .string s
  | .array js => .array (distinct_mergedItems js)
  | .object ms => .object (Members.nodup_names_merge _) fun m hm =>
    distinct_mergedMembers ms m (Members.mem_of_mem_merge hm)

theorem distinct_mergedItems : ∀ js : List Json, ∀ j ∈ mergedItems js, j.Distinct
  | [] => List.forall_mem_nil _
  | j :: js => List.forall_mem_cons.mpr ⟨distinct_merged j, distinct_mergedItems js⟩

theorem distinct_mergedMembers :
    ∀ ms : List (String × Json), ∀ m ∈ mergedMembers ms, m.2.Distinct
  | [] => List.forall_mem_nil _
  | (_, j) :: ms => List.forall_mem_cons.mpr ⟨distinct_merged j, distinct_mergedMembers ms⟩

end

theorem distinct_of_parse? {s : String} {j : Json} (h : parse? s = some j) : j.Distinct := by
  simp only [parse?] at h
  split at h
  · obtain ⟨k, -, rfl⟩ := Option.map_eq_some_iff.mp h
    exact distinct_merged k
  · cases h

/-- The same document, but for the order of the members of its objects, at any depth. -/
inductive Reordered : Json → Json → Prop
  | same (j : Json) : Reordered j j
  | array {js js' : List Json} (hl : js.length = js'.length)
      (h : ∀ (n : Nat) (j j' : Json), js[n]? = some j → js'[n]? = some j' → Reordered j j') :
      Reordered (.array js) (.array js')
  | object {ms ms' : List (String × Json)} (hn : (Members.names ms).Perm (Members.names ms'))
      (h : ∀ name j j', Members.get? name ms = some j → Members.get? name ms' = some j' →
        Reordered j j') : Reordered (.object ms) (.object ms')

/-- The members may change within themselves and then move. -/
theorem Reordered.of_perm {ms ns ms' : List (String × Json)} (hd : (Members.names ms).Nodup)
    (h : Members.Related Reordered ms ns) (hp : ns.Perm ms') :
    Reordered (.object ms) (.object ms') := by
  have hn : (Members.names ms).Perm (Members.names ms') := by
    rw [Members.names_related h]
    exact hp.map Prod.fst
  refine .object hn fun name j j' hj hj' => ?_
  obtain ⟨k, hk, hjk⟩ := Members.get?_of_related h hj
  have hmem : (name, j') ∈ ns := hp.mem_iff.mpr (Members.mem_of_get? hj')
  rw [Members.get?_of_mem (Members.names_related h ▸ hd) hmem] at hk
  exact Option.some.inj hk ▸ hjk

end TaggedSum.Json
