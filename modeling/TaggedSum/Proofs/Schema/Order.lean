import Mathlib.Data.List.Nodup
import TaggedSum.Schema.Resolution

namespace TaggedSum.Schema

/-- Definitions that are made from others by appending definitions of a pool, each under a new name
and behind all that it refers to. -/
inductive Grows (pool ds : List Definition) : List Definition → Prop where
  | refl : Grows pool ds ds
  | snoc {es : List Definition} {d : Definition} (h : Grows pool ds es) (hd : d ∈ pool)
      (hn : d.name ∉ es.map Definition.name)
      (hr : ∀ r ∈ d.references, r ∈ es.map Definition.name) : Grows pool ds (es ++ [d])

namespace Grows

variable {pool pool' ds es fs : List Definition}

theorem mono (h : Grows pool ds es) (hp : ∀ d ∈ pool, d ∈ pool') : Grows pool' ds es := by
  induction h with
  | refl => exact .refl
  | snoc _ hd hn hr ih => exact ih.snoc (hp _ hd) hn hr

theorem trans (h : Grows pool ds es) (h' : Grows pool es fs) : Grows pool ds fs := by
  induction h' with
  | refl => exact h
  | snoc _ hd hn hr ih => exact ih.snoc hd hn hr

theorem mem (h : Grows pool ds es) {d : Definition} (hd : d ∈ es) : d ∈ ds ∨ d ∈ pool := by
  induction h with
  | refl => exact .inl hd
  | snoc _ hp _ _ ih =>
    rcases List.mem_append.mp hd with hd | hd
    · exact ih hd
    · exact .inr (List.mem_singleton.mp hd ▸ hp)

theorem mem_of_mem (h : Grows pool ds es) {d : Definition} (hd : d ∈ ds) : d ∈ es := by
  induction h with
  | refl => exact hd
  | snoc _ _ _ _ ih => exact List.mem_append_left _ ih

theorem mem_names (h : Grows pool ds es) {n : String} (hn : n ∈ ds.map Definition.name) :
    n ∈ es.map Definition.name := by
  obtain ⟨d, hd, rfl⟩ := List.mem_map.mp hn
  exact List.mem_map.mpr ⟨d, h.mem_of_mem hd, rfl⟩

theorem names_nodup (h : Grows pool [] es) : (es.map Definition.name).Nodup := by
  induction h with
  | refl => exact List.Pairwise.nil
  | snoc _ _ hn _ ih =>
    rw [List.map_append, List.map_singleton]
    refine List.nodup_append.mpr ⟨ih, List.pairwise_singleton _ _, ?_⟩
    intro a ha b hb
    rw [List.mem_singleton.mp hb]
    exact fun he => hn (he ▸ ha)

/-- All that a definition refers to is there. -/
theorem closed (h : Grows pool [] es) {d : Definition} (hd : d ∈ es) :
    ∀ r ∈ d.references, r ∈ es.map Definition.name := by
  induction h with
  | refl => exact absurd hd List.not_mem_nil
  | snoc _ _ _ hr ih =>
    rw [List.map_append]
    rcases List.mem_append.mp hd with hd | hd
    · exact fun r hm => List.mem_append_left _ (ih hd r hm)
    · exact fun r hm => List.mem_append_left _ (hr r (List.mem_singleton.mp hd ▸ hm))

/-- No definition refers to one that stands behind it, or to itself. -/
theorem backward (h : Grows pool [] es) :
    es.Pairwise (fun d e => e.name ∉ d.references) ∧ ∀ d ∈ es, d.name ∉ d.references := by
  induction h with
  | refl => exact ⟨.nil, by simp⟩
  | snoc hg _ hn hr ih =>
    refine ⟨List.pairwise_append.mpr ⟨ih.1, List.pairwise_singleton _ _, ?_⟩, ?_⟩
    · intro d hd e he
      rw [List.mem_singleton.mp he]
      exact fun h => hn (hg.closed hd _ h)
    · intro d hd
      rcases List.mem_append.mp hd with hd | hd
      · exact ih.2 d hd
      · rw [List.mem_singleton.mp hd]
        exact fun h => hn (hr _ h)

end Grows

/-- A state of the search: all known names are still to be opened or on the path. -/
structure Searching (known : List String) (unopened : List Definition) (path : List String) :
    Prop where
  nodup : (unopened.map Definition.name).Nodup
  references : ∀ d ∈ unopened, ∀ r ∈ d.references, r ∈ known
  covered : ∀ n ∈ known, n ∈ unopened.map Definition.name ∨ n ∈ path

variable {known path names : List String} {unopened ordered ordered' : List Definition}
  {name : String} {d : Definition}

theorem names_eraseP (unopened : List Definition) (name : String) :
    (unopened.eraseP (·.name == name)).map Definition.name =
      (unopened.map Definition.name).erase name := by
  rw [List.erase_eq_eraseP', List.eraseP_map]
  rfl

theorem Searching.opened (h : Searching known unopened path) (name : String) :
    Searching known (unopened.eraseP (·.name == name)) (path ++ [name]) where
  nodup := by
    rw [names_eraseP]
    exact h.nodup.sublist List.erase_sublist
  references d hd := h.references d (List.mem_of_mem_eraseP hd)
  covered n hn := by
    rw [names_eraseP]
    by_cases he : n = name
    · exact .inr (by simp [he])
    · rcases h.covered n hn with hc | hc
      · exact .inl ((List.mem_erase_of_ne he).mpr hc)
      · exact .inr (List.mem_append_left _ hc)

theorem find?_name (h : unopened.find? (·.name == name) = some d) : d ∈ unopened ∧ d.name = name :=
  ⟨List.mem_of_find?_eq_some h, by simpa using List.find?_some h⟩

/-- A search that succeeds appends to what is ordered, and all that it searched for is placed. -/
def Finds (known : List String) (unopened : List Definition) (path : List String)
    (ordered : List Definition) (names : List String) (r : Except SchemaError (List Definition)) :
    Prop :=
  ∀ ordered', r = .ok ordered' → Searching known unopened path → (∀ n ∈ names, n ∈ known) →
    Grows unopened ordered ordered' ∧ ∀ n ∈ names, n ∈ ordered'.map Definition.name

theorem finds_opened
    (ih : Finds known (unopened.eraseP (·.name == name)) (path ++ [name]) ordered d.references
      (.ok ordered'))
    (hd : unopened.find? (·.name == name) = some d) (hnew : name ∉ ordered.map Definition.name) :
    Finds known unopened path ordered [name] (.ok (ordered' ++ [d])) := by
  rintro _ ⟨rfl⟩ hs -
  obtain ⟨hmem, rfl⟩ := find?_name hd
  obtain ⟨hg, hr⟩ := ih _ rfl (hs.opened _) (hs.references d hmem)
  refine ⟨(hg.mono fun e he => List.mem_of_mem_eraseP he).snoc hmem ?_ hr, by simp⟩
  -- what the search below `d` appended comes from the definitions left once `d` is opened
  intro h
  obtain ⟨e, he, hen⟩ := List.mem_map.mp h
  rcases hg.mem he with he | he
  · exact hnew (hen ▸ List.mem_map.mpr ⟨e, he, rfl⟩)
  · have hmem' : d.name ∈ (unopened.eraseP (·.name == d.name)).map Definition.name :=
      List.mem_map.mpr ⟨e, he, hen⟩
    rw [names_eraseP] at hmem'
    exact hs.nodup.not_mem_erase hmem'

theorem finds_cons {r : Except SchemaError (List Definition)}
    (h : Finds known unopened path ordered [name] (.ok ordered'))
    (hs : Finds known unopened path ordered' names r) :
    Finds known unopened path ordered (name :: names) r := by
  intro ordered'' hr hsearch hknown
  obtain ⟨hg, hn⟩ := h _ rfl hsearch fun n hn =>
    hknown n (List.mem_cons.mpr (.inl (by simpa using hn)))
  obtain ⟨hg', hns⟩ := hs _ hr hsearch fun n hn => hknown n (List.mem_cons_of_mem _ hn)
  refine ⟨hg.trans hg', ?_⟩
  intro n h
  rcases List.mem_cons.mp h with rfl | h
  · exact hg'.mem_names (hn _ (List.mem_singleton_self _))
  · exact hns n h

/-- The two searches, of one name and of several, by induction on their calls. -/
theorem finds (known : List String) :
    (∀ unopened path ordered name,
      Finds known unopened path ordered [name] (visit unopened path ordered name)) ∧
    ∀ unopened path ordered names,
      Finds known unopened path ordered names (visitAll unopened path ordered names) := by
  refine visit.mutual_induct_unfolding (fun unopened path ordered name r =>
    Finds known unopened path ordered [name] r) (Finds known)
    ?placed ?opened ?belowFails ?cycle ?unknown ?nil ?cons ?headFails
  case placed =>
    rintro unopened path ordered name h _ ⟨rfl⟩ - -
    refine ⟨.refl, fun n hn => ?_⟩
    obtain ⟨d, hd, hdn⟩ := List.any_eq_true.mp h
    exact List.mem_map.mpr ⟨d, hd, by simp_all⟩
  case opened =>
    intro unopened path ordered name hnew d hd ordered' hall ih
    rw [hall] at ih
    refine finds_opened ih hd ?_
    intro h
    obtain ⟨e, he, rfl⟩ := List.mem_map.mp h
    exact hnew (List.any_eq_true.mpr ⟨e, he, by simp⟩)
  case unknown =>
    intro unopened path ordered name _ hfind hpath _ _ hs hknown
    -- a declared name that is not left to be opened is on the path
    rcases hs.covered name (hknown name (List.mem_singleton_self _)) with h | h
    · obtain ⟨d, hd, hdn⟩ := List.mem_map.mp h
      exact absurd hdn (by simpa using List.find?_eq_none.mp hfind d hd)
    · exact absurd (List.contains_iff_mem.mpr h) hpath
  case nil =>
    rintro unopened path ordered _ ⟨rfl⟩ - -
    exact ⟨.refl, by simp⟩
  case cons =>
    intro unopened path ordered name names ordered' hv ih ihs
    rw [hv] at ih
    exact finds_cons ih ihs
  case belowFails => rintro _ _ _ _ _ _ _ _ _ _ _ ⟨⟩
  case cycle => rintro _ _ _ _ _ _ _ _ ⟨⟩
  case headFails => rintro _ _ _ _ _ _ _ _ _ ⟨⟩

/-- A schema whose names are distinct and whose references all name a definition. -/
structure Linked (s : Schema) : Prop where
  names_nodup : (s.definitions.map Definition.name).Nodup
  references : ∀ d ∈ s.definitions, ∀ r ∈ d.references, r ∈ s.definitions.map Definition.name

theorem dependencyOrder_grows {s : Schema} {ds : List Definition} (hs : s.Linked)
    (h : s.dependencyOrder = .ok ds) :
    Grows s.definitions [] ds ∧ ∀ d ∈ s.definitions, d.name ∈ ds.map Definition.name := by
  have hsearch : Searching (s.definitions.map Definition.name) s.definitions [] :=
    ⟨hs.names_nodup, hs.references, fun _ hn => .inl hn⟩
  obtain ⟨hg, hn⟩ := (finds _).2 _ _ _ _ _ h hsearch fun _ hn => hn
  exact ⟨hg, fun d hd => hn _ (List.mem_map.mpr ⟨d, hd, rfl⟩)⟩

/-- Ordering loses no definition and adds none. -/
theorem mem_dependencyOrder {s : Schema} {ds : List Definition} (hs : s.Linked)
    (h : s.dependencyOrder = .ok ds) {d : Definition} : d ∈ ds ↔ d ∈ s.definitions := by
  obtain ⟨hg, hn⟩ := dependencyOrder_grows hs h
  have hsub : ∀ {e}, e ∈ ds → e ∈ s.definitions := fun he =>
    (hg.mem he).resolve_left (List.not_mem_nil)
  refine ⟨hsub, fun hd => ?_⟩
  obtain ⟨e, he, hen⟩ := List.mem_map.mp (hn d hd)
  exact List.inj_on_of_nodup_map hs.names_nodup (hsub he) hd hen ▸ he

theorem dependencyOrder_perm {s : Schema} {ds : List Definition} (hs : s.Linked)
    (h : s.dependencyOrder = .ok ds) : ds.Perm s.definitions :=
  (List.perm_ext_iff_of_nodup (.of_map _ (dependencyOrder_grows hs h).1.names_nodup)
    (.of_map _ hs.names_nodup)).mpr fun _ => mem_dependencyOrder hs h

end TaggedSum.Schema
