import Mathlib.Data.List.Chain
import Mathlib.Data.List.TakeWhile
import TaggedSum.Proofs.Schema.Placement
import TaggedSum.Proofs.Schema.Validation

namespace TaggedSum.Schema

/-- Some chain of references leads back to where it starts. -/
def Cyclic (s : Schema) : Prop := ∃ n, Relation.TransGen s.Refers n n

/-- The names of different definitions, each of which refers to the next, and the last one to the
first, which is named again at the end. -/
structure IsCycle (s : Schema) (path : List String) : Prop where
  closed : ∃ n ns, path = n :: (ns ++ [n])
  nodup : path.dropLast.Nodup
  declared : ∀ n ∈ path, n ∈ s.definitions.map Definition.name
  refers : path.IsChain s.Refers

variable {s : Schema} {path names : List String} {unopened ordered ordered' ds : List Definition}
  {name : String} {d : Definition} {e : SchemaError} {r : Except SchemaError (List Definition)}

theorem IsCycle.cyclic (h : s.IsCycle path) : s.Cyclic := by
  obtain ⟨n, ns, rfl⟩ := h.closed
  refine ⟨n, ?_⟩
  cases ns with
  | nil => exact .single (List.isChain_pair.mp h.refers)
  | cons m ns =>
    obtain ⟨hnm, hm⟩ := List.isChain_cons_cons.mp h.refers
    exact .head' hnm (List.relationReflTransGen_of_exists_isChain_cons _ hm (by simp))

/-- A state of the search: the path goes from reference to reference, and the definitions that can
still be opened are not on it. -/
structure Exploring (s : Schema) (unopened : List Definition) (path : List String) : Prop where
  unopened_mem : ∀ d ∈ unopened, d ∈ s.definitions
  unopened_nodup : (unopened.map Definition.name).Nodup
  apart : ∀ d ∈ unopened, d.name ∉ path
  path_nodup : path.Nodup
  path_declared : ∀ n ∈ path, n ∈ s.definitions.map Definition.name

theorem Exploring.opened (h : Exploring s unopened path)
    (hd : unopened.find? (·.name == name) = some d) :
    Exploring s (unopened.eraseP (·.name == name)) (path ++ [name]) := by
  obtain ⟨hmem, rfl⟩ := find?_name hd
  have hleft : ∀ c ∈ unopened.eraseP (·.name == d.name), c.name ≠ d.name := by
    intro c hc he
    have hm := List.mem_map_of_mem (f := Definition.name) hc
    rw [names_eraseP, he] at hm
    exact h.unopened_nodup.not_mem_erase hm
  constructor
  case unopened_mem => exact fun c hc => h.unopened_mem c (List.mem_of_mem_eraseP hc)
  case unopened_nodup =>
    rw [names_eraseP]
    exact h.unopened_nodup.sublist List.erase_sublist
  case apart =>
    intro c hc hp
    rcases List.mem_append.mp hp with hp | hp
    · exact h.apart c (List.mem_of_mem_eraseP hc) hp
    · exact hleft c hc (List.mem_singleton.mp hp)
  case path_nodup => simpa using h.path_nodup.concat (h.apart d hmem)
  case path_declared =>
    refine List.forall_mem_append.mpr ⟨h.path_declared, List.forall_mem_singleton.mpr ?_⟩
    exact List.mem_map_of_mem (h.unopened_mem d hmem)

/-- A search that fails reports a cycle, if the path leads on to all that is searched for. -/
def Reports (s : Schema) (unopened : List Definition) (path names : List String)
    (r : Except SchemaError (List Definition)) : Prop :=
  ∀ e, r = .error e → Exploring s unopened path →
    (∀ n ∈ names, (path ++ [n]).IsChain s.Refers) →
    ∃ cycle, e = .circularReference cycle ∧ s.IsCycle cycle

theorem isChain_opened (hd : d ∈ s.definitions) (h : (path ++ [d.name]).IsChain s.Refers) :
    ∀ n ∈ d.references, (path ++ [d.name] ++ [n]).IsChain s.Refers := by
  intro n hn
  refine List.isChain_append.mpr ⟨h, List.isChain_singleton n, ?_⟩
  intro a ha b hb
  simp only [List.getLast?_concat, Option.mem_some_iff] at ha
  simp only [List.head?_cons, Option.mem_some_iff] at hb
  subst ha hb
  exact ⟨d, hd, rfl, Definition.refersTo_iff.mpr hn⟩

theorem reports_opened (hd : unopened.find? (·.name == name) = some d)
    (ih : Reports s (unopened.eraseP (·.name == name)) (path ++ [name]) d.references (.error e)) :
    Reports s unopened path [name] (.error e) := by
  rintro _ ⟨rfl⟩ hs hpath
  obtain ⟨hmem, rfl⟩ := find?_name hd
  exact ih e rfl (hs.opened hd)
    (isChain_opened (hs.unopened_mem d hmem) (hpath _ (List.mem_singleton_self _)))

theorem exists_dropWhile (h : name ∈ path) :
    ∃ behind, path.dropWhile (· != name) = name :: behind := by
  cases hd : path.dropWhile (· != name) with
  | nil => simpa using List.dropWhile_eq_nil_iff.mp hd name h
  | cons n behind =>
    have hn := List.head?_dropWhile_not (· != name) path
    rw [hd, List.head?_cons] at hn
    exact ⟨behind, by rw [show n = name by simpa using hn]⟩

/-- A reference back to the path closes the part of the path that starts at its target. -/
theorem isCycle_cycleFrom (hs : Exploring s unopened path) (hmem : name ∈ path)
    (hpath : (path ++ [name]).IsChain s.Refers) : s.IsCycle (cycleFrom name path) := by
  have hsuffix := List.dropWhile_suffix (l := path) (· != name)
  obtain ⟨behind, hbehind⟩ := exists_dropWhile hmem
  rw [cycleFrom]
  rw [hbehind] at hsuffix ⊢
  refine ⟨⟨name, behind, rfl⟩, ?_, ?_, ?_⟩
  · rw [List.dropLast_concat]
    exact hs.path_nodup.sublist hsuffix.sublist
  · refine List.forall_mem_append.mpr ⟨fun n hn => hs.path_declared n (hsuffix.subset hn), ?_⟩
    exact List.forall_mem_singleton.mpr (hs.path_declared name hmem)
  · obtain ⟨before, hbefore⟩ := hsuffix
    rw [← hbefore, List.append_assoc] at hpath
    exact hpath.right_of_append

/-- The two searches, of one name and of several, by induction on their calls. -/
theorem reports (s : Schema) :
    (∀ unopened path ordered name,
      Reports s unopened path [name] (visit unopened path ordered name)) ∧
    ∀ unopened path ordered names,
      Reports s unopened path names (visitAll unopened path ordered names) := by
  refine visit.mutual_induct_unfolding (fun unopened path _ name r =>
    Reports s unopened path [name] r) (fun unopened path _ names r =>
    Reports s unopened path names r)
    ?placed ?opened ?belowFails ?cycle ?unknown ?nil ?cons ?headFails
  case belowFails =>
    intro unopened path ordered name hnew d hd e he ih
    rw [he] at ih
    exact reports_opened hd ih
  case cycle =>
    rintro unopened path ordered name hnew hfind hpath _ ⟨rfl⟩ hs hchain
    exact ⟨_, rfl, isCycle_cycleFrom hs (List.contains_iff_mem.mp hpath)
      (hchain name (List.mem_singleton_self _))⟩
  case cons =>
    intro unopened path ordered name names ordered' hv ih ihs e he hs hchain
    exact ihs e he hs fun n hn => hchain n (List.mem_cons_of_mem _ hn)
  case headFails =>
    rintro unopened path ordered name names e he ih _ ⟨rfl⟩ hs hchain
    refine ih e he hs fun n hn => hchain n ?_
    rw [List.mem_singleton.mp hn]
    exact List.mem_cons_self
  case placed => rintro _ _ _ _ _ _ ⟨⟩
  case opened => rintro _ _ _ _ _ _ _ _ _ _ _ ⟨⟩
  case unknown => rintro _ _ _ _ _ _ _ _ ⟨⟩
  case nil => rintro _ _ _ _ ⟨⟩

theorem exists_cycle (hs : s.Linked) (h : s.dependencyOrder = .error e) :
    ∃ path, e = .circularReference path ∧ s.IsCycle path := by
  refine (reports s).2 _ _ _ _ e h ⟨fun _ hd => hd, hs.names_nodup, ?_, .nil, ?_⟩ ?_
  · exact fun _ _ => List.not_mem_nil
  · exact List.forall_mem_nil _
  · exact fun n _ => List.isChain_singleton n

theorem idxOf_lt_of_refers (hs : s.Linked) (h : s.dependencyOrder = .ok ds) {a b : String}
    (hab : s.Refers a b) :
    (ds.map Definition.name).idxOf b < (ds.map Definition.name).idxOf a := by
  obtain ⟨d, hd, rfl, hb⟩ := hab
  obtain ⟨hg, -⟩ := dependencyOrder_grows hs h
  have position {i : Nat} {c : Definition} (hc : ds[i]? = some c) :
      (ds.map Definition.name).idxOf c.name = i := by
    have hi : (ds.map Definition.name)[i]? = some c.name := by rw [List.getElem?_map, hc]; rfl
    obtain ⟨hlt, hget⟩ := List.getElem?_eq_some_iff.mp hi
    rw [← hget, hg.names_nodup.idxOf_getElem i hlt]
  obtain ⟨p, hp⟩ := List.mem_iff_getElem?.mp ((mem_dependencyOrder hs h).mpr hd)
  obtain ⟨q, c, hqp, hq, rfl⟩ := hg.dependenciesFirst p d b hp hb
  rwa [position hp, position hq]

theorem not_cyclic_of_dependencyOrder (hs : s.Linked) (h : s.dependencyOrder = .ok ds) :
    ¬s.Cyclic := by
  rintro ⟨n, hn⟩
  suffices hlt : ∀ m, Relation.TransGen s.Refers n m →
      (ds.map Definition.name).idxOf m < (ds.map Definition.name).idxOf n from
    Nat.lt_irrefl _ (hlt n hn)
  intro m hm
  induction hm with
  | single hm => exact idxOf_lt_of_refers hs h hm
  | tail _ hm ih => exact (idxOf_lt_of_refers hs h hm).trans ih

/-- The order of a valid schema fails exactly where references form a cycle, and then it reports
one. -/
theorem dependencyOrder_error_iff_cyclic (h : s.validate = .ok ()) :
    ((∃ e, s.dependencyOrder = .error e) ↔ s.Cyclic) ∧
    ∀ e, s.dependencyOrder = .error e → ∃ path, s.IsCycle path ∧ e = .circularReference path ∧
      e.message = "circular type reference detected: " ++ " -> ".intercalate path := by
  have hs := linked_of_validate h
  refine ⟨⟨?_, fun hc => ?_⟩, fun e he => ?_⟩
  · rintro ⟨e, he⟩
    obtain ⟨path, -, hpath⟩ := exists_cycle hs he
    exact hpath.cyclic
  · cases ho : s.dependencyOrder with
    | ok ds => exact absurd hc (not_cyclic_of_dependencyOrder hs ho)
    | error e => exact ⟨e, rfl⟩
  · obtain ⟨path, rfl, hpath⟩ := exists_cycle hs he
    exact ⟨path, hpath, rfl, rfl⟩

namespace Looped

def lead : Definition := .struct ⟨"Lead", none, [⟨none, .seq (.reference "Loop"), none⟩]⟩

def loop : Definition :=
  .enum ⟨"Loop", none, [⟨"End", none, none, []⟩,
    ⟨"More", none, none, [⟨some "knots", .map (.seq (.reference "Knot")), none⟩]⟩]⟩

def knot : Definition := .struct ⟨"Knot", none, [⟨none, .reference "Loop", none⟩]⟩

/-- A cycle of two definitions that the search comes upon from a third. -/
def schema : Schema := ⟨"looped", none, [lead, loop, knot], 0⟩

theorem validate_schema : schema.validate = .ok () := by decide +kernel

theorem dependencyOrder_schema :
    schema.dependencyOrder = .error (.circularReference ["Loop", "Knot", "Loop"]) := by cbv

end Looped

theorem dependencyOrder_looped : Looped.schema.validate = .ok () ∧ Looped.schema.Cyclic ∧
    Looped.schema.dependencyOrder = .error (.circularReference ["Loop", "Knot", "Loop"]) ∧
    Looped.schema.IsCycle ["Loop", "Knot", "Loop"] := by
  obtain ⟨hiff, hreport⟩ := dependencyOrder_error_iff_cyclic Looped.validate_schema
  refine ⟨Looped.validate_schema, hiff.mp ⟨_, Looped.dependencyOrder_schema⟩,
    Looped.dependencyOrder_schema, ?_⟩
  obtain ⟨path, hpath, he, -⟩ := hreport _ Looped.dependencyOrder_schema
  obtain rfl := SchemaError.circularReference.inj he
  exact hpath

end TaggedSum.Schema
