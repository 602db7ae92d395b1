import TaggedSum.Proofs.Lists
import TaggedSum.Proofs.Schema.Reference

namespace TaggedSum

/-- Each definition stands behind all that it refers to. -/
def DependenciesFirst (ds : List Definition) : Prop :=
  ∀ (p : Nat) (d : Definition) (n : String), ds[p]? = some d → d.RefersTo n →
    ∃ (q : Nat) (e : Definition), q < p ∧ ds[q]? = some e ∧ e.name = n

namespace Schema

variable {s : Schema} {path names : List String} {unopened ordered ordered' ds : List Definition}
  {name : String} {d : Definition} {r : Except SchemaError (List Definition)}

theorem Grows.dependenciesFirst {pool : List Definition} (h : Grows pool [] ds) :
    DependenciesFirst ds := by
  intro p d n hd hn
  have hr := Definition.refersTo_iff.mp hn
  obtain ⟨e, he, rfl⟩ := List.mem_map.mp (h.closed (List.mem_of_getElem? hd) n hr)
  obtain ⟨q, hq⟩ := List.mem_iff_getElem?.mp he
  refine ⟨q, e, ?_, hq, rfl⟩
  rcases Nat.lt_trichotomy q p with hlt | rfl | hgt
  · exact hlt
  · obtain rfl := Option.some.inj (hq.symm.trans hd)
    exact absurd hr (h.backward.2 _ he)
  · obtain ⟨hp, rfl⟩ := List.getElem?_eq_some_iff.mp hd
    obtain ⟨hq', rfl⟩ := List.getElem?_eq_some_iff.mp hq
    exact absurd hr (List.pairwise_iff_getElem.mp h.backward.1 p q hp hq' hgt)

/-- A search that succeeds appends definitions that its names reach. -/
def Follows (s : Schema) (unopened ordered : List Definition) (names : List String)
    (r : Except SchemaError (List Definition)) : Prop :=
  ∀ ordered', r = .ok ordered' → (∀ d ∈ unopened, d ∈ s.definitions) →
    ∃ appended, ordered' = ordered ++ appended ∧ ∀ d ∈ appended, ∃ n ∈ names, s.Reaches n d.name

theorem follows_opened
    (ih : Follows s (unopened.eraseP (·.name == name)) ordered d.references (.ok ordered'))
    (hd : unopened.find? (·.name == name) = some d) :
    Follows s unopened ordered [name] (.ok (ordered' ++ [d])) := by
  rintro _ ⟨rfl⟩ hu
  obtain ⟨hmem, rfl⟩ := find?_name hd
  obtain ⟨appended, rfl, hreach⟩ := ih _ rfl fun e he => hu e (List.mem_of_mem_eraseP he)
  refine ⟨appended ++ [d], List.append_assoc .., fun e he => ⟨d.name, by simp, ?_⟩⟩
  rcases List.mem_append.mp he with he | he
  · obtain ⟨n, hn, hne⟩ := hreach e he
    exact .head ⟨d, hu d hmem, rfl, Definition.refersTo_iff.mpr hn⟩ hne
  · rw [List.mem_singleton.mp he]
    exact .refl

theorem follows_cons (h : Follows s unopened ordered [name] (.ok ordered'))
    (hs : Follows s unopened ordered' names r) : Follows s unopened ordered (name :: names) r := by
  intro ordered'' hr hu
  obtain ⟨first, rfl, hfirst⟩ := h _ rfl hu
  obtain ⟨rest, rfl, hrest⟩ := hs _ hr hu
  refine ⟨first ++ rest, List.append_assoc .., fun e he => ?_⟩
  rcases List.mem_append.mp he with he | he
  · obtain ⟨n, hn, hne⟩ := hfirst e he
    exact ⟨n, by simp_all, hne⟩
  · obtain ⟨n, hn, hne⟩ := hrest e he
    exact ⟨n, List.mem_cons_of_mem _ hn, hne⟩

/-- The two searches, of one name and of several, by induction on their calls. -/
theorem follows (s : Schema) :
    (∀ unopened path ordered name,
      Follows s unopened ordered [name] (visit unopened path ordered name)) ∧
    ∀ unopened path ordered names,
      Follows s unopened ordered names (visitAll unopened path ordered names) := by
  have unchanged (unopened ordered : List Definition) (names : List String) :
      Follows s unopened ordered names (.ok ordered) := by
    rintro _ ⟨rfl⟩ -
    exact ⟨[], (List.append_nil _).symm, by simp⟩
  refine visit.mutual_induct_unfolding (fun unopened _ ordered name r =>
    Follows s unopened ordered [name] r) (fun unopened _ ordered names r =>
    Follows s unopened ordered names r)
    ?placed ?opened ?belowFails ?cycle ?unknown ?nil ?cons ?headFails
  case placed =>
    intro unopened path ordered name _
    exact unchanged unopened ordered [name]
  case opened =>
    intro unopened path ordered name _ d hd ordered' hall ih
    rw [hall] at ih
    exact follows_opened ih hd
  case unknown =>
    intro unopened path ordered name _ _ _
    exact unchanged unopened ordered [name]
  case nil =>
    intro unopened path ordered
    exact unchanged unopened ordered []
  case cons =>
    intro unopened path ordered name names ordered' hv ih ihs
    rw [hv] at ih
    exact follows_cons ih ihs
  case belowFails => rintro _ _ _ _ _ _ _ _ _ _ _ ⟨⟩
  case cycle => rintro _ _ _ _ _ _ _ _ ⟨⟩
  case headFails => rintro _ _ _ _ _ _ _ _ _ ⟨⟩

theorem visitAll_append (unopened : List Definition) (path : List String)
    (ordered : List Definition) (names rest : List String) :
    visitAll unopened path ordered (names ++ rest) =
      visitAll unopened path ordered names >>= fun ordered =>
        visitAll unopened path ordered rest := by
  induction names generalizing ordered with
  | nil =>
    rw [visitAll]
    rfl
  | cons name names ih =>
    rw [List.cons_append, visitAll, visitAll]
    cases visit unopened path ordered name with
    | error e => rfl
    | ok ordered' => exact ih ordered'

/-- Of the order, what the search from the first `k` declared definitions has placed: those, and
only what they reach. -/
theorem exists_placed (hs : s.Linked) (h : s.dependencyOrder = .ok ds) (k : Nat) :
    ∃ placed later, ds = placed ++ later ∧ (∀ d ∈ s.definitions.take k, d ∈ placed) ∧
      ∀ e ∈ placed, ∃ c ∈ s.definitions.take k, s.Reaches c.name e.name := by
  have hsplit : s.definitions.map Definition.name =
      (s.definitions.take k).map Definition.name ++
        (s.definitions.drop k).map Definition.name := by
    rw [← List.map_append, List.take_append_drop]
  have hsearch : Searching (s.definitions.map Definition.name) s.definitions [] :=
    ⟨hs.names_nodup, hs.references, fun _ hn => .inl hn⟩
  have hknown : ∀ n ∈ (s.definitions.take k).map Definition.name,
      n ∈ s.definitions.map Definition.name := fun n hn => by
    rw [hsplit]
    exact List.mem_append_left _ hn
  rw [dependencyOrder, hsplit, visitAll_append] at h
  obtain ⟨placed, hplaced, hrest⟩ := Outcome.bind_eq_ok.mp h
  obtain ⟨later, rfl, -⟩ := (follows s).2 _ _ _ _ _ hrest fun _ h => h
  obtain ⟨hg, hnames⟩ := (finds _).2 _ _ _ _ _ hplaced hsearch hknown
  refine ⟨placed, later, rfl, fun d hd => ?_, fun e he => ?_⟩
  · obtain ⟨d', hd', hdn⟩ := List.mem_map.mp (hnames d.name (List.mem_map_of_mem hd))
    have hmem' := (hg.mem hd').resolve_left List.not_mem_nil
    rwa [List.inj_on_of_nodup_map hs.names_nodup hmem' (List.mem_of_mem_take hd) hdn] at hd'
  · obtain ⟨appended, ha, hreach⟩ := (follows s).2 _ _ _ _ _ hplaced fun _ h => h
    rw [ha, List.nil_append] at he
    obtain ⟨n, hn, hne⟩ := hreach e he
    obtain ⟨c, hc, rfl⟩ := List.mem_map.mp hn
    exact ⟨c, hc, hne⟩

/-- A definition that comes before one declared earlier is needed by that or by one declared before
that. -/
theorem needed_of_overtakes (hs : s.Linked) (h : s.dependencyOrder = .ok ds) {i j p q : Nat}
    {d e : Definition} (hij : i < j) (hd : s.definitions[i]? = some d)
    (he : s.definitions[j]? = some e) (hp : ds[p]? = some d) (hq : ds[q]? = some e)
    (hqp : q < p) :
    ∃ (k : Nat) (c : Definition), k ≤ i ∧ s.definitions[k]? = some c ∧
      Relation.TransGen s.Refers c.name e.name := by
  obtain ⟨hg, -⟩ := dependencyOrder_grows hs h
  obtain ⟨placed, later, rfl, hfirst, hreach⟩ := exists_placed hs h (i + 1)
  have hd' : d ∈ placed := hfirst d
    (List.mem_of_getElem? ((List.getElem?_take_of_lt (Nat.lt_succ_self i)).trans hd))
  -- `d` is placed by then, so what stands before it is, too
  obtain ⟨m, hm⟩ := List.mem_iff_getElem?.mp hd'
  have hmlt : m < placed.length := (List.getElem?_eq_some_iff.mp hm).1
  have hmp : m = p := by
    have hnd : (placed ++ later).Nodup := .of_map _ hg.names_nodup
    refine (List.getElem?_inj (by simp; omega) hnd).mp ?_
    rw [List.getElem?_append_left hmlt, hm, hp]
  rw [List.getElem?_append_left (by omega)] at hq
  obtain ⟨c, hc, hce⟩ := hreach e (List.mem_of_getElem? hq)
  obtain ⟨k, hk⟩ := List.mem_iff_getElem?.mp hc
  have hki : k < i + 1 := by
    have := (List.getElem?_eq_some_iff.mp hk).1
    simp only [List.length_take] at this
    omega
  rw [List.getElem?_take_of_lt hki] at hk
  refine ⟨k, c, Nat.le_of_lt_succ hki, hk, ?_⟩
  rcases Relation.reflTransGen_iff_eq_or_transGen.mp hce with hname | htrans
  · -- `e` is declared behind all the definitions that the search has started from
    have hnames : (s.definitions.map Definition.name)[k]? =
        (s.definitions.map Definition.name)[j]? := by
      rw [List.getElem?_map, List.getElem?_map, hk, he, Option.map_some, Option.map_some, hname]
    have hlen : k < (s.definitions.map Definition.name).length := by
      have := (List.getElem?_eq_some_iff.mp hk).1
      simpa using this
    have := (List.getElem?_inj hlen hs.names_nodup).mp hnames
    omega
  · exact htrans

-- A search from definitions that stand behind all that they refer to takes them one by one.
theorem visitAll_eq_self (unopened : List Definition) (path : List String)
    (h : ∀ n ∈ names, n ∈ ordered.map Definition.name) :
    visitAll unopened path ordered names = .ok ordered := by
  induction names with
  | nil => rw [visitAll]
  | cons name names ih =>
    obtain ⟨hn, hns⟩ := List.forall_mem_cons.mp h
    have hplaced : ordered.any (·.name == name) := by
      obtain ⟨d, hd, rfl⟩ := List.mem_map.mp hn
      exact List.any_eq_true.mpr ⟨d, hd, by simp⟩
    rw [visitAll, visit, if_pos hplaced]
    exact ih hns

theorem visit_eq_append (path : List String) (hnew : d.name ∉ ordered.map Definition.name)
    (hd : unopened.find? (·.name == d.name) = some d)
    (hr : ∀ n ∈ d.references, n ∈ ordered.map Definition.name) :
    visit unopened path ordered d.name = .ok (ordered ++ [d]) := by
  have hplaced : ¬ordered.any (·.name == d.name) := by
    intro h
    obtain ⟨e, he, hen⟩ := List.any_eq_true.mp h
    exact hnew (List.mem_map.mpr ⟨e, he, by simpa using hen⟩)
  rw [visit, if_neg hplaced]
  split
  · rename_i d' hd'
    obtain rfl := Option.some.inj (hd'.symm.trans hd)
    rw [visitAll_eq_self _ _ hr]
  · rename_i hnone
    cases hnone.symm.trans hd

theorem dependencyOrder_eq_self (hs : (s.definitions.map Definition.name).Nodup)
    (hf : DependenciesFirst s.definitions) : s.dependencyOrder = .ok s.definitions := by
  suffices h : ∀ later placed, s.definitions = placed ++ later →
      visitAll s.definitions [] placed (later.map Definition.name) = .ok (placed ++ later) from
    h s.definitions [] rfl
  intro later
  induction later with
  | nil =>
    intro placed _
    rw [List.map_nil, visitAll, List.append_nil]
  | cons d later ih =>
    intro placed hsplit
    have hmem : d ∈ s.definitions := by simp [hsplit]
    have hnew : d.name ∉ placed.map Definition.name := by
      rw [hsplit, List.map_append, List.map_cons] at hs
      exact fun h => List.disjoint_of_nodup_append hs h List.mem_cons_self
    have hfind : s.definitions.find? (·.name == d.name) = some d := by
      simpa [beq_eq_decide] using Lists.find?_of_nodup hs hmem
    have hr : ∀ n ∈ d.references, n ∈ placed.map Definition.name := by
      intro n hn
      have hd : s.definitions[placed.length]? = some d := by simp [hsplit]
      obtain ⟨q, e, hq, he, rfl⟩ := hf _ d n hd (Definition.refersTo_iff.mpr hn)
      rw [hsplit, List.getElem?_append_left hq] at he
      exact List.mem_map_of_mem (List.mem_of_getElem? he)
    rw [List.map_cons, visitAll, visit_eq_append [] hnew hfind hr]
    have := ih (placed ++ [d]) (by simp [hsplit])
    simpa using this

end Schema

namespace Resolved.Schema

/-- How resolved definitions follow from those of a schema, which `ds` are in dependency order. -/
structure Orders (s : TaggedSum.Schema) (ds : List TaggedSum.Definition) (ir : Schema) : Prop where
  /-- Each definition of the schema is resolved, and none twice. -/
  perm : ds.Perm s.definitions
  resolves : List.Forall₂ (fun d r => Definition.ofDefinition d = .ok r) ds ir.definitions
  names_nodup : ir.names.Nodup
  /-- What a definition refers to stands before it. -/
  backward : ∀ (p : Nat) (r : Definition) (n : String), ir.definitions[p]? = some r →
    r.RefersTo n → ∃ q, q < p ∧ ir.names[q]? = some n
  /-- Of two definitions, the one declared later stands first only where it is needed, through a
  chain of references, by a definition declared no later than the other. -/
  stable : ∀ (i j p q : Nat) (d e : TaggedSum.Definition), i < j →
    s.definitions[i]? = some d → s.definitions[j]? = some e →
    ir.names[p]? = some d.name → ir.names[q]? = some e.name → q < p →
    ∃ (k : Nat) (c : TaggedSum.Definition), k ≤ i ∧ s.definitions[k]? = some c ∧
      Relation.TransGen s.Refers c.name e.name
  /-- Definitions declared behind all that they refer to keep their order. -/
  kept : DependenciesFirst s.definitions → ds = s.definitions
  /-- Nothing changes where the definitions are declared in dependency order. -/
  again : Schema.ofSchema (.ofDefinitions s.package s.description ds) = .ok ir

variable {s : TaggedSum.Schema} {ir : Schema}

/-- The definitions of an accepted schema are resolved in dependency order, which is the order of
declaration wherever references allow it. -/
theorem orders_of_ofSchema (h : Schema.ofSchema s = .ok ir) : ∃ ds, Orders s ds ir := by
  obtain ⟨hv, ds, hds, hres⟩ := ofSchema_eq_ok h
  have hs := TaggedSum.Schema.linked_of_validate hv
  obtain ⟨hg, -⟩ := TaggedSum.Schema.dependencyOrder_grows hs hds
  have hnames : ir.names = ds.map TaggedSum.Definition.name := Definition.map_name_eq hres
  have hperm := TaggedSum.Schema.dependencyOrder_perm hs hds
  -- names are distinct, so an index among the names is one among the definitions
  have hat : ∀ (p : Nat) (d : TaggedSum.Definition), d ∈ s.definitions →
      ir.names[p]? = some d.name → ds[p]? = some d := by
    intro p d hd hp
    rw [hnames, List.getElem?_map] at hp
    obtain ⟨e, he, hen⟩ := Option.map_eq_some_iff.mp hp
    have hes := hperm.mem_iff.mp (List.mem_of_getElem? he)
    rw [he, List.inj_on_of_nodup_map hs.names_nodup hes hd hen]
  refine ⟨ds, hperm, hres, hnames ▸ hg.names_nodup, ?backward, ?stable, ?kept, ?again⟩
  case backward =>
    rintro p r n hr ⟨f, hf, hn⟩
    obtain ⟨d, hd, hdr⟩ := Lists.exists_of_getElem? hres.flip hr
    rw [Definition.fields_eq hdr] at hf
    obtain ⟨q, e, hq, he, rfl⟩ := hg.dependenciesFirst p d n hd ⟨f, hf, hn⟩
    exact ⟨q, hq, by rw [hnames, List.getElem?_map, he, Option.map_some]⟩
  case stable =>
    intro i j p q d e hij hd he hp hq hqp
    exact TaggedSum.Schema.needed_of_overtakes hs hds hij hd he
      (hat p d (List.mem_of_getElem? hd) hp) (hat q e (List.mem_of_getElem? he) hq) hqp
  case kept =>
    intro hf
    rw [TaggedSum.Schema.dependencyOrder_eq_self hs.names_nodup hf] at hds
    exact (Except.ok.inj hds).symm
  case again =>
    have hir := eq_ofDefinitions_of_ofSchema h
    refine ofSchema_eq_ok_iff.mpr ⟨TaggedSum.Schema.validate_ofDefinitions _ _ hperm hv, ds, ?_,
      ir.definitions, hres, hir⟩
    exact TaggedSum.Schema.dependencyOrder_eq_self hg.names_nodup hg.dependenciesFirst

namespace Nested

def outer : TaggedSum.Definition :=
  .enum ⟨"Outer", none, [⟨"Wrap", none, none, [⟨none, .reference "Inner", none⟩]⟩,
    ⟨"Many", none, none, [⟨some "items", .seq (.map (.reference "Pair")), none⟩]⟩]⟩

def marker : TaggedSum.Definition := .struct ⟨"Marker", none, []⟩

def inner : TaggedSum.Definition :=
  .enum ⟨"Inner", none, [⟨"Leaf", none, none, []⟩,
    ⟨"Node", none, none, [⟨none, .reference "Pair", none⟩]⟩]⟩

def pair : TaggedSum.Definition :=
  .struct ⟨"Pair", none, [⟨none, .string, none⟩, ⟨none, .signed .w64, none⟩]⟩

/-- Definitions of which two are overtaken by those that they need. -/
def schema : TaggedSum.Schema := ⟨"nested", none, [outer, marker, inner, pair], 0⟩

def resolved : Schema :=
  .ofDefinitions "nested" none [
    .struct ⟨"Pair", none, .tuple, [⟨none, .string, none⟩, ⟨none, .signed .w64, none⟩]⟩,
    .enum ⟨"Inner", none, [⟨"Leaf", "Leaf", none, .unit, [], "leaf"⟩,
      ⟨"Node", "Node", none, .newtype, [⟨none, .reference "Pair", none⟩], "node"⟩]⟩,
    .enum ⟨"Outer", none, [
      ⟨"Wrap", "Wrap", none, .newtype, [⟨none, .reference "Inner", none⟩], "wrap"⟩,
      ⟨"Many", "Many", none, .struct, [⟨some "items", .seq (.map (.reference "Pair")), none⟩],
        "many"⟩]⟩,
    .struct ⟨"Marker", none, .unit, []⟩]

theorem ofSchema_schema : Schema.ofSchema schema = .ok resolved := by
  have hd : schema.dependencyOrder = .ok [pair, inner, outer, marker] := by cbv
  exact ofSchema_of_ordered (by decide +kernel) hd (by decide +kernel)

end Nested

theorem orders_nested :
    Schema.ofSchema Nested.schema = .ok Nested.resolved ∧
      ∃ ds, Orders Nested.schema ds Nested.resolved :=
  ⟨Nested.ofSchema_schema, orders_of_ofSchema Nested.ofSchema_schema⟩

end Resolved.Schema

end TaggedSum
