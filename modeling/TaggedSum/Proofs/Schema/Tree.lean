import TaggedSum.Proofs.Lists
import TaggedSum.Proofs.Schema.Element
import TaggedSum.Proofs.Xml.Tree
/-!
Schemas from element trees. The root of a document is the schema, its direct children are the
definitions, theirs are the variants or fields, and an element anywhere else is unknown. The reader
of events, which does not keep track of elements within fields or of the end of the root, gives what
the tree says if there are no elements within fields and beside the root; otherwise what it gives
does not follow the tree.
-/
namespace TaggedSum.Tree

open Xml (Event Node Tag)
open Xml.Node (elements eventsOf)
open Element (State Place)
open Outcome

/-- The characters of a content without elements. -/
def text : List Node → Except ParseError (List Char)
  | [] => .ok []
  | .char c :: ns => do return c :: (← text ns)
  | .reference body :: ns =>
    match Xml.textReference? body with
    | some c => do return c :: (← text ns)
    | none => throw (.invalidStructure (.unknownReference (.ofList body)))
  | .leaf t :: _ => throw (.unknownElement t.name "field")
  | .element t _ :: _ => throw (.unknownElement t.name "field")

def field (owner : String) (x : Tag × List Node) : Except ParseError Field := do
  if x.1.name = "field" then
    let f ← Element.field x.1
    return Element.describe f (← text x.2).reverse
  else throw (.unknownElement x.1.name owner)

def variant (owner : String) (x : Tag × List Node) : Except ParseError Variant := do
  if x.1.name = "variant" then
    let v ← Element.variant x.1
    return { v with fields := ← (elements x.2).mapM (field v.name) }
  else throw (.unknownElement x.1.name owner)

def definition (x : Tag × List Node) : Except ParseError Definition := do
  if x.1.name = "enum" then
    let e ← Element.enum x.1
    return .enum { e with variants := ← (elements x.2).mapM (variant e.name) }
  else if x.1.name = "struct" then
    let t ← Element.struct x.1
    return .struct { t with fields := ← (elements x.2).mapM (field t.name) }
  else throw (.unknownElement x.1.name "document")

/-- Adds the definition of an element. -/
def add (s : Schema) (x : Tag × List Node) : Except ParseError Schema := do
  Element.add s (← definition x)

/-- A document has its root and no other element. -/
def schema (ns : List Node) : Except ParseError Schema :=
  match elements ns with
  | [] => throw (.invalidStructure .noSchemaElement)
  | root :: others => do
    if root.1.name = "sumSchema" then
      let s ← (elements root.2).foldlM add (← Element.schema root.1)
      match others with
      | [] => return s
      | x :: _ => throw (.unknownElement x.1.name "document")
    else throw (.unknownElement root.1.name "document")

/-- There are no elements where the reader of events does not count them. -/
structure Plain (ns : List Node) : Prop where
  fields : Xml.Node.Flat "field" ns
  root : (elements ns).length ≤ 1

section Events

variable {ns : List Node} {s : Option Schema} {owner : Owner} {fields : List Field}

theorem foldlM_text {f : Field} {cs : List Char} (h : elements ns = []) :
    (eventsOf ns).foldlM State.step ⟨s, .text owner fields f cs⟩ =
      (text ns).map fun ds => ⟨s, .text owner fields f (ds.reverse ++ cs)⟩ := by
  induction ns generalizing cs with
  | nil => rfl
  | cons n ns ih =>
    rw [eventsOf, List.foldlM_append]
    cases n with
    | char c =>
      simp only [Node.events, List.foldlM_cons, List.foldlM_nil, State.step, text, ok_bind,
        pure_def, ih h]
      cases text ns <;> simp
    | reference body =>
      simp only [Node.events, List.foldlM_cons, List.foldlM_nil, State.step, text]
      cases Xml.textReference? body with
      | none => rfl
      | some c =>
        simp only [ok_bind, pure_def, ih h]
        cases text ns <;> simp
    | leaf t => cases h
    | element t content => cases h

/-- The reader goes through an element. -/
def read (s : State) (x : Tag × List Node) : Except ParseError State :=
  s.step (.start x.1) >>= (eventsOf x.2).foldlM State.step >>= (State.step · .stop)

theorem foldlM_events {s : State} (hs : s.place.inField = false) {n : Node} {x : Tag × List Node}
    (hx : n.element? = some x) : n.events.foldlM State.step s = read s x := by
  cases n with
  | char c => cases hx
  | reference body => cases hx
  | leaf t =>
    cases hx
    simp [read, Node.events, eventsOf, State.step_empty hs, bind_ok]
  | element t content =>
    cases hx
    simp [read, Node.events, bind_ok]

/-- Elements are read one by one, and nothing of what stands between them. -/
theorem foldlM_elements {β : Type} (state : β → State)
    (add : β → Tag × List Node → Except ParseError β) (hs : ∀ b, (state b).place.inField = false)
    (h : ∀ b, ∀ x ∈ elements ns, read (state b) x = (add b x).map state) (b : β) :
    (eventsOf ns).foldlM State.step (state b) = ((elements ns).foldlM add b).map state := by
  induction ns generalizing b with
  | nil => rfl
  | cons n ns ih =>
    rw [eventsOf, List.foldlM_append]
    cases hx : n.element? with
    | none =>
      rw [Xml.Node.elements_cons_of_none hx] at h ⊢
      rw [← ih h b]
      cases n with
      | char c => simp [Node.events, State.step_char (hs b)]
      | reference body => simp [Node.events, State.step_reference (hs b)]
      | leaf t => cases hx
      | element t content => cases hx
    | some x =>
      rw [Xml.Node.elements_cons_of_some hx] at h ⊢
      rw [foldlM_events (hs b) hx, h b x List.mem_cons_self, List.foldlM_cons]
      cases add b x with
      | error e => rfl
      | ok b => exact ih (fun b y hy => h b y (List.mem_cons_of_mem _ hy)) b

theorem foldlM_append_mapM {α β ε : Type} {f : α → Except ε β} (xs : List α) (bs : List β) :
    xs.foldlM (fun bs x => (f x).map fun b => bs ++ [b]) bs = (xs.mapM f).map (bs ++ ·) := by
  induction xs generalizing bs with
  | nil => simp
  | cons x xs ih =>
    rw [List.foldlM_cons, List.mapM_cons]
    cases f x with
    | error e => rfl
    | ok b =>
      simp only [map_ok, ok_bind, ih]
      cases xs.mapM f <;> simp

theorem read_field {x : Tag × List Node} (h : x.1.name = "field" → elements x.2 = []) :
    read ⟨s, .payload owner fields⟩ x =
      (field owner.name x).map fun f => ⟨s, .payload owner (fields ++ [f])⟩ := by
  simp only [read, State.step, State.openField, field]
  split
  · rename_i ht
    cases Element.field x.1 with
    | error e => rfl
    | ok f =>
      simp only [ok_bind, pure_def, if_true, foldlM_text (h ht)]
      cases text x.2 <;> simp
  · rfl

theorem foldlM_fields (h : Xml.Node.Flat "field" ns) :
    (eventsOf ns).foldlM State.step ⟨s, .payload owner fields⟩ =
      ((elements ns).mapM (field owner.name)).map fun fs =>
        ⟨s, .payload owner (fields ++ fs)⟩ := by
  rw [foldlM_elements (fun fs => ⟨s, .payload owner fs⟩)
      (fun fs x => (field owner.name x).map fun f => fs ++ [f]) (fun _ => rfl) ?_ fields,
    foldlM_append_mapM, map_map]
  intro fs x hx
  rw [read_field (Xml.Node.flat_iff.mp h x hx).1, map_map]

theorem read_variant {e : Enum} {x : Tag × List Node} (h : Xml.Node.Flat "field" x.2) :
    read ⟨s, .enum e⟩ x =
      (variant e.name x).map fun v => ⟨s, .enum { e with variants := e.variants ++ [v] }⟩ := by
  simp only [read, State.step, State.openVariant, variant]
  split
  · cases Element.variant x.1 with
    | error e => rfl
    | ok v =>
      simp only [ok_bind, pure_def, if_true, foldlM_fields h, Owner.name]
      cases (elements x.2).mapM (field v.name) <;> rfl
  · rfl

theorem foldlM_variants {e : Enum} (h : Xml.Node.Flat "field" ns) :
    (eventsOf ns).foldlM State.step ⟨s, .enum e⟩ =
      ((elements ns).mapM (variant e.name)).map fun vs =>
        ⟨s, .enum { e with variants := e.variants ++ vs }⟩ := by
  rw [foldlM_elements (fun vs => ⟨s, .enum { e with variants := vs }⟩)
      (fun vs x => (variant e.name x).map fun v => vs ++ [v]) (fun _ => rfl) ?_ e.variants,
    foldlM_append_mapM, map_map]
  intro vs x hx
  rw [read_variant (Xml.Node.flat_iff.mp h x hx).2, map_map]

theorem read_definition {sc : Schema} {x : Tag × List Node} (h : Xml.Node.Flat "field" x.2) :
    read ⟨some sc, .document⟩ x = (add sc x).map fun sc => ⟨some sc, .document⟩ := by
  simp only [read, State.step, State.openTop, add, definition]
  split
  · cases he : Element.enum x.1 with
    | error e => rfl
    | ok e =>
      simp only [ok_bind, pure_def, if_true, foldlM_variants h, Element.variants_enum he]
      cases (elements x.2).mapM (variant e.name) with
      | error e => rfl
      | ok vs => exact State.define_eq sc .document _
  · split
    · cases Element.struct x.1 with
      | error e => rfl
      | ok d =>
        simp only [ok_bind, pure_def, if_true, foldlM_fields h, Owner.name]
        cases (elements x.2).mapM (field d.name) with
        | error e => rfl
        | ok fs => exact State.define_eq sc .document _
    · rfl

theorem foldlM_definitions (h : Xml.Node.Flat "field" ns) (sc : Schema) :
    (eventsOf ns).foldlM State.step ⟨some sc, .document⟩ =
      ((elements ns).foldlM add sc).map fun sc => ⟨some sc, .document⟩ :=
  foldlM_elements (fun sc => ⟨some sc, .document⟩) add (fun _ => rfl)
    (fun _ x hx => read_definition (Xml.Node.flat_iff.mp h x hx).2) sc

/-- What the reader makes of the elements that no other holds. The first is the root; those beside
it are taken for definitions as well. -/
def top : Option Schema → Tag × List Node → Except ParseError (Option Schema)
  | none, x => do
    if x.1.name = "sumSchema" then
      return some (← (elements x.2).foldlM add (← Element.schema x.1))
    else throw (.unknownElement x.1.name "document")
  | some s, x => (add s x).map some

theorem read_top {sc : Option Schema} {x : Tag × List Node} (h : Xml.Node.Flat "field" x.2) :
    read ⟨sc, .document⟩ x = (top sc x).map fun sc => ⟨sc, .document⟩ := by
  cases sc with
  | none =>
    simp only [read, State.step, State.openTop, top]
    split
    · cases Element.schema x.1 with
      | error e => rfl
      | ok sc =>
        simp only [ok_bind, pure_def, foldlM_definitions h]
        cases (elements x.2).foldlM add sc <;> rfl
    · rfl
  | some sc => rw [read_definition h, top, map_map]

theorem ofStream_eq (h : Xml.Node.Flat "field" ns) :
    Element.ofStream ⟨eventsOf ns, none⟩ = (elements ns).foldlM top none >>= fun s =>
      match s with
      | some s => .ok s
      | none => .error (.invalidStructure .noSchemaElement) := by
  have hread (sc : Option Schema) : ∀ x ∈ elements ns,
      read ⟨sc, .document⟩ x = (top sc x).map fun sc => ⟨sc, .document⟩ :=
    fun x hx => read_top (Xml.Node.flat_iff.mp h x hx).2
  have hrun := foldlM_elements (fun sc => ⟨sc, .document⟩) top (fun _ => rfl) hread none
  simp only [Element.ofStream, Element.load, State.start, hrun]
  cases (elements ns).foldlM top none with
  | error e => rfl
  | ok s => cases s <;> rfl

end Events

section Mirrors

variable {ns : List Node} {x : Tag × List Node}

theorem elements_of_text {cs : List Char} (h : text ns = .ok cs) : elements ns = [] := by
  induction ns generalizing cs with
  | nil => rfl
  | cons n ns ih =>
    cases n with
    | char c =>
      obtain ⟨ds, hd, -⟩ := bind_eq_ok.mp h
      exact ih hd
    | reference body =>
      simp only [text] at h
      split at h
      · obtain ⟨ds, hd, -⟩ := bind_eq_ok.mp h
        exact ih hd
      · cases h
    | leaf t => cases h
    | element t content => cases h

theorem exists_of_mapM {α β : Type} {f : α → Except ParseError β} {xs : List α} {ys : List β}
    (h : xs.mapM f = .ok ys) : ∀ x ∈ xs, ∃ y, f x = .ok y := by
  induction xs generalizing ys with
  | nil => exact List.forall_mem_nil _
  | cons x xs ih =>
    rw [List.mapM_cons] at h
    obtain ⟨y, hy, h⟩ := bind_eq_ok.mp h
    obtain ⟨ys, hys, -⟩ := bind_eq_ok.mp h
    exact List.forall_mem_cons.mpr ⟨⟨y, hy⟩, ih hys⟩

theorem flat_of_field {owner : String} {f : Field} (h : field owner x = .ok f) :
    elements x.2 = [] := by
  simp only [field] at h
  split at h
  · obtain ⟨f, -, h⟩ := bind_eq_ok.mp h
    obtain ⟨cs, hcs, -⟩ := bind_eq_ok.mp h
    exact elements_of_text hcs
  · cases h

theorem flat_of_fields {owner : String} {fs : List Field}
    (h : (elements ns).mapM (field owner) = .ok fs) : Xml.Node.Flat "field" ns := by
  refine Xml.Node.flat_iff.mpr fun x hx => ?_
  obtain ⟨f, hf⟩ := exists_of_mapM h x hx
  have he := flat_of_field hf
  exact ⟨fun _ => he, Xml.Node.flat_of_elements_eq_nil he⟩

theorem flat_of_variants {owner : String} {vs : List Variant}
    (h : (elements ns).mapM (variant owner) = .ok vs) : Xml.Node.Flat "field" ns := by
  refine Xml.Node.flat_iff.mpr fun x hx => ?_
  obtain ⟨v, hv⟩ := exists_of_mapM h x hx
  simp only [variant] at hv
  split at hv
  · rename_i hn
    obtain ⟨v, -, hv⟩ := bind_eq_ok.mp hv
    obtain ⟨fs, hfs, -⟩ := bind_eq_ok.mp hv
    exact ⟨fun hf => absurd (hn.symm.trans hf) (by decide), flat_of_fields hfs⟩
  · cases hv

theorem flat_of_definition {d : Definition} (h : definition x = .ok d) :
    x.1.name ≠ "field" ∧ Xml.Node.Flat "field" x.2 := by
  simp only [definition] at h
  split at h
  · rename_i hn
    obtain ⟨e, -, h⟩ := bind_eq_ok.mp h
    obtain ⟨vs, hvs, -⟩ := bind_eq_ok.mp h
    exact ⟨hn ▸ by decide, flat_of_variants hvs⟩
  · split at h
    · rename_i hn
      obtain ⟨t, -, h⟩ := bind_eq_ok.mp h
      obtain ⟨fs, hfs, -⟩ := bind_eq_ok.mp h
      exact ⟨hn ▸ by decide, flat_of_fields hfs⟩
    · cases h

/-- The schema is that of the tree: there is one root, and its direct children are the definitions
in order, with theirs as variants and fields, and no element anywhere else. -/
def Mirrors (ns : List Node) (s : Schema) : Prop :=
  ∃ root, elements ns = [root] ∧ root.1.name = "sumSchema" ∧
    Element.schema root.1 = .ok { s with definitions := [] } ∧
    List.Forall₂ (fun x d => definition x = .ok d) (elements root.2) s.definitions

theorem Mirrors.plain {s : Schema} (h : Mirrors ns s) : Plain ns := by
  obtain ⟨root, hns, hn, -, hd⟩ := h
  refine ⟨?_, Nat.le_of_eq (congrArg List.length hns)⟩
  rw [Xml.Node.flat_iff, hns, List.forall_mem_singleton]
  refine ⟨fun hf => absurd (hn.symm.trans hf) (by decide), Xml.Node.flat_iff.mpr fun x hx => ?_⟩
  obtain ⟨d, -, hd⟩ := Lists.exists_of_mem_left hd hx
  exact ⟨fun hf => absurd hf (flat_of_definition hd).1, (flat_of_definition hd).2⟩

theorem forall₂_of_foldlM_add {xs : List (Tag × List Node)} {s s' : Schema}
    (h : xs.foldlM add s = .ok s') : ∃ ds, s' = { s with definitions := s.definitions ++ ds } ∧
      List.Forall₂ (fun x d => definition x = .ok d) xs ds := by
  induction xs generalizing s with
  | nil =>
    cases h
    exact ⟨[], by rw [List.append_nil], .nil⟩
  | cons x xs ih =>
    obtain ⟨s₁, h₁, h⟩ := bind_eq_ok.mp (List.foldlM_cons.symm.trans h)
    obtain ⟨d, hd, h₁⟩ := bind_eq_ok.mp h₁
    obtain ⟨-, rfl⟩ := Element.add_eq_ok.mp h₁
    obtain ⟨ds, rfl, hds⟩ := ih h
    exact ⟨d :: ds, by simp [Schema.add], .cons hd hds⟩

theorem mirrors_of_schema {s : Schema} (h : schema ns = .ok s) : Mirrors ns s := by
  simp only [schema] at h
  split at h
  · cases h
  · rename_i root others hns
    split at h
    · rename_i hn
      obtain ⟨s₀, h₀, h⟩ := bind_eq_ok.mp h
      obtain ⟨s₁, h₁, h⟩ := bind_eq_ok.mp h
      split at h
      · cases h
        obtain ⟨ds, rfl, hds⟩ := forall₂_of_foldlM_add h₁
        obtain ⟨package, description, ds₀, unlisted⟩ := s₀
        obtain rfl := (Element.definitions_schema h₀).1
        exact ⟨root, hns, hn, h₀, hds⟩
      · cases h
    · cases h

theorem ofStream_of_plain (h : Plain ns) : Element.ofStream ⟨eventsOf ns, none⟩ = schema ns := by
  rw [ofStream_eq h.fields, schema]
  have hl := h.root
  cases hns : elements ns with
  | nil => rfl
  | cons root others =>
    rw [hns] at hl
    obtain rfl : others = [] := List.eq_nil_of_length_eq_zero (by simpa using hl)
    simp only [List.foldlM_cons, List.foldlM_nil, top]
    split
    · cases Element.schema root.1 with
      | error e => rfl
      | ok s =>
        simp only [ok_bind]
        cases (elements root.2).foldlM add s <;> rfl
    · rfl

/-- How the outcome of reading a stream follows the tree that its events stand for. -/
structure Followed (ns : List Node) (x : Xml.Stream) : Prop where
  /-- A schema that is loaded is that of the tree unless there are stray elements. -/
  mirrors_iff : ∀ s, Element.ofStream x = .ok s → (Mirrors ns s ↔ Plain ns)
  /-- Without them, whatever is not in its place is refused as the tree has it. -/
  eq_schema : x.fault = none → Plain ns → Element.ofStream x = schema ns

/-- The events of elements that all end stand for trees, and reading follows those trees, unless
they have stray elements. -/
theorem followed_of_balanced {x : Xml.Stream} (h : Xml.Node.Balanced 0 x.events) :
    (∃ ns, eventsOf ns = x.events) ∧ ∀ ns, eventsOf ns = x.events → Followed ns x := by
  refine ⟨Xml.Node.balanced_iff.mp h, fun ns hns => ⟨fun s hs => ⟨Mirrors.plain, fun hp => ?_⟩, ?_⟩⟩
  · have hx : x = ⟨eventsOf ns, none⟩ := by rw [hns, ← (Element.ofStream_eq_ok.mp hs).1]
    rw [hx, ofStream_of_plain hp] at hs
    exact mirrors_of_schema hs
  · intro hf hp
    have hx : x = ⟨eventsOf ns, none⟩ := by rw [hns, ← hf]
    rw [hx, ofStream_of_plain hp]

end Mirrors

namespace Stems

def tag (name written : String) : Tag := ⟨name, written.toList⟩

/-- Every kind of element -/
def text : String :=
  "<sumSchema package='stems'><struct name='Leaf'/><enum name='Stem'><variant name='Bare'/>" ++
    "<variant name='One' tag='one'><field type='Leaf'>its &lt;leaf></field></variant></enum>" ++
      "</sumSchema>"

def nodes : List Node :=
  [.element (tag "sumSchema" " package='stems'")
    [.leaf (tag "struct" " name='Leaf'"),
      .element (tag "enum" " name='Stem'")
        [.leaf (tag "variant" " name='Bare'"),
          .element (tag "variant" " name='One' tag='one'")
            [.element (tag "field" " type='Leaf'")
              ("its ".toList.map .char ++ .reference ['l', 't'] :: "leaf>".toList.map .char)]]]]

def schema : Schema :=
  .ofDefinitions "stems" none [.struct ⟨"Leaf", none, []⟩, .enum ⟨"Stem", none, [
    ⟨"Bare", none, none, []⟩,
    ⟨"One", some "one", none, [⟨none, .reference "Leaf", some "its <leaf>"⟩]⟩]⟩]

/-- The end of an element in a field is taken for that of the field, so the elements around it end
early, and a struct within a struct is taken for a definition of its own. -/
def brokenText : String :=
  "<sumSchema package='stems'><struct name='Stem'><field type='u8'><b>x</b></field>" ++
    "<struct name='Leaf'/></struct></sumSchema>"

def brokenNodes : List Node :=
  [.element (tag "sumSchema" " package='stems'")
    [.element (tag "struct" " name='Stem'")
      [.element (tag "field" " type='u8'") [.element (tag "b" "") [.char 'x']],
        .leaf (tag "struct" " name='Leaf'")]]]

def brokenSchema : Schema :=
  .ofDefinitions "stems" none
    [.struct ⟨"Stem", none, [⟨none, .unsigned .w8, some "x"⟩]⟩, .struct ⟨"Leaf", none, []⟩]

theorem ofText_text : Xml.Stream.ofText text = ⟨eventsOf nodes, none⟩ := by decide +kernel

theorem ofText_brokenText : Xml.Stream.ofText brokenText = ⟨eventsOf brokenNodes, none⟩ := by
  decide +kernel

theorem balanced_text : Xml.Node.Balanced 0 (Xml.Stream.ofText text).events :=
  Xml.Node.balanced_iff.mpr ⟨nodes, by rw [ofText_text]⟩

theorem balanced_brokenText : Xml.Node.Balanced 0 (Xml.Stream.ofText brokenText).events :=
  Xml.Node.balanced_iff.mpr ⟨brokenNodes, by rw [ofText_brokenText]⟩

theorem ofXml_text : Schema.ofXml text = .ok schema := by
  rw [Schema.ofXml, ofText_text]
  decide +kernel

theorem ofXml_brokenText : Schema.ofXml brokenText = .ok brokenSchema := by
  rw [Schema.ofXml, ofText_brokenText]
  decide +kernel

end Stems

theorem followed_stems :
    Xml.Node.Balanced 0 (Xml.Stream.ofText Stems.text).events ∧
      Schema.ofXml Stems.text = .ok Stems.schema ∧ Mirrors Stems.nodes Stems.schema := by
  have hp : Plain Stems.nodes := ⟨by decide +kernel, by decide⟩
  have hf := (followed_of_balanced Stems.balanced_text).2 Stems.nodes (by rw [Stems.ofText_text])
  exact ⟨Stems.balanced_text, Stems.ofXml_text,
    (hf.mirrors_iff Stems.schema Stems.ofXml_text).mpr hp⟩

/-- The schema is loaded with a definition that is no child of the root, and the element in the
field is not refused. -/
theorem not_mirrors_stems :
    Schema.ofXml Stems.brokenText = .ok Stems.brokenSchema ∧
      eventsOf Stems.brokenNodes = (Xml.Stream.ofText Stems.brokenText).events ∧
      Xml.Node.Balanced 0 (Xml.Stream.ofText Stems.brokenText).events ∧
      ¬Mirrors Stems.brokenNodes Stems.brokenSchema := by
  have hb : ¬Xml.Node.Flat "field" Stems.brokenNodes := by decide +kernel
  exact ⟨Stems.ofXml_brokenText, by rw [Stems.ofText_brokenText], Stems.balanced_brokenText,
    fun h => hb h.plain.fields⟩

end TaggedSum.Tree
