import TaggedSum.Xml.Event

namespace TaggedSum.Xml

/-- What may stand in an element; a `leaf` is an element that is a single tag. -/
inductive Node where
  | char (c : Char)
  | reference (body : List Char)
  | leaf (tag : Tag)
  | element (tag : Tag) (content : List Node)

namespace Node

mutual

def events : Node → List Event
  | char c => [.char c]
  | reference body => [.reference body]
  | leaf tag => [.empty tag]
  | element tag content => .start tag :: (eventsOf content ++ [.stop])

def eventsOf : List Node → List Event
  | [] => []
  | n :: ns => n.events ++ eventsOf ns

end

/-- An element's tag and content -/
def element? : Node → Option (Tag × List Node)
  | char _ => none
  | reference _ => none
  | leaf tag => some (tag, [])
  | element tag content => some (tag, content)

/-- The elements of a content, without those within them. -/
def elements (ns : List Node) : List (Tag × List Node) := ns.filterMap element?

variable {name : String} {ns : List Node} {n : Node} {x : Tag × List Node}

theorem elements_cons_of_none (h : n.element? = none) : elements (n :: ns) = elements ns :=
  List.filterMap_cons_none h

theorem elements_cons_of_some (h : n.element? = some x) : elements (n :: ns) = x :: elements ns :=
  List.filterMap_cons_some h

/-- An element of a content, at any depth. -/
inductive Within (x : Tag × List Node) : List Node → Prop
  | here {ns : List Node} (h : x ∈ elements ns) : Within x ns
  | under {ns : List Node} {y : Tag × List Node} (hy : y ∈ elements ns) (h : Within x y.2) :
    Within x ns

/-- No element of this name holds elements. -/
def Flat (name : String) (ns : List Node) : Prop :=
  ∀ x, Within x ns → x.1.name = name → elements x.2 = []

theorem flat_iff : Flat name ns ↔
    ∀ x ∈ elements ns, (x.1.name = name → elements x.2 = []) ∧ Flat name x.2 := by
  constructor
  · intro h x hx
    exact ⟨h x (.here hx), fun y hy => h y (.under hx hy)⟩
  · intro h x hx hn
    cases hx with
    | here hx => exact (h x hx).1 hn
    | under hy hx => exact (h _ hy).2 x hx hn

theorem flat_of_elements_eq_nil (h : elements ns = []) : Flat name ns := by
  rw [flat_iff, h]
  exact List.forall_mem_nil _

@[simp] theorem flat_nil : Flat name [] := flat_of_elements_eq_nil rfl

-- That no element of a name holds elements can be decided node by node.
mutual

def isFlat (name : String) : Node → Bool
  | char _ => true
  | reference _ => true
  | leaf _ => true
  | element tag content =>
    (tag.name != name || (elements content).isEmpty) && areFlat name content

def areFlat (name : String) : List Node → Bool
  | [] => true
  | n :: ns => n.isFlat name && areFlat name ns

end

mutual

theorem isFlat_iff : ∀ n : Node, n.isFlat name = true ↔
    ∀ x, n.element? = some x → (x.1.name = name → elements x.2 = []) ∧ Flat name x.2
  | char _ => by simp [isFlat, element?]
  | reference _ => by simp [isFlat, element?]
  | leaf _ => by simp [isFlat, element?, elements]
  | element tag content => by
    simp only [isFlat, element?, Bool.and_eq_true, areFlat_iff content, Option.some.injEq,
      forall_eq', Bool.or_eq_true, bne_iff_ne, List.isEmpty_iff, ne_eq, Decidable.imp_iff_not_or]

theorem areFlat_iff : ∀ ns : List Node, areFlat name ns = true ↔ Flat name ns
  | [] => by simp [areFlat]
  | n :: ns => by
    rw [areFlat, Bool.and_eq_true, isFlat_iff n, areFlat_iff ns, flat_iff, flat_iff]
    cases hx : n.element? with
    | none => simp [elements_cons_of_none hx]
    | some x => simp [elements_cons_of_some hx]

end

instance : Decidable (Flat name ns) := decidable_of_iff _ (areFlat_iff ns)

/-- The events are the rest of those of elements that are open, as many as the depth says. -/
inductive Balanced : Nat → List Event → Prop
  | done : Balanced 0 []
  | start {depth : Nat} {tag : Tag} {es : List Event} (h : Balanced (depth + 1) es) :
    Balanced depth (.start tag :: es)
  | stop {depth : Nat} {es : List Event} (h : Balanced depth es) :
    Balanced (depth + 1) (.stop :: es)
  | empty {depth : Nat} {tag : Tag} {es : List Event} (h : Balanced depth es) :
    Balanced depth (.empty tag :: es)
  | char {depth : Nat} {c : Char} {es : List Event} (h : Balanced depth es) :
    Balanced depth (.char c :: es)
  | reference {depth : Nat} {body : List Char} {es : List Event} (h : Balanced depth es) :
    Balanced depth (.reference body :: es)

mutual

theorem Balanced.events_append {es : List Event} :
    ∀ (n : Node) {depth : Nat}, Balanced depth es → Balanced depth (n.events ++ es)
  | .char _, _, h => .char h
  | .reference _, _, h => .reference h
  | .leaf _, _, h => .empty h
  | .element _ content, depth, h => by
    rw [events, List.cons_append, List.append_assoc]
    exact .start (Balanced.eventsOf_append content (.stop h))

theorem Balanced.eventsOf_append {es : List Event} :
    ∀ (ns : List Node) {depth : Nat}, Balanced depth es → Balanced depth (eventsOf ns ++ es)
  | [], _, h => h
  | n :: ns, _, h => by
    rw [eventsOf, List.append_assoc]
    exact Balanced.events_append n (Balanced.eventsOf_append ns h)

end

/-- The rest of elements that are open, innermost first, and what stands behind them. -/
def closing : List (List Node) → List Node → List Event
  | [], behind => eventsOf behind
  | content :: outer, behind => eventsOf content ++ .stop :: closing outer behind

/-- Puts a node in front of the innermost content. -/
theorem exists_closing_cons (n : Node) (rests : List (List Node)) (behind : List Node) :
    ∃ rests' behind', rests'.length = rests.length ∧
      closing rests' behind' = n.events ++ closing rests behind := by
  cases rests with
  | nil => exact ⟨[], n :: behind, rfl, by rw [closing, closing, eventsOf]⟩
  | cons content outer =>
    exact ⟨(n :: content) :: outer, behind, rfl, by
      rw [closing, closing, eventsOf, List.append_assoc]⟩

theorem Balanced.exists_closing {es : List Event} {depth : Nat} (h : Balanced depth es) :
    ∃ rests behind, rests.length = depth ∧ closing rests behind = es := by
  induction h with
  | done => exact ⟨[], [], rfl, rfl⟩
  | @start depth tag es h ih =>
    obtain ⟨rests, behind, hl, rfl⟩ := ih
    obtain ⟨content, outer, rfl⟩ := List.exists_cons_of_length_eq_add_one hl
    obtain ⟨rests', behind', hl', he⟩ := exists_closing_cons (.element tag content) outer behind
    refine ⟨rests', behind', hl'.trans (Nat.succ.inj hl), he.trans ?_⟩
    simp only [events, closing, List.cons_append, List.append_assoc, List.nil_append]
  | stop h ih =>
    obtain ⟨rests, behind, hl, rfl⟩ := ih
    exact ⟨[] :: rests, behind, congrArg (· + 1) hl, rfl⟩
  | @empty depth tag es h ih =>
    obtain ⟨rests, behind, rfl, rfl⟩ := ih
    exact exists_closing_cons (.leaf tag) rests behind
  | @char depth c es h ih =>
    obtain ⟨rests, behind, rfl, rfl⟩ := ih
    exact exists_closing_cons (.char c) rests behind
  | @reference depth body es h ih =>
    obtain ⟨rests, behind, rfl, rfl⟩ := ih
    exact exists_closing_cons (.reference body) rests behind

theorem balanced_iff {es : List Event} : Balanced 0 es ↔ ∃ ns, eventsOf ns = es := by
  constructor
  · intro h
    obtain ⟨rests, behind, hl, rfl⟩ := h.exists_closing
    rw [List.length_eq_zero_iff.mp hl]
    exact ⟨behind, rfl⟩
  · rintro ⟨ns, rfl⟩
    have := Balanced.eventsOf_append ns .done
    rwa [List.append_nil] at this

end Node

end TaggedSum.Xml
