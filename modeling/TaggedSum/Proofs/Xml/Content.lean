import TaggedSum.Proofs.Xml.Reference
import TaggedSum.Proofs.Xml.Tree

namespace TaggedSum.Xml

open Outcome

namespace Node

def reference? : Node → Option (List Char)
  | reference body => some body
  | _ => none

/-- The bodies of the references in a content. -/
def references (ns : List Node) : List (List Char) := ns.filterMap reference?

/-- What a node stands for in text. -/
def meaning? : Node → Option Char
  | char c => some c
  | reference body => textReference? body
  | _ => none

/-- The content that is written so, if its references are closed. In a reference that is open,
`pending` holds its body so far in reverse. -/
def contentFrom (pending : Option (List Char)) : List Char → Option (List Node)
  | [] =>
    match pending with
    | none => some []
    | some _ => none
  | c :: cs =>
    match pending with
    | none =>
      if c == '&' then contentFrom (some []) cs else (contentFrom none cs).map (char c :: ·)
    | some body =>
      if c == ';' then (contentFrom none cs).map (reference body.reverse :: ·)
      else if c == '&' then none
      else contentFrom (some (c :: body)) cs

def content? (cs : List Char) : Option (List Node) := contentFrom none cs

theorem elements_contentFrom {pending : Option (List Char)} {cs : List Char} {ns : List Node}
    (h : contentFrom pending cs = some ns) : elements ns = [] := by
  induction cs generalizing pending ns with
  | nil =>
    cases pending with
    | none =>
      cases h
      rfl
    | some body => cases h
  | cons c cs ih =>
    cases pending with
    | none =>
      rw [contentFrom] at h
      split at h
      · exact ih h
      · obtain ⟨ns, hns, rfl⟩ := Option.map_eq_some_iff.mp h
        exact (elements_cons_of_none rfl).trans (ih hns)
    | some body =>
      rw [contentFrom] at h
      split at h
      · obtain ⟨ns, hns, rfl⟩ := Option.map_eq_some_iff.mp h
        exact (elements_cons_of_none rfl).trans (ih hns)
      · split at h
        · cases h
        · exact ih h

/-- The content is read as these characters, in a value as well. -/
def Strict (ns : List Node) (cs : List Char) : Prop :=
  ns.mapM meaning? = some cs ∧ ∀ body ∈ references ns, ¬Lenient body

section Strict

variable {ns : List Node} {cs : List Char}

theorem strict_nil : Strict [] cs ↔ cs = [] := by
  simp [Strict, references, eq_comm]

theorem strict_char {c : Char} : Strict (char c :: ns) cs ↔ ∃ ds, Strict ns ds ∧ cs = c :: ds := by
  simp only [Strict, List.mapM_cons, meaning?, references, List.filterMap_cons, reference?]
  cases ns.mapM meaning? <;> simp [eq_comm, and_comm, and_left_comm]

theorem strict_reference {start : Nat} {body : List Char} : Strict (reference body :: ns) cs ↔
    ∃ c ds, Attribute.resolve start body = .ok c ∧ Strict ns ds ∧ cs = c :: ds := by
  simp only [Strict, List.mapM_cons, meaning?, references, List.filterMap_cons, reference?,
    Attribute.resolve_eq_ok_iff, List.forall_mem_cons]
  cases textReference? body <;> cases ns.mapM meaning? <;>
    simp [eq_comm, and_comm, and_assoc, and_left_comm]

end Strict

end Node

open Node

/-- The bodies of the references in a text without markup. -/
def bodies (cs : List Char) : List (List Char) := (content? cs).elim [] references

/-- Where the references of a value are closed, it is read as its content is. -/
theorem unescapeFrom_eq_ok_iff {size place : Nat} {pending : Option (Nat × List Char)}
    {raw cs : List Char} : Attribute.unescapeFrom size place pending raw = .ok cs ↔
      ∃ ns, contentFrom (pending.map Prod.snd) raw = some ns ∧ Strict ns cs := by
  induction raw generalizing place pending cs with
  | nil =>
    cases pending with
    | none => simp [Attribute.unescapeFrom, contentFrom, strict_nil, eq_comm]
    | some p => simp [Attribute.unescapeFrom, contentFrom]
  | cons c raw ih =>
    cases pending with
    | none =>
      rw [Attribute.unescapeFrom, Option.map_none, contentFrom]
      by_cases hc : (c == '&') = true
      · rw [if_pos hc, if_pos hc]
        exact ih
      · rw [if_neg hc, if_neg hc, bind_eq_ok]
        constructor
        · rintro ⟨ds, hds, h⟩
          cases h
          obtain ⟨ns, hns, hv⟩ := ih.mp hds
          exact ⟨.char c :: ns, Option.map_eq_some_iff.mpr ⟨ns, hns, rfl⟩,
            strict_char.mpr ⟨ds, hv, rfl⟩⟩
        · rintro ⟨_, h, hv⟩
          obtain ⟨ns, hns, rfl⟩ := Option.map_eq_some_iff.mp h
          obtain ⟨ds, hds, rfl⟩ := strict_char.mp hv
          exact ⟨ds, ih.mpr ⟨ns, hns, hds⟩, rfl⟩
    | some p =>
      obtain ⟨start, body⟩ := p
      rw [Attribute.unescapeFrom, Option.map_some, contentFrom]
      by_cases hc : (c == ';') = true
      · rw [if_pos hc, if_pos hc, bind_eq_ok]
        constructor
        · rintro ⟨d, hd, h⟩
          obtain ⟨ds, hds, h⟩ := bind_eq_ok.mp h
          cases h
          obtain ⟨ns, hns, hv⟩ := ih.mp hds
          exact ⟨.reference body.reverse :: ns, Option.map_eq_some_iff.mpr ⟨ns, hns, rfl⟩,
            strict_reference.mpr ⟨d, ds, hd, hv, rfl⟩⟩
        · rintro ⟨_, h, hv⟩
          obtain ⟨ns, hns, rfl⟩ := Option.map_eq_some_iff.mp h
          obtain ⟨d, ds, hd, hds, rfl⟩ := strict_reference.mp hv
          exact ⟨d, hd, bind_eq_ok.mpr ⟨ds, ih.mpr ⟨ns, hns, hds⟩, rfl⟩⟩
      · rw [if_neg hc, if_neg hc]
        by_cases ha : (c == '&') = true
        · rw [if_pos ha, if_pos ha]
          simp
        · rw [if_neg ha, if_neg ha]
          exact ih

theorem value_eq_ok_iff {a : Attribute} {v : String} :
    a.value = .ok v ↔ ∃ ns cs, content? a.raw = some ns ∧ Strict ns cs ∧ v = .ofList cs := by
  rw [Attribute.value, bind_eq_ok]
  constructor
  · rintro ⟨cs, hcs, h⟩
    cases h
    obtain ⟨ns, hns, hv⟩ := unescapeFrom_eq_ok_iff.mp hcs
    exact ⟨ns, cs, hns, hv, rfl⟩
  · rintro ⟨ns, cs, hns, hv, rfl⟩
    exact ⟨cs, unescapeFrom_eq_ok_iff.mpr ⟨ns, hns, hv⟩, rfl⟩

theorem contentFrom_body {body : List Char} (hs : ';' ∉ body) (ha : '&' ∉ body)
    (read cs : List Char) : contentFrom (some read) (body ++ ';' :: cs) =
      (contentFrom none cs).map (.reference (read.reverse ++ body) :: ·) := by
  induction body generalizing read with
  | nil => simp [contentFrom]
  | cons c body ih =>
    obtain ⟨hsc, hs⟩ := not_or.mp fun hm => hs (List.mem_cons.mpr hm)
    obtain ⟨hac, ha⟩ := not_or.mp fun hm => ha (List.mem_cons.mpr hm)
    simp [contentFrom, Ne.symm hsc, Ne.symm hac, ih hs ha]

/-- A reference that is all of a value. -/
theorem value_reference_eq_ok_iff {name : String} {body : List Char} {c : Char} (hs : ';' ∉ body)
    (ha : '&' ∉ body) : Attribute.value ⟨name, '&' :: (body ++ [';'])⟩ = .ok (.singleton c) ↔
      textReference? body = some c ∧ ¬Lenient body := by
  have hc : content? ('&' :: (body ++ [';'])) = some [.reference body] :=
    contentFrom_body hs ha [] []
  have hr : Attribute.resolve 0 body = .ok c ↔ textReference? body = some c ∧ ¬Lenient body :=
    Attribute.resolve_eq_ok_iff
  rw [value_eq_ok_iff, ← hr]
  constructor
  · rintro ⟨ns, cs, hns, hcs, hv⟩
    obtain rfl := Option.some.inj (hc.symm.trans hns)
    have hd : ∃ d ds, Attribute.resolve 0 body = .ok d ∧ Strict [] ds ∧ cs = d :: ds :=
      strict_reference.mp hcs
    obtain ⟨d, ds, hd, hds, rfl⟩ := hd
    obtain rfl := strict_nil.mp hds
    have hcd : [c] = [d] := by simpa using congrArg String.toList hv
    rwa [List.singleton_inj.mp hcd]
  · intro h
    exact ⟨_, [c], hc, strict_reference.mpr ⟨c, [], h, strict_nil.mpr rfl, rfl⟩, rfl⟩

namespace Scan

/-- Scans a text to its end. -/
def run (s : Scan) : List Char → Except Fault (Scan × List Event)
  | [] => .ok (s, [])
  | c :: cs => do
    let r ← s.step c
    let rest ← run r.1 cs
    return (rest.1, r.2 ++ rest.2)

/-- Between the names of open elements before and behind it, a text is read as these events. -/
def Reads (names : List (List Char)) (cs : List Char) (es : List Event)
    (names' : List (List Char)) : Prop :=
  run ⟨.text, names⟩ cs = .ok (⟨.text, names'⟩, es)

end Scan

namespace Stream

/-- The events of one text and those of another behind it. -/
def after (es : List Event) (x : Stream) : Stream := ⟨es ++ x.events, x.fault⟩

theorem scan_of_step {s s' : Scan} {c : Char} {es : List Event} (h : s.step c = .ok (s', es))
    (cs : List Char) : scan s (c :: cs) = after es (scan s' cs) := by
  rw [scan, h]
  rfl

theorem after_after (es fs : List Event) (x : Stream) :
    after es (after fs x) = after (es ++ fs) x := by
  simp only [after, List.append_assoc]

theorem scan_append {s s' : Scan} {cs : List Char} {es : List Event} (h : s.run cs = .ok (s', es))
    (ds : List Char) : scan s (cs ++ ds) = after es (scan s' ds) := by
  induction cs generalizing s es with
  | nil =>
    cases h
    rfl
  | cons c cs ih =>
    obtain ⟨⟨s₁, es₁⟩, h₁, h⟩ := bind_eq_ok.mp h
    obtain ⟨⟨s₂, es₂⟩, h₂, h⟩ := bind_eq_ok.mp h
    cases h
    rw [List.cons_append, scan_of_step h₁, ih h₂, after_after]

/-- What a scan of content is in. -/
def contentMode : Option (List Char) → Mode
  | none => .text
  | some body => .reference body

/-- A text without markup is read as its content; if a reference in it is not closed, the markup
behind it is a fault. -/
theorem scan_content (names : List (List Char)) (pending : Option (List Char)) {cs : List Char}
    (h : '<' ∉ cs) (ds : List Char) :
    (∀ ns, contentFrom pending cs = some ns →
      scan ⟨contentMode pending, names⟩ (cs ++ '<' :: ds) =
        after (eventsOf ns) (scan ⟨.text, names⟩ ('<' :: ds))) ∧
    (contentFrom pending cs = none →
      (scan ⟨contentMode pending, names⟩ (cs ++ '<' :: ds)).fault = some .referenceNotClosed) := by
  -- on the text, with what is read of an open reference generalized
  induction cs generalizing pending with
  | nil =>
    cases pending with
    | none =>
      refine ⟨fun ns hns => ?_, nofun⟩
      cases hns
      rfl
    | some body => exact ⟨nofun, fun _ => rfl⟩
  | cons c cs ih =>
    obtain ⟨hne, h⟩ := not_or.mp fun hm => h (List.mem_cons.mpr hm)
    have hlt : (c == '<') = false := beq_eq_false_iff_ne.mpr (Ne.symm hne)
    cases pending with
    | none =>
      cases hc : c == '&' with
      | true =>
        have hs : Scan.step ⟨.text, names⟩ c = .ok (⟨.reference [], names⟩, []) := by
          simp [Scan.step, hlt, hc]
        rw [contentMode, List.cons_append, scan_of_step hs, contentFrom, hc, if_pos rfl]
        exact ih _ h
      | false =>
        have hs : Scan.step ⟨.text, names⟩ c = .ok (⟨.text, names⟩, [.char c]) := by
          simp [Scan.step, hlt, hc]
        rw [contentMode, List.cons_append, scan_of_step hs, contentFrom, hc]
        refine ⟨fun _ hm => ?_, fun hn => (ih _ h).2 (Option.map_eq_none_iff.mp hn)⟩
        obtain ⟨ns, hns, rfl⟩ := Option.map_eq_some_iff.mp hm
        exact congrArg (after [.char c]) ((ih _ h).1 ns hns)
    | some body =>
      cases hc : c == ';' with
      | true =>
        have hs : Scan.step ⟨.reference body, names⟩ c =
            .ok (⟨.text, names⟩, [.reference body.reverse]) := by
          simp [Scan.step, hc]
        rw [contentMode, List.cons_append, scan_of_step hs, contentFrom, hc, if_pos rfl]
        refine ⟨fun _ hm => ?_, fun hn => (ih _ h).2 (Option.map_eq_none_iff.mp hn)⟩
        obtain ⟨ns, hns, rfl⟩ := Option.map_eq_some_iff.mp hm
        exact congrArg (after [.reference body.reverse]) ((ih _ h).1 ns hns)
      | false =>
        rw [contentMode, List.cons_append, contentFrom, hc]
        -- a second ampersand finds the reference in front of it still open
        cases ha : c == '&' with
        | true =>
          have hs : Scan.step ⟨.reference body, names⟩ c = .error .referenceNotClosed := by
            simp [Scan.step, hc, ha]
          rw [scan, hs]
          exact ⟨nofun, fun _ => rfl⟩
        | false =>
          have hs : Scan.step ⟨.reference body, names⟩ c =
              .ok (⟨.reference (c :: body), names⟩, []) := by
            simp [Scan.step, hc, ha, hlt]
          rw [scan_of_step hs]
          exact ih _ h

end Stream

end TaggedSum.Xml
