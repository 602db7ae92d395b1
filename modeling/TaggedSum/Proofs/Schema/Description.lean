import TaggedSum.Proofs.Schema.Details
import TaggedSum.Proofs.Schema.Tree
import TaggedSum.Proofs.Schema.Trimmed
import TaggedSum.Proofs.Xml.Content

namespace TaggedSum

open Outcome

namespace Element

open Xml (Event Tag)

section Field

variable {t t' : Tag} {as bs : List Xml.Attribute} {vs : List (String × String)} {f : Field}
  {raw : List Char}

theorem fieldValues_append (as bs : List Xml.Attribute) : fieldValues (as ++ bs) =
    fieldValues as >>= fun us => (fieldValues bs).map (us ++ ·) := by
  induction as with
  | nil => cases hb : fieldValues bs <;> simp [fieldValues, hb]
  | cons a as ih =>
    simp only [List.cons_append, fieldValues, ih]
    cases value a with
    | error e => rfl
    | ok v =>
      simp only [ok_bind]
      split
      · rfl
      · cases fieldValues as <;> cases fieldValues bs <;> rfl

theorem fieldValues_append_eq_ok : fieldValues (as ++ bs) = .ok vs ↔
    ∃ us, fieldValues as = .ok us ∧ ∃ ws, fieldValues bs = .ok ws ∧ us ++ ws = vs := by
  rw [fieldValues_append, bind_eq_ok]
  simp only [map_eq_ok]

theorem fieldValues_description_eq_ok :
    fieldValues (⟨"description", raw⟩ :: bs) = .ok vs ↔
      ∃ v, Xml.Attribute.value ⟨"description", raw⟩ = .ok v ∧
        ∃ ws, fieldValues bs = .ok ws ∧ ("description", v) :: ws = vs := by
  simp [fieldValues, bind_eq_ok, value_eq_ok]

theorem field_eq_ok_iff : field t = .ok f ↔ ∃ vs, fieldValues t.attributes = .ok vs ∧
    (Members.get? "type" vs).bind FieldType.ofText? = some f.type ∧
    Members.get? "name" vs = f.name ∧ Members.get? "description" vs = f.docs := by
  rw [field, bind_eq_ok]
  refine exists_congr fun vs => and_congr_right fun _ => ?_
  obtain ⟨name, type, docs⟩ := f
  cases (Members.get? "type" vs).bind FieldType.ofText? with
  | none => simp
  | some type' => simp [and_left_comm]

theorem get?_fieldValues {name : String} (h : fieldValues as = .ok vs)
    (hn : name ∉ as.map (·.name)) : Members.get? name vs = none := by
  rwa [Members.get?_eq_none_iff, names_values (values_of_fieldValues h)]

theorem not_mem_names (ha : t.attributes = as ++ ⟨"description", raw⟩ :: bs) :
    "description" ∉ as.map (·.name) ∧ "description" ∉ bs.map (·.name) := by
  have hnodup := nodup_attributes t
  rw [ha, List.map_append, List.map_cons, List.nodup_append] at hnodup
  exact ⟨fun hm => hnodup.2.2 _ hm _ List.mem_cons_self rfl, (List.nodup_cons.mp hnodup.2.1).1⟩

/-- An attribute more, which is the description. -/
theorem field_described (ha : t.attributes = as ++ ⟨"description", raw⟩ :: bs)
    (ha' : t'.attributes = as ++ bs) : field t = .ok f ↔ ∃ f' v, field t' = .ok f' ∧
      Xml.Attribute.value ⟨"description", raw⟩ = .ok v ∧ f = { f' with docs := some v } := by
  obtain ⟨has, hbs⟩ := not_mem_names ha
  simp only [field_eq_ok_iff, ha, ha', fieldValues_append_eq_ok, fieldValues_description_eq_ok]
  constructor
  · rintro ⟨_, ⟨us, hus, _, ⟨v, hv, ws, hws, rfl⟩, rfl⟩, htype, hname, hdocs⟩
    have hn := get?_fieldValues hus has
    simp only [Members.get?_append, Members.get?, hn] at htype hname hdocs
    refine ⟨⟨f.name, f.type, none⟩, v, ⟨us ++ ws, ⟨us, hus, ws, hws, rfl⟩, ?_, ?_, ?_⟩, hv, ?_⟩
    · simpa [Members.get?_append] using htype
    · simpa [Members.get?_append] using hname
    · simp [Members.get?_append, hn, get?_fieldValues hws hbs]
    · obtain ⟨name, type, docs⟩ := f
      simpa [eq_comm] using hdocs
  · rintro ⟨f', v, ⟨_, ⟨us, hus, ws, hws, rfl⟩, htype, hname, -⟩, hv, rfl⟩
    have hn := get?_fieldValues hus has
    refine ⟨_, ⟨us, hus, _, ⟨v, hv, ws, hws, rfl⟩, rfl⟩, ?_, ?_, ?_⟩
    · simpa [Members.get?_append, Members.get?] using htype
    · simpa [Members.get?_append, Members.get?] using hname
    · simp [Members.get?_append, Members.get?, hn]

theorem docs_of_field (has : "description" ∉ as.map (·.name))
    (hbs : "description" ∉ bs.map (·.name)) (ha : t.attributes = as ++ bs)
    (h : field t = .ok f) : f.docs = none := by
  obtain ⟨vs, hvs, -, -, hdocs⟩ := field_eq_ok_iff.mp h
  rw [← hdocs]
  refine get?_fieldValues hvs ?_
  rw [ha, List.map_append, List.mem_append]
  exact not_or.mpr ⟨has, hbs⟩

theorem trimmed_describe (hf : f.docs = none) (cs : List Char) :
    ({ f with docs := some (.ofList cs) } : Field).trimmed = (describe f cs.reverse).trimmed := by
  obtain ⟨name, type, docs⟩ := f
  obtain rfl := hf
  by_cases hc : Text.trim cs = []
  · simp [describe, Field.trimmed, hc]
  · simp [describe, Field.trimmed, hc, Text.trimmed, FieldType.trim_trim]

end Field

section Run

open Xml.Node (elements eventsOf meaning?)

variable {s s' : State} {t : Tag} {es : List Event} {ns : List Xml.Node}

/-- The state behind one more field. -/
def State.filled (s : State) (owner : Owner) (fields : List Field) (f : Field) : State :=
  ⟨s.schema, .payload owner (fields ++ [f])⟩

theorem step_field_eq_ok (hs : s.place.inField = false) (hn : t.name = "field") :
    s.step (.start t) = .ok s' ↔ ∃ owner fields f, s.place = .payload owner fields ∧
      field t = .ok f ∧ s' = ⟨s.schema, .text owner fields f []⟩ := by
  obtain ⟨sc, place⟩ := s
  cases place with
  | document => cases sc <;> simp [State.step, State.openTop, hn]
  | enum e => simp [State.step, State.openVariant, hn]
  | payload owner fields =>
    simp only [State.step, State.openField, if_pos hn, bind_eq_ok, if_true, pure_def,
      Except.ok.injEq]
    constructor
    · rintro ⟨f, hf, rfl⟩
      exact ⟨owner, fields, f, rfl, hf, rfl⟩
    · rintro ⟨_, _, f, hp, hf, rfl⟩
      cases hp
      exact ⟨f, hf, rfl⟩
  | text owner fields f cs => cases hs

theorem step_stop (s : State) (owner : Owner) (fields : List Field) (f : Field) (cs : List Char) :
    State.step ⟨s.schema, .text owner fields f cs⟩ .stop =
      .ok (s.filled owner fields (describe f cs)) := rfl

theorem run_attribute_eq_ok (hs : s.place.inField = false) (hn : t.name = "field")
    (hes : es = [.empty t] ∨ es = [.start t, .stop]) :
    es.foldlM State.step s = .ok s' ↔ ∃ owner fields f, s.place = .payload owner fields ∧
      field t = .ok f ∧ s' = s.filled owner fields f := by
  have hrun : es.foldlM State.step s = s.step (.start t) >>= (·.step .stop) := by
    obtain rfl | rfl := hes
    · simp [State.step_empty hs, bind_ok]
    · simp [bind_ok]
  rw [hrun, bind_eq_ok]
  simp only [step_field_eq_ok hs hn]
  constructor
  · rintro ⟨_, ⟨owner, fields, f, hp, hf, rfl⟩, h⟩
    rw [step_stop, describe_nil] at h
    exact ⟨owner, fields, f, hp, hf, (Except.ok.inj h).symm⟩
  · rintro ⟨owner, fields, f, hp, hf, rfl⟩
    exact ⟨_, ⟨owner, fields, f, hp, hf, rfl⟩, by rw [step_stop, describe_nil]⟩

theorem text_eq_ok_iff {cs : List Char} (h : elements ns = []) :
    Tree.text ns = .ok cs ↔ ns.mapM meaning? = some cs := by
  induction ns generalizing cs with
  | nil => simp [Tree.text, eq_comm]
  | cons n ns ih =>
    cases n with
    | char c =>
      simp only [Tree.text, bind_eq_ok, ih h, List.mapM_cons, meaning?]
      cases ns.mapM meaning? <;> simp
    | reference body =>
      simp only [Tree.text, List.mapM_cons, meaning?]
      cases Xml.textReference? body with
      | none => simp
      | some c =>
        simp only [bind_eq_ok, ih h]
        cases ns.mapM meaning? <;> simp
    | leaf t => cases h
    | element t content => cases h

theorem run_text_eq_ok (hs : s.place.inField = false) (hn : t.name = "field")
    (hns : elements ns = []) :
    (.start t :: (eventsOf ns ++ [.stop])).foldlM State.step s = .ok s' ↔
      ∃ owner fields f cs, s.place = .payload owner fields ∧ field t = .ok f ∧
        ns.mapM meaning? = some cs ∧ s' = s.filled owner fields (describe f cs.reverse) := by
  simp only [List.foldlM_cons, List.foldlM_append, List.foldlM_nil, bind_eq_ok,
    step_field_eq_ok hs hn]
  constructor
  · rintro ⟨_, ⟨owner, fields, f, hp, hf, rfl⟩, _, h, _, hstop, h'⟩
    rw [Tree.foldlM_text hns, map_eq_ok] at h
    obtain ⟨cs, hcs, rfl⟩ := h
    cases hstop
    cases h'
    refine ⟨owner, fields, f, cs, hp, hf, (text_eq_ok_iff hns).mp hcs, ?_⟩
    rw [List.append_nil]
    rfl
  · rintro ⟨owner, fields, f, cs, hp, hf, hcs, rfl⟩
    have hstop := step_stop s owner fields f cs.reverse
    refine ⟨_, ⟨owner, fields, f, hp, hf, rfl⟩, _, ?_, _, hstop, rfl⟩
    rw [Tree.foldlM_text hns, (text_eq_ok_iff hns).mpr hcs, map_ok, List.append_nil]

end Run

section Document

open Xml (Scan bodies Lenient)
open Xml.Node (content? references meaning? Strict)

/-- A place in a document that is in no markup and in no field. -/
structure Site where
  before : String
  after : String
  names : List (List Char)
  events : List Event
  begun : before ≠ ""
  run_eq : Scan.start.run (Xml.Stream.withoutMark before.toList) = .ok (⟨.text, names⟩, events)
  outside : ∀ s, events.foldlM State.step .start = .ok s → s.place.inField = false

/-- The document with an element there. -/
def Site.text (d : Site) (element : String) : String := d.before ++ element ++ d.after

/-- A field with its description, as it is written, in an attribute, and the same field with the
description for its text. -/
inductive Describes (names : List (List Char)) (raw : String) : String → String → Prop
  | intro {tagged opening : String} {t t' : Tag} {es : List Event} {as bs : List Xml.Attribute}
      (ht : Scan.Reads names tagged.toList es names)
      (hes : es = [.empty t] ∨ es = [.start t, .stop])
      (ho : Scan.Reads names opening.toList [.start t'] ("field".toList :: names))
      (hn : t.name = "field") (hn' : t'.name = "field")
      (ha : t.attributes = as ++ ⟨"description", raw.toList⟩ :: bs)
      (ha' : t'.attributes = as ++ bs) (hr : '<' ∉ raw.toList) :
    Describes names raw tagged (opening ++ raw ++ "</field>")

/-- The schema is loaded with the attribute if it is loaded with the text, and no reference is one
that only text takes; it is then the same but for the white space around descriptions. -/
structure Moved (raw attributed described : String) : Prop where
  loaded_iff : (∃ s, Schema.ofXml attributed = .ok s) ↔
    (∃ s, Schema.ofXml described = .ok s) ∧ ∀ body ∈ bodies raw.toList, ¬Lenient body
  trimmed_eq : ∀ s s', Schema.ofXml attributed = .ok s → Schema.ofXml described = .ok s' →
    s.trimmed = s'.trimmed

section Moved

variable {d : Site} {raw element tagged : String} {t : Tag} {as bs : List Xml.Attribute}
  {es : List Event} {x : Xml.Stream}

theorem load_after (s : State) (es : List Event) (x : Xml.Stream) :
    load s (.after es x) = es.foldlM State.step s >>= fun s => load s x := by
  rw [load, Xml.Stream.after, List.foldlM_append]
  cases es.foldlM State.step s <;> rfl

theorem reads_end (names : List (List Char)) :
    Scan.Reads ("field".toList :: names) "</field>".toList [.stop] names := by
  rfl

theorem Site.ofText_text (d : Site) (element : String) : Xml.Stream.ofText (d.text element) =
    .after d.events (.scan ⟨.text, d.names⟩ (element.toList ++ d.after.toList)) := by
  have hmark : Xml.Stream.withoutMark (d.text element).toList =
      Xml.Stream.withoutMark d.before.toList ++ (element.toList ++ d.after.toList) := by
    rw [text, String.toList_append, String.toList_append, List.append_assoc,
      Xml.Stream.withoutMark_append (String.toList_eq_nil_iff.not.mpr d.begun)]
  rw [Xml.Stream.ofText, hmark, Xml.Stream.scan_append d.run_eq]

theorem Site.ofXml_eq_ok (sc : Schema)
    (h : Xml.Stream.scan ⟨.text, d.names⟩ (element.toList ++ d.after.toList) = .after es x) :
    Schema.ofXml (d.text element) = .ok sc ↔ ∃ s, d.events.foldlM State.step .start = .ok s ∧
      ∃ s', es.foldlM State.step s = .ok s' ∧ load s' x = .ok sc := by
  have hload : Schema.ofXml (d.text element) = load .start (.after d.events (.after es x)) := by
    rw [Schema.ofXml, d.ofText_text, h]
    rfl
  simp only [hload, load_after, bind_eq_ok]

/-- What the text with the attribute is loaded as. -/
theorem loaded_attribute_iff (sc : Schema) (ht : Scan.Reads d.names tagged.toList es d.names)
    (hes : es = [.empty t] ∨ es = [.start t, .stop]) (hn : t.name = "field")
    (ha : t.attributes = as ++ ⟨"description", raw.toList⟩ :: bs) {t' : Tag}
    (ha' : t'.attributes = as ++ bs) :
    Schema.ofXml (d.text tagged) = .ok sc ↔
      ∃ s owner fields f ns cs, d.events.foldlM State.step .start = .ok s ∧
        s.place = .payload owner fields ∧ field t' = .ok f ∧ content? raw.toList = some ns ∧
        Strict ns cs ∧ load (s.filled owner fields { f with docs := some (.ofList cs) })
          (.scan ⟨.text, d.names⟩ d.after.toList) = .ok sc := by
  rw [d.ofXml_eq_ok sc (Xml.Stream.scan_append ht d.after.toList)]
  constructor
  · rintro ⟨s, hs, s', hs', hl⟩
    obtain ⟨owner, fields, _, hp, hg, rfl⟩ := (run_attribute_eq_ok (d.outside s hs) hn hes).mp hs'
    obtain ⟨f, v, hf, hv, rfl⟩ := (field_described ha ha').mp hg
    obtain ⟨ns, cs, hns, hcs, rfl⟩ := Xml.value_eq_ok_iff.mp hv
    exact ⟨s, owner, fields, f, ns, cs, hs, hp, hf, hns, hcs, hl⟩
  · rintro ⟨s, owner, fields, f, ns, cs, hs, hp, hf, hns, hcs, hl⟩
    have hv : Xml.Attribute.value ⟨"description", raw.toList⟩ = .ok (.ofList cs) :=
      Xml.value_eq_ok_iff.mpr ⟨ns, cs, hns, hcs, rfl⟩
    have hg := (field_described ha ha').mpr ⟨f, _, hf, hv, rfl⟩
    exact ⟨s, hs, _, (run_attribute_eq_ok (d.outside s hs) hn hes).mpr
      ⟨owner, fields, _, hp, hg, rfl⟩, hl⟩

/-- What the text with the description for its text is loaded as. -/
theorem loaded_text_iff (sc : Schema) {opening : String}
    (ho : Scan.Reads d.names opening.toList [.start t] ("field".toList :: d.names))
    (hn : t.name = "field") (hr : '<' ∉ raw.toList) :
    Schema.ofXml (d.text (opening ++ raw ++ "</field>")) = .ok sc ↔
      ∃ s owner fields f ns cs, d.events.foldlM State.step .start = .ok s ∧
        s.place = .payload owner fields ∧ field t = .ok f ∧ content? raw.toList = some ns ∧
        ns.mapM meaning? = some cs ∧ load (s.filled owner fields (describe f cs.reverse))
          (.scan ⟨.text, d.names⟩ d.after.toList) = .ok sc := by
  -- the scanner meets the start tag, the content and the end tag in turn
  have hscan : Xml.Stream.scan ⟨.text, d.names⟩
      ((opening ++ raw ++ "</field>").toList ++ d.after.toList) =
        .after [.start t] (.scan ⟨.text, "field".toList :: d.names⟩
          (raw.toList ++ '<' :: ("/field>".toList ++ d.after.toList))) := by
    rw [String.toList_append, String.toList_append, List.append_assoc, List.append_assoc,
      Xml.Stream.scan_append ho]
    rfl
  have hend : Xml.Stream.scan ⟨.text, "field".toList :: d.names⟩
      ('<' :: ("/field>".toList ++ d.after.toList)) =
        .after [.stop] (.scan ⟨.text, d.names⟩ d.after.toList) :=
    Xml.Stream.scan_append (reads_end d.names) d.after.toList
  obtain ⟨hclosed, hopen⟩ := Xml.Stream.scan_content ("field".toList :: d.names) none hr
    ("/field>".toList ++ d.after.toList)
  cases hns : content? raw.toList with
  -- no text with a fault is loaded
  | none =>
    refine iff_of_false (fun h => ?_) (by simp)
    rw [d.ofXml_eq_ok sc hscan] at h
    obtain ⟨s, hs, s', hs', hl⟩ := h
    exact absurd ((load_eq_ok.mp hl).1.symm.trans (hopen hns)) nofun
  | some ns =>
    have hcontent : Xml.Stream.scan ⟨.text, "field".toList :: d.names⟩
        (raw.toList ++ '<' :: ("/field>".toList ++ d.after.toList)) = _ := hclosed ns hns
    rw [hcontent, hend, Xml.Stream.after_after, Xml.Stream.after_after] at hscan
    rw [d.ofXml_eq_ok sc hscan]
    have hel := Xml.Node.elements_contentFrom hns
    constructor
    · rintro ⟨s, hs, s', hs', hl⟩
      obtain ⟨owner, fields, f, cs, hp, hf, hcs, rfl⟩ :=
        (run_text_eq_ok (d.outside s hs) hn hel).mp hs'
      exact ⟨s, owner, fields, f, ns, cs, hs, hp, hf, rfl, hcs, hl⟩
    · rintro ⟨s, owner, fields, f, _, cs, hs, hp, hf, h, hcs, hl⟩
      cases h
      exact ⟨s, hs, _, (run_text_eq_ok (d.outside s hs) hn hel).mpr
        ⟨owner, fields, f, cs, hp, hf, hcs, rfl⟩, hl⟩

theorem trimmed_filled {f g : Field} (h : f.trimmed = g.trimmed) (s : State) (owner : Owner)
    (fields : List Field) :
    (s.filled owner fields f).trimmed = (s.filled owner fields g).trimmed := by
  simp [State.filled, State.trimmed, Place.trimmed, h]

theorem bodies_eq {ns : List Xml.Node} (h : content? raw.toList = some ns) :
    bodies raw.toList = references ns := by
  rw [bodies, h, Option.elim_some]

theorem moved_of_describes {described : String} (h : Describes d.names raw tagged described) :
    Moved raw (d.text tagged) (d.text described) := by
  obtain ⟨ht, hes, ho, hn, hn', ha, ha', hr⟩ := h
  obtain ⟨has, hbs⟩ := not_mem_names ha
  have hattribute := fun sc => loaded_attribute_iff sc ht hes hn ha ha'
  have htext := fun sc => loaded_text_iff sc ho hn' hr
  refine ⟨⟨?_, ?_⟩, ?_⟩
  · rintro ⟨sc, h⟩
    obtain ⟨s, owner, fields, f, ns, cs, hs, hp, hf, hns, hcs, hl⟩ := (hattribute sc).mp h
    -- the fields loaded differ in white space around their descriptions at most
    have hdocs := trimmed_describe (docs_of_field has hbs ha' hf) cs
    obtain ⟨sc', hl', -⟩ := exists_load_trimmed (trimmed_filled hdocs s owner fields) hl
    exact ⟨⟨sc', (htext sc').mpr ⟨s, owner, fields, f, ns, cs, hs, hp, hf, hns, hcs.1, hl'⟩⟩,
      bodies_eq hns ▸ hcs.2⟩
  · rintro ⟨⟨sc, h⟩, hb⟩
    obtain ⟨s, owner, fields, f, ns, cs, hs, hp, hf, hns, hcs, hl⟩ := (htext sc).mp h
    have hdocs := trimmed_describe (docs_of_field has hbs ha' hf) cs
    obtain ⟨sc', hl', -⟩ := exists_load_trimmed (trimmed_filled hdocs.symm s owner fields) hl
    exact ⟨sc', (hattribute sc').mpr
      ⟨s, owner, fields, f, ns, cs, hs, hp, hf, hns, ⟨hcs, bodies_eq hns ▸ hb⟩, hl'⟩⟩
  · intro sc sc' h h'
    obtain ⟨s, owner, fields, f, ns, cs, hs, hp, hf, hns, hcs, hl⟩ := (hattribute sc).mp h
    obtain ⟨s', owner', fields', f', ns', cs', hs', hp', hf', hns', hcs', hl'⟩ :=
      (htext sc').mp h'
    obtain rfl := Except.ok.inj (hs.symm.trans hs')
    obtain ⟨rfl, rfl⟩ := Place.payload.inj (hp.symm.trans hp')
    obtain rfl := Except.ok.inj (hf.symm.trans hf')
    obtain rfl := Option.some.inj (hns.symm.trans hns')
    obtain rfl := Option.some.inj (hcs.1.symm.trans hcs')
    have hdocs := trimmed_describe (docs_of_field has hbs ha' hf) cs
    obtain ⟨sc'', hl'', he⟩ := exists_load_trimmed (trimmed_filled hdocs s owner fields) hl
    obtain rfl := Except.ok.inj (hl'.symm.trans hl'')
    exact he

end Moved

/-- A reference has the same character in values and in text, unless it is one that only text takes,
and with this exception it makes no difference where a description stands. -/
theorem references_agree (body : List Char) (d : Site) :
    (∀ start c, Xml.Attribute.resolve start body = .ok c ↔
      Xml.textReference? body = some c ∧ ¬Lenient body) ∧
    (';' ∉ body → '&' ∉ body → ∀ name c,
      (Xml.Attribute.value ⟨name, '&' :: (body ++ [';'])⟩ = .ok (.singleton c) ↔
        Xml.textReference? body = some c ∧ ¬Lenient body)) ∧
    ∀ raw tagged described : String, Describes d.names raw tagged described →
      Moved raw (d.text tagged) (d.text described) :=
  ⟨fun _ _ => Xml.Attribute.resolve_eq_ok_iff,
    fun hs ha _ _ => Xml.value_reference_eq_ok_iff hs ha, fun _ _ _ => moved_of_describes⟩

end Document

namespace Notes

def before : String := "<sumSchema package='p'><struct name='S'>"

def owner : Owner := .struct ⟨"S", none, []⟩

def names : List (List Char) := ["struct".toList, "sumSchema".toList]

def events : List Event :=
  [.start ⟨"sumSchema", " package='p'".toList⟩, .start ⟨"struct", " name='S'".toList⟩]

theorem run_before : Xml.Scan.start.run (Xml.Stream.withoutMark before.toList) =
    .ok (⟨.text, names⟩, events) := by
  decide +kernel

theorem run_events : events.foldlM State.step .start =
    .ok ⟨some (.ofDefinitions "p" none []), .payload owner []⟩ := by
  decide +kernel

/-- Where the one field stands, which is described by an attribute or by its text. -/
def site : Site where
  before := before
  after := "</struct></sumSchema>"
  names := names
  events := events
  begun := by decide
  run_eq := run_before
  outside s hs := by
    obtain rfl := Except.ok.inj (run_events.symm.trans hs)
    rfl

def opening : String := "<field type='u8'>"

def attributed (raw : String) : String := "<field type='u8' description='" ++ raw ++ "'/>"

def described (raw : String) : String := opening ++ raw ++ "</field>"

def schema (docs : String) : Schema :=
  .ofDefinitions "p" none [.struct ⟨"S", none, [⟨none, .unsigned .w8, some docs⟩]⟩]

/-- Blanks, letters by number in either radix, and a named entity. -/
def mixed : String := " &#65; &lt; &#x42;"

theorem describes (raw : String) (hr : '<' ∉ raw.toList)
    (ht : Xml.Scan.Reads names (attributed raw).toList
      [.empty ⟨"field", (" type='u8' description='" ++ raw ++ "'").toList⟩] names)
    (ha : Tag.attributes ⟨"field", (" type='u8' description='" ++ raw ++ "'").toList⟩ =
      [⟨"type", "u8".toList⟩, ⟨"description", raw.toList⟩]) :
    Describes site.names raw (attributed raw) (described raw) := by
  have ho : Xml.Scan.Reads names opening.toList [.start ⟨"field", " type='u8'".toList⟩]
      ("field".toList :: names) := by
    rw [Xml.Scan.Reads]
    decide +kernel
  have ha' : Tag.attributes ⟨"field", " type='u8'".toList⟩ = [⟨"type", "u8".toList⟩] ++ [] := by
    decide +kernel
  exact .intro ht (.inl rfl) ho rfl rfl ha ha' hr

theorem describes_mixed : Describes site.names mixed (attributed mixed) (described mixed) := by
  refine describes mixed (by decide) ?_ (by decide +kernel)
  rw [Xml.Scan.Reads]
  decide +kernel

end Notes

theorem references_agree_mixed :
    Xml.Attribute.resolve 0 ['#', 'x', '4', '2'] = .ok 'B' ∧
      Describes Notes.site.names Notes.mixed (Notes.attributed Notes.mixed)
        (Notes.described Notes.mixed) ∧
      Schema.ofXml (Notes.site.text (Notes.attributed Notes.mixed)) =
        .ok (Notes.schema " A < B") ∧
      ∃ s, Schema.ofXml (Notes.site.text (Notes.described Notes.mixed)) = .ok s ∧
        s.trimmed = (Notes.schema " A < B").trimmed := by
  obtain ⟨hresolve, -, hmoved⟩ := references_agree ['#', 'x', '4', '2'] Notes.site
  have hm := hmoved _ _ _ Notes.describes_mixed
  have hl : Schema.ofXml (Notes.site.text (Notes.attributed Notes.mixed)) =
      .ok (Notes.schema " A < B") := by
    decide +kernel
  obtain ⟨⟨s, hs⟩, -⟩ := hm.loaded_iff.mp ⟨_, hl⟩
  have hb : ¬Xml.Lenient ['#', 'x', '4', '2'] := by simp [Xml.Lenient, Xml.radix]
  exact ⟨(hresolve 0 'B').mpr ⟨by decide +kernel, hb⟩, Notes.describes_mixed, hl, s, hs,
    (hm.trimmed_eq _ _ hl hs).symm⟩

/-- A number with a sign and the number zero are characters in text, and faults in a value. -/
theorem references_disagree :
    Xml.textReference? "#+65".toList = some 'A' ∧
      Xml.Attribute.resolve 0 "#+65".toList = .error .sign ∧
      Xml.textReference? "#0".toList = some (.ofNat 0) ∧
      Xml.Attribute.resolve 0 "#0".toList = .error .zero ∧
      Schema.ofXml (Notes.site.text (Notes.described "&#+65;")) = .ok (Notes.schema "A") ∧
      Schema.ofXml (Notes.site.text (Notes.attributed "&#+65;")) =
        .error (.xml (.value .sign)) := by
  decide +kernel

end Element

end TaggedSum
