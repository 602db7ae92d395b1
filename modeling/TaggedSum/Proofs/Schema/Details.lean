import TaggedSum.Proofs.Members
import TaggedSum.Proofs.Schema.Element
import TaggedSum.Proofs.Xml.Attribute
import TaggedSum.Proofs.Xml.Opened

namespace TaggedSum

open Xml (Attribute Event Tag Written)
open Outcome

/-- What the attributes of an element may say. -/
inductive Details where
  | schema (package : String) (description : Option String)
  | enum (name : String) (docs : Option String)
  | struct (name : String) (docs : Option String)
  | variant (name : String) (tag docs : Option String)
  | field (name : Option String) (type : FieldType) (docs : Option String)

namespace Details

def element : Details → String
  | schema _ _ => "sumSchema"
  | enum _ _ => "enum"
  | struct _ _ => "struct"
  | variant _ _ _ => "variant"
  | field _ _ _ => "field"

/-- The values that the attributes of a name have are this one, or none. -/
def Says (as : List Attribute) (name : String) (o : Option String) : Prop :=
  ∀ v, (∃ a ∈ as, a.name = name ∧ a.value = .ok v) ↔ o = some v

/-- Every attribute that is made use of is kept. The description of a field may come from elsewhere
if there is no attribute for it. -/
def Keeps (as : List Attribute) : Details → Prop
  | schema package description =>
    Says as "package" (some package) ∧ Says as "description" description
  | enum name docs => Says as "name" (some name) ∧ Says as "description" docs
  | struct name docs => Says as "name" (some name) ∧ Says as "description" docs
  | variant name tag docs =>
    Says as "name" (some name) ∧ Says as "tag" tag ∧ Says as "description" docs
  | field name type docs =>
    Says as "name" name ∧ (∃ v, FieldType.ofText? v = some type ∧ Says as "type" (some v)) ∧
      ∃ o, Says as "description" o ∧ ∀ v, o = some v → docs = some v

/-- The details are those of a tag with these attributes, all of which have values. -/
structure Of (t : Tag) (as : List Attribute) (d : Details) : Prop where
  element : t.name = d.element
  readable : ∀ a ∈ as, ∃ v, a.value = .ok v
  keeps : Keeps as d

end Details

def Field.details (f : Field) : Details := .field f.name f.type f.docs

def Variant.details (v : Variant) : List Details :=
  .variant v.name v.tag v.docs :: v.fields.map Field.details

def Enum.details (e : Enum) : List Details :=
  .enum e.name e.docs :: e.variants.flatMap Variant.details

def Struct.details (s : Struct) : List Details :=
  .struct s.name s.docs :: s.fields.map Field.details

def Definition.details : Definition → List Details
  | enum e => e.details
  | struct s => s.details

def Schema.details (s : Schema) : List Details :=
  .schema s.package s.description :: s.definitions.flatMap Definition.details

namespace Element

section Tags

variable {t : Tag} {as : List Attribute} {vs : List (String × String)} {name : String}

theorem value_eq_ok {a : Attribute} {v : String} : value a = .ok v ↔ a.value = .ok v :=
  mapError_eq_ok

theorem names_values (h : values as = .ok vs) : Members.names vs = as.map (·.name) := by
  induction as generalizing vs with
  | nil =>
    cases h
    rfl
  | cons a as ih =>
    obtain ⟨v, -, h⟩ := bind_eq_ok.mp h
    obtain ⟨vs, hvs, h⟩ := bind_eq_ok.mp h
    cases h
    exact congrArg (a.name :: ·) (ih hvs)

theorem readable_of_values (h : values as = .ok vs) : ∀ a ∈ as, ∃ v, a.value = .ok v := by
  induction as generalizing vs with
  | nil => exact List.forall_mem_nil _
  | cons a as ih =>
    obtain ⟨v, hv, h⟩ := bind_eq_ok.mp h
    obtain ⟨vs, hvs, -⟩ := bind_eq_ok.mp h
    exact List.forall_mem_cons.mpr ⟨⟨v, value_eq_ok.mp hv⟩, ih hvs⟩

theorem mem_values (h : values as = .ok vs) {v : String} :
    (name, v) ∈ vs ↔ ∃ a ∈ as, a.name = name ∧ a.value = .ok v := by
  induction as generalizing vs with
  | nil =>
    cases h
    simp
  | cons a as ih =>
    obtain ⟨w, hw, h⟩ := bind_eq_ok.mp h
    obtain ⟨vs, hvs, h⟩ := bind_eq_ok.mp h
    cases h
    simp only [List.mem_cons, exists_eq_or_imp, ih hvs, value_eq_ok.mp hw, Prod.mk.injEq,
      Except.ok.injEq]
    exact or_congr_left (and_congr eq_comm eq_comm)

theorem says_of_values (hn : (as.map (·.name)).Nodup) (h : values as = .ok vs) (name : String) :
    Details.Says as name (Members.get? name vs) := by
  intro v
  rw [← names_values h] at hn
  rw [← mem_values h]
  exact ⟨Members.get?_of_mem hn, Members.mem_of_get?⟩

theorem required_eq_ok {element v : String} (h : required element name vs = .ok v) :
    Members.get? name vs = some v := by
  simp only [required] at h
  split at h
  · cases h
    assumption
  · cases h

/-- The types are judged on the way, but the values are the same. -/
theorem values_of_fieldValues (h : fieldValues as = .ok vs) : values as = .ok vs := by
  induction as generalizing vs with
  | nil => exact h
  | cons a as ih =>
    obtain ⟨v, hv, h⟩ := bind_eq_ok.mp h
    split at h
    · cases h
    · obtain ⟨vs, hvs, h⟩ := bind_eq_ok.mp h
      cases h
      simp [values, hv, ih hvs]

/-- Attributes that are found have different names. -/
theorem nodup_attributes (t : Tag) : (t.attributes.map (·.name)).Nodup :=
  t.written_tidy.nodup

theorem details_schema {s : Schema} (hn : t.name = "sumSchema") (h : schema t = .ok s) :
    Details.Of t t.attributes (.schema s.package s.description) := by
  obtain ⟨vs, hvs, h⟩ := bind_eq_ok.mp h
  obtain ⟨package, hp, h⟩ := bind_eq_ok.mp h
  cases h
  have hs := says_of_values (nodup_attributes t) hvs
  exact ⟨hn, readable_of_values hvs, required_eq_ok hp ▸ hs "package", hs "description"⟩

theorem details_enum {e : Enum} (hn : t.name = "enum") (h : enum t = .ok e) :
    Details.Of t t.attributes (.enum e.name e.docs) := by
  obtain ⟨vs, hvs, h⟩ := bind_eq_ok.mp h
  obtain ⟨name, hp, h⟩ := bind_eq_ok.mp h
  cases h
  have hs := says_of_values (nodup_attributes t) hvs
  exact ⟨hn, readable_of_values hvs, required_eq_ok hp ▸ hs "name", hs "description"⟩

theorem details_struct {s : Struct} (hn : t.name = "struct") (h : struct t = .ok s) :
    Details.Of t t.attributes (.struct s.name s.docs) := by
  obtain ⟨vs, hvs, h⟩ := bind_eq_ok.mp h
  obtain ⟨name, hp, h⟩ := bind_eq_ok.mp h
  cases h
  have hs := says_of_values (nodup_attributes t) hvs
  exact ⟨hn, readable_of_values hvs, required_eq_ok hp ▸ hs "name", hs "description"⟩

theorem details_variant {v : Variant} (hn : t.name = "variant") (h : variant t = .ok v) :
    Details.Of t t.attributes (.variant v.name v.tag v.docs) := by
  obtain ⟨vs, hvs, h⟩ := bind_eq_ok.mp h
  obtain ⟨name, hp, h⟩ := bind_eq_ok.mp h
  cases h
  have hs := says_of_values (nodup_attributes t) hvs
  exact ⟨hn, readable_of_values hvs, required_eq_ok hp ▸ hs "name", hs "tag", hs "description"⟩

theorem details_field {f : Field} (hn : t.name = "field") (h : field t = .ok f) :
    Details.Of t t.attributes f.details := by
  obtain ⟨vs, hvs, h⟩ := bind_eq_ok.mp h
  have hvs := values_of_fieldValues hvs
  have hs := says_of_values (nodup_attributes t) hvs
  split at h
  · rename_i type htype
    obtain ⟨v, hv, htype⟩ := Option.bind_eq_some_iff.mp htype
    cases h
    exact ⟨hn, readable_of_values hvs, hs "name", ⟨v, htype, hv ▸ hs "type"⟩,
      _, hs "description", fun _ => id⟩
  · cases h

/-- The text of a field takes the place of a description that is absent. -/
theorem details_describe {f : Field} {as : List Attribute} (h : Details.Of t as f.details)
    (cs : List Char) : Details.Of t as (describe f cs).details := by
  simp only [describe]
  split
  · exact h
  · rename_i hd
    have hf : f.docs = none := by
      cases hd' : f.docs with
      | none => rfl
      | some v => simp [hd'] at hd
    obtain ⟨hn, hr, hname, htype, o, ho, hdocs⟩ := h
    refine ⟨hn, hr, hname, htype, o, ho, fun v hv => ?_⟩
    cases hf.symm.trans (hdocs v hv)

end Tags

/-- Whether the reader is in a field behind an event. -/
def entersField (inField : Bool) : Event → Bool
  | .start t => inField || t.name == "field"
  | .stop => false
  | _ => inField

/-- The tags of a text that are read: all but those within fields. -/
def tagsRead (inField : Bool) : List Event → List Tag
  | [] => []
  | e :: es => (if inField then none else e.tag?).toList ++ tagsRead (entersField inField e) es

def ownerDetails : Owner → List Details
  | .variant e v => e.details ++ [.variant v.name v.tag v.docs]
  | .struct s => [.struct s.name s.docs]

def Place.details : Place → List Details
  | .document => []
  | .enum e => e.details
  | .payload owner fields => ownerDetails owner ++ fields.map Field.details
  | .text owner fields f _ => ownerDetails owner ++ fields.map Field.details ++ [f.details]

namespace State

variable {s s' : State} {ts : List Tag}

/-- The details of what has been read so far. -/
def details (s : State) : List Details := (s.schema.elim [] Schema.details) ++ s.place.details

/-- The tags that have been read have given what the schema has so far. -/
def Kept (ts : List Tag) (s : State) : Prop :=
  List.Forall₂ (fun t d => Details.Of t t.attributes d) ts s.details

theorem Kept.snoc {t : Tag} {d : Details} (h : Kept ts s) (ht : Details.Of t t.attributes d)
    (hs : s'.details = s.details ++ [d]) : Kept (ts ++ [t]) s' := by
  rw [Kept, hs]
  exact List.rel_append h (.cons ht .nil)

theorem details_add (sc : Schema) (d : Definition) :
    (sc.add d).details = sc.details ++ d.details := by
  simp [Schema.details, Schema.add]

/-- A tag that is read gives the details that come to those so far. -/
theorem Moves.kept {e : Event} (he : ∀ t, e ≠ .empty t) (h : Moves s e s') (hk : Kept ts s) :
    Kept (ts ++ (if s.place.inField then none else e.tag?).toList) s' := by
  cases h with
  | root hn h =>
    refine hk.snoc (details_schema hn h) ?_
    simp [State.details, Place.details, Schema.details, (definitions_schema h).1]
  | enum hn h =>
    refine hk.snoc (details_enum hn h) ?_
    simp [State.details, Place.details, Enum.details, variants_enum h]
  | struct hn h =>
    refine hk.snoc (details_struct hn h) ?_
    simp [State.details, Place.details, ownerDetails]
  | variant hn h =>
    refine hk.snoc (details_variant hn h) ?_
    simp [State.details, Place.details, ownerDetails]
  | field hn h =>
    refine hk.snoc (details_field hn h) ?_
    simp [State.details, Place.details]
  | endEnum h =>
    simpa [Kept, State.details, Place.details, details_add, Definition.details, Event.tag?,
      Place.inField] using hk
  | endStruct h =>
    simpa [Kept, State.details, Place.details, details_add, Definition.details, Struct.details,
      ownerDetails, Event.tag?, Place.inField] using hk
  | endVariant =>
    simpa [Kept, State.details, Place.details, Enum.details, Variant.details, ownerDetails,
      Event.tag?, Place.inField] using hk
  | @endField sc owner fields f cs =>
    -- the text of the field goes into its description, which comes from no attribute
    have hk' : List.Forall₂ (fun t d => Details.Of t t.attributes d) ts
        ((sc.details ++ (ownerDetails owner ++ fields.map Field.details)) ++ [f.details]) := by
      simpa [Kept, State.details, Place.details] using hk
    simpa [Kept, State.details, Place.details, Place.inField] using
      Lists.forall₂_concat hk' fun t ht => details_describe ht cs
  | content hne => simpa [Kept, State.details, Place.details, Place.inField] using hk
  | after => simpa [Event.tag?] using hk
  | between hs hne hp =>
    cases e with
    | start t => exact absurd rfl (hne t)
    | empty t => exact absurd rfl (he t)
    | _ => simpa [Event.tag?] using hk

theorem Moves.inField {e : Event} (h : Moves s e s') :
    s'.place.inField = entersField s.place.inField e := by
  cases h with
  | root hn h => simp [hn, entersField, Place.inField]
  | enum hn h => simp [hn, entersField, Place.inField]
  | struct hn h => simp [hn, entersField, Place.inField]
  | variant hn h => simp [hn, entersField, Place.inField]
  | field hn h => simp [hn, entersField, Place.inField]
  | @content sc e owner fields f cs cs' hne =>
    cases e with
    | stop => exact absurd rfl hne
    | _ => rfl
  | between hs hne hp =>
    cases e with
    | start t => exact absurd rfl (hne t)
    | stop => exact absurd rfl hp
    | _ => rfl
  | _ => rfl

theorem Path.kept {es : List Event} (h : Path s es s') (hk : Kept ts s) :
    Kept (ts ++ tagsRead s.place.inField es) s' := by
  induction h generalizing ts with
  | done => rwa [tagsRead, List.append_nil]
  | move he h hp ih =>
    rw [tagsRead, ← List.append_assoc, ← h.inField]
    exact ih (h.kept he hk)
  | single hs h₁ h₂ hp ih =>
    have hk₁ := h₁.kept (by simp) hk
    have hk₂ := h₂.kept (by simp) hk₁
    have hs₁ := ih hk₂
    rw [h₂.inField, h₁.inField] at hs₁
    simpa [tagsRead, hs, entersField, Event.tag?] using hs₁
  | skipped hs hp ih =>
    rw [tagsRead]
    simpa [hs, entersField] using ih hk

end State

section Tidy

theorem openTop_tidy (s : State) (t : Tag) (content : Bool) :
    s.openTop t.tidy content = s.openTop t content := by
  simp only [State.openTop, schema, enum, struct, Tag.attributes_tidy, Tag.name_tidy]

theorem openVariant_tidy (s : State) (e : Enum) (t : Tag) (content : Bool) :
    s.openVariant e t.tidy content = s.openVariant e t content := by
  simp only [State.openVariant, variant, Tag.attributes_tidy, Tag.name_tidy]

theorem openField_tidy (s : State) (owner : Owner) (fields : List Field) (t : Tag)
    (content : Bool) : s.openField owner fields t.tidy content =
      s.openField owner fields t content := by
  simp only [State.openField, field, Tag.attributes_tidy, Tag.name_tidy]

theorem step_tidy (s : State) (e : Event) : s.step e.tidy = s.step e := by
  obtain ⟨sc, place⟩ := s
  cases place <;> cases e <;>
    simp only [Event.tidy, State.step, openTop_tidy, openVariant_tidy, openField_tidy]

/-- Nothing but attributes matters, whether the text is refused or not. -/
theorem ofStream_tidy (x : Xml.Stream) : ofStream x.tidy = ofStream x := by
  have hrun : x.tidy.events.foldlM State.step .start = x.events.foldlM State.step .start := by
    rw [Xml.Stream.tidy, List.foldlM_map]
    simp only [step_tidy]
  simp only [ofStream, load, hrun]
  rfl

end Tidy

def elementNames : List String := ["sumSchema", "enum", "struct", "variant", "field"]

/-- The tags of a text that are named like elements of schemas, wherever they stand. -/
def schemaTags (es : List Event) : List Tag :=
  (es.filterMap Event.tag?).filter fun t => elementNames.contains t.name

/-- No attribute is lost: on every tag they are well formed and different, and those that are made
use of are kept, in the order of the text. -/
def Lossless (es : List Event) (s : Schema) : Prop :=
  List.Forall₂ (fun t d => ∃ as, Written [] t.written as ∧ Details.Of t as d) (schemaTags es)
    s.details

/-- How the attributes of a text are read that gives the schema. -/
structure Attributed (x : Xml.Stream) (s : Schema) : Prop where
  /-- The attributes that are found are kept. -/
  kept : List.Forall₂ (fun t d => Details.Of t t.attributes d) (tagsRead false x.events) s.details
  /-- None is lost if there is nothing else, and no tag in a field, which nobody reads. -/
  lossless_iff : Lossless x.events s ↔ schemaTags x.events = tagsRead false x.events ∧
    ∀ t ∈ tagsRead false x.events, ∀ i ∈ t.items, i.found? ≠ none

theorem tagsRead_sublist (b : Bool) (es : List Event) :
    (tagsRead b es).Sublist (es.filterMap Event.tag?) := by
  induction es generalizing b with
  | nil => exact .slnil
  | cons e es ih =>
    rw [tagsRead]
    cases ht : e.tag? with
    | none =>
      rw [List.filterMap_cons_none ht, ite_self]
      exact ih _
    | some t =>
      rw [List.filterMap_cons_some ht]
      cases b with
      | true => exact (ih _).cons t
      | false => exact (ih _).cons_cons t

theorem kept_of_ofStream {x : Xml.Stream} {s : Schema} (h : ofStream x = .ok s) :
    List.Forall₂ (fun t d => Details.Of t t.attributes d) (tagsRead false x.events) s.details := by
  have hp := State.path_of_run State.ready_start (ofStream_eq_ok.mp h).2
  have hn : State.Kept [] .start := .nil
  have hk := hp.kept hn
  simpa [State.Kept, State.details, Place.details, State.start, Place.inField] using hk

theorem tagsRead_sublist_schemaTags {x : Xml.Stream} {s : Schema} (h : ofStream x = .ok s) :
    (tagsRead false x.events).Sublist (schemaTags x.events) := by
  have hnamed : (tagsRead false x.events).filter (fun t => elementNames.contains t.name) =
      tagsRead false x.events := by
    refine List.filter_eq_self.mpr fun t ht => ?_
    obtain ⟨d, -, hd⟩ := Lists.exists_of_mem_left (kept_of_ofStream h) ht
    rw [hd.element]
    cases d <;> rfl
  rw [← hnamed]
  exact (tagsRead_sublist false x.events).filter _

theorem attributed_of_ofStream {x : Xml.Stream} {s : Schema} (h : ofStream x = .ok s) :
    Attributed x s := by
  have hk := kept_of_ofStream h
  refine ⟨hk, fun hl => ?_, fun ⟨he, hf⟩ => ?_⟩
  · have hlen : (tagsRead false x.events).length = (schemaTags x.events).length :=
      hk.length_eq.trans hl.length_eq.symm
    have he := (tagsRead_sublist_schemaTags h).eq_of_length hlen
    refine ⟨he.symm, fun t ht => t.written_iff_found.mp ?_⟩
    rw [he] at ht
    obtain ⟨d, -, as, has, -⟩ := Lists.exists_of_mem_left hl ht
    exact ⟨as, has⟩
  · rw [Lossless, he]
    refine ((List.forall₂_and_left _ _).mpr ⟨hf, hk⟩).imp fun t d ⟨ht, hd⟩ => ?_
    obtain ⟨as, has⟩ := t.written_iff_found.mpr ht
    exact ⟨as, has, Tag.attributes_of_written has ▸ hd⟩

theorem exists_written_tidy {x : Xml.Stream} :
    ∀ t ∈ x.tidy.events.filterMap Event.tag?, ∃ as, Written [] t.written as := by
  intro t ht
  obtain ⟨e, he, ht⟩ := List.mem_filterMap.mp ht
  obtain ⟨e, -, rfl⟩ := List.mem_map.mp he
  cases e with
  | start u =>
    cases ht
    exact ⟨_, u.written_tidy⟩
  | empty u =>
    cases ht
    exact ⟨_, u.written_tidy⟩
  | _ => cases ht

/-- A text is read as the one with nothing but attributes in its tags, and whether any are lost is
to be seen from the tags. -/
theorem attributed_of_ofXml (text : String) :
    (∀ t ∈ (Xml.Stream.ofText text).tidy.events.filterMap Event.tag?,
      ∃ as, Written [] t.written as) ∧
    ofStream (Xml.Stream.ofText text).tidy = Schema.ofXml text ∧
    ∀ s, Schema.ofXml text = .ok s → Attributed (.ofText text) s :=
  ⟨exists_written_tidy, ofStream_tidy _, fun _ h => attributed_of_ofStream h⟩

namespace Sign

/-- The name is written with quotes or without. -/
def attributes (name : String) : String := " name=" ++ name ++ " type='u8'"

def text (name : String) : String :=
  "<sumSchema package='p'><struct name='S'><field" ++ attributes name ++ "/></struct></sumSchema>"

def stream (name : String) : Xml.Stream :=
  ⟨[.start ⟨"sumSchema", " package='p'".toList⟩, .start ⟨"struct", " name='S'".toList⟩,
    .empty ⟨"field", (attributes name).toList⟩, .stop, .stop], none⟩

def schema (name : Option String) : Schema :=
  .ofDefinitions "p" none [.struct ⟨"S", none, [⟨name, .unsigned .w8, none⟩]⟩]

theorem ofText_quoted : Xml.Stream.ofText (text "'id'") = stream "'id'" := by decide +kernel

theorem ofText_unquoted : Xml.Stream.ofText (text "id") = stream "id" := by decide +kernel

theorem ofXml_quoted : Schema.ofXml (text "'id'") = .ok (schema (some "id")) := by
  rw [Schema.ofXml, ofText_quoted]
  decide +kernel

theorem ofXml_unquoted : Schema.ofXml (text "id") = .ok (schema none) := by
  rw [Schema.ofXml, ofText_unquoted]
  decide +kernel

end Sign

theorem attributed_sign :
    Schema.ofXml (Sign.text "'id'") = .ok (Sign.schema (some "id")) ∧
      Lossless (Xml.Stream.ofText (Sign.text "'id'")).events (Sign.schema (some "id")) := by
  have ha := (attributed_of_ofXml _).2.2 _ Sign.ofXml_quoted
  rw [Sign.ofText_quoted] at ha ⊢
  exact ⟨Sign.ofXml_quoted, ha.lossless_iff.mpr ⟨by decide +kernel, by decide +kernel⟩⟩

/-- A name without quotes is lost, and the field has none. -/
theorem not_lossless_sign :
    Schema.ofXml (Sign.text "id") = .ok (Sign.schema none) ∧
      ¬Lossless (Xml.Stream.ofText (Sign.text "id")).events (Sign.schema none) := by
  refine ⟨Sign.ofXml_unquoted, fun h => ?_⟩
  have ha := attributed_of_ofStream Sign.ofXml_unquoted
  rw [Sign.ofText_unquoted] at ha h
  exact absurd (ha.lossless_iff.mp h).2 (by decide +kernel)

end Element

end TaggedSum
