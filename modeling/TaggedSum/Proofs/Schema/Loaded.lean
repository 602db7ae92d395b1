import TaggedSum.Proofs.Schema.Element
import TaggedSum.Proofs.Schema.Reading
import TaggedSum.Proofs.Schema.Validation

namespace TaggedSum

open Outcome

/-- All definitions can be found, names are different, and types can be read back. -/
structure Schema.Loaded (s : Schema) : Prop where
  unlisted : s.unlisted = 0
  nodup : (s.definitions.map Definition.name).Nodup
  legible : ∀ d ∈ s.definitions, d.Legible

namespace Schema

variable {s s' : Schema} {d : Definition} {ds : List Definition}

theorem loaded_ofDefinitions (package : String) (description : Option String) :
    Loaded (.ofDefinitions package description []) :=
  ⟨rfl, List.nodup_nil, List.forall_mem_nil _⟩

theorem Loaded.add (h : s.Loaded) (hd : s.has d.name = false) (hl : d.Legible) :
    (s.add d).Loaded := by
  obtain ⟨package, description, ds, unlisted⟩ := s
  obtain ⟨rfl, hn, hds⟩ := h
  have hnew : d.name ∉ ds.map Definition.name := by
    intro hm
    have hhas : (ofDefinitions package description ds).has d.name := has_ofDefinitions hm
    rw [ofDefinitions, hd] at hhas
    cases hhas
  refine ⟨rfl, ?_, List.forall_mem_append.mpr ⟨hds, List.forall_mem_singleton.mpr hl⟩⟩
  rw [Schema.add, List.map_append, List.map_singleton]
  exact List.nodup_append.mpr ⟨hn, List.nodup_singleton _, by
    rintro a ha b hb rfl
    exact hnew (List.mem_singleton.mp hb ▸ ha)⟩

theorem loaded_of_addAll (hs : s.Loaded) (hl : ∀ d ∈ ds, d.Legible) (h : addAll s ds = .ok s') :
    s'.Loaded := by
  induction ds generalizing s with
  | nil =>
    cases h
    exact hs
  | cons d ds ih =>
    obtain ⟨hd, hds⟩ := List.forall_mem_cons.mp hl
    obtain ⟨s₁, h₁, h⟩ := bind_eq_ok.mp h
    obtain ⟨hnew, rfl⟩ := Element.add_eq_ok.mp h₁
    exact ih (hs.add hnew hd) hds h

/-- Definitions with different names are all added. -/
theorem addAll_of_nodup (h : ((s.definitions ++ ds).map Definition.name).Nodup) :
    addAll s ds = .ok { s with definitions := s.definitions ++ ds } := by
  induction ds generalizing s with
  | nil => simp [addAll]
  | cons d ds ih =>
    have hnew : s.has d.name = false := by
      refine Bool.eq_false_iff.mpr fun hd => ?_
      rw [List.map_append, List.map_cons] at h
      exact (List.nodup_append.mp h).2.2 _ (mem_names_of_has hd) _ List.mem_cons_self rfl
    have happ : (s.add d).definitions ++ ds = s.definitions ++ d :: ds := by simp [Schema.add]
    have hadd : Element.add s d = .ok (s.add d) := Element.add_eq_ok.mpr ⟨hnew, rfl⟩
    rw [addAll, hadd, ok_bind, ih (happ ▸ h), happ, Schema.add]

/-- A schema that could have been loaded comes back from its JSON text. -/
theorem Loaded.ofJson_toJson (h : s.Loaded) : Schema.ofJson s.toJson.render = .ok s := by
  obtain ⟨package, description, ds, unlisted⟩ := s
  obtain ⟨rfl, hn, hl⟩ := h
  have hall : addAll (.ofDefinitions package description []) ds =
      .ok (.ofDefinitions package description ds) := addAll_of_nodup hn
  simpa [ofJson, read_render hl, ofDefinitions] using hall

end Schema

namespace Element

theorem legible_field {t : Xml.Tag} {f : Field} (h : field t = .ok f) : f.type.Legible := by
  obtain ⟨vs, -, h⟩ := bind_eq_ok.mp h
  split at h
  · rename_i type htype
    obtain ⟨v, -, htype⟩ := Option.bind_eq_some_iff.mp htype
    cases h
    exact FieldType.legible_of_ofChars? htype
  · cases h

theorem type_describe (f : Field) (cs : List Char) : (describe f cs).type = f.type := by
  simp only [describe]
  split <;> rfl

def ownerFields : Owner → List Field
  | .variant e _ => e.variants.flatMap (·.fields)
  | .struct _ => []

/-- The fields of a definition that is being read. -/
def Place.fields : Place → List Field
  | .document => []
  | .enum e => e.variants.flatMap (·.fields)
  | .payload owner fields => ownerFields owner ++ fields
  | .text owner fields f _ => ownerFields owner ++ fields ++ [f]

namespace State

variable {s s' : State}

/-- What has been read so far would do for a loaded schema. -/
structure Loading (s : State) : Prop where
  schema : ∀ sc, s.schema = some sc → sc.Loaded
  legible : ∀ f ∈ s.place.fields, f.type.Legible

theorem Moves.loading {e : Xml.Event} (h : Moves s e s') (hl : Loading s) : Loading s' := by
  obtain ⟨hs, hf⟩ := hl
  cases h with
  | @root t sc hn h =>
    obtain ⟨hd, hu⟩ := definitions_schema h
    refine ⟨fun sc' hsc => ?_, hf⟩
    cases hsc
    exact ⟨hu, by simp [hd], by simp [hd]⟩
  | enum hn h => exact ⟨hs, by simp [Place.fields, variants_enum h]⟩
  | struct hn h => exact ⟨hs, List.forall_mem_nil _⟩
  | variant hn h => exact ⟨hs, by simpa [Place.fields, ownerFields] using hf⟩
  | @field t sc owner fields f hn h =>
    exact ⟨hs, List.forall_mem_append.mpr ⟨hf, List.forall_mem_singleton.mpr (legible_field h)⟩⟩
  | @endEnum sc e h =>
    refine ⟨fun sc' hsc => ?_, List.forall_mem_nil _⟩
    cases hsc
    exact (hs _ rfl).add h hf
  | @endStruct sc d fields h =>
    refine ⟨fun sc' hsc => ?_, List.forall_mem_nil _⟩
    cases hsc
    exact (hs _ rfl).add h hf
  | endVariant => exact ⟨hs, by simpa [Place.fields, ownerFields, or_imp, forall_and] using hf⟩
  | @endField sc owner fields f cs =>
    have hf' : ∀ g ∈ (ownerFields owner ++ fields) ++ [describe f cs], g.type.Legible := by
      obtain ⟨hfields, hlast⟩ := List.forall_mem_append.mp hf
      refine List.forall_mem_append.mpr ⟨hfields, List.forall_mem_singleton.mpr ?_⟩
      rw [type_describe]
      exact hlast f (List.mem_singleton_self f)
    exact ⟨hs, by simpa [Place.fields] using hf'⟩
  | content hne => exact ⟨hs, hf⟩
  | after => exact ⟨hs, hf⟩
  | between => exact ⟨hs, hf⟩

end State

theorem loaded_of_ofStream {x : Xml.Stream} {s : Schema} (h : ofStream x = .ok s) : s.Loaded := by
  have hp := State.path_of_run State.ready_start (ofStream_eq_ok.mp h).2
  have hl := hp.preserves (fun _ _ _ hm => hm.loading) ⟨nofun, List.forall_mem_nil _⟩
  exact hl.schema s rfl

end Element

namespace Schema

variable {s : Schema} {source : String}

theorem loaded_of_ofXml (h : Schema.ofXml source = .ok s) : s.Loaded := Element.loaded_of_ofStream h

theorem loaded_of_ofJson (h : Schema.ofJson source = .ok s) : s.Loaded := by
  obtain ⟨r, hr, h⟩ := bind_eq_ok.mp h
  obtain ⟨s₀, hs₀, hr⟩ := bind_eq_ok.mp (mapError_eq_ok.mp hr)
  obtain ⟨-, hr⟩ := check_bind_eq_ok.mp hr
  cases hr
  exact loaded_of_addAll (loaded_ofDefinitions _ _) (Reading.legible_schema hs₀) h

/-- A schema that has been loaded, from whichever form of text, comes back as it is from the JSON
text that is written for it. -/
theorem ofJson_render (h : Schema.ofXml source = .ok s ∨ Schema.ofJson source = .ok s) :
    Schema.ofJson s.toJson.render = .ok s :=
  (h.elim loaded_of_ofXml loaded_of_ofJson).ofJson_toJson

namespace Bell

/-- A schema with a control character in its description, and a type that is not written as it is
read. -/
def text : String :=
  "<sumSchema package='p' description='\"&#7;'><enum name='E'><variant name='V' tag='v'>" ++
    "<field name='f' type=' seq&lt;str>'>x</field></variant></enum></sumSchema>"

def schema : Schema :=
  .ofDefinitions "p" (some "\"\x07") [.enum ⟨"E", none, [⟨"V", some "v", none,
    [⟨some "f", .seq .string, some "x"⟩]⟩]⟩]

theorem ofXml_text : Schema.ofXml text = .ok schema := by decide +kernel

end Bell

theorem ofJson_bell :
    Schema.ofXml Bell.text = .ok Bell.schema ∧
      Schema.ofJson Bell.schema.toJson.render = .ok Bell.schema :=
  ⟨Bell.ofXml_text, ofJson_render (.inl Bell.ofXml_text)⟩

end Schema

end TaggedSum
