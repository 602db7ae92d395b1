import TaggedSum.Codec.Decode
import TaggedSum.Proofs.Schema.FieldType
import TaggedSum.Proofs.Schema.Resolved
import TaggedSum.Schema.Element

namespace TaggedSum

inductive Container where
  | seq
  | map
  deriving DecidableEq

namespace Container

def word : Container → List Char
  | seq => ['s', 'e', 'q']
  | map => ['m', 'a', 'p']

def around : Container → FieldType → FieldType
  | seq, t => .seq t
  | map, t => .map t

end Container

namespace FieldType

/-- A type within containers, the outermost first. -/
def nested (ks : List Container) (t : FieldType) : FieldType := ks.foldr Container.around t

/-- Containers written around a text, with white space wherever a type may have it. -/
inductive Wraps (inner : List Char) : List Container → List Char → Prop
  | bare {cs : List Char} (h : Padded inner cs) : Wraps inner [] cs
  | around {k : Container} {ks : List Container} {gap body cs : List Char} (hg : Blanks gap)
      (h : Wraps inner ks body) (hp : Padded (k.word ++ (gap ++ '<' :: (body ++ ['>']))) cs) :
    Wraps inner (k :: ks) cs

variable {ks : List Container} {cs : List Char} {s name : String} {t : FieldType}

theorem tight_around (k : Container) (cs : List Char) : Tight (k.word ++ (cs ++ ['>'])) := by
  cases k with
  | seq => exact tight_bracketed (by decide) ['e', 'q'] cs
  | map => exact tight_bracketed (by decide) ['a', 'p'] cs

/-- A container is read around what its argument is read as. -/
theorem ofChars?_around {k : Container} {gap body : List Char} (hg : Blanks gap)
    (h : Text.trim cs = k.word ++ (gap ++ '<' :: (body ++ ['>']))) :
    ofChars? cs = (ofChars? body).map k.around := by
  cases k with
  | seq => exact ofChars?_seq (argument?_eq_some_iff.mpr ⟨gap, hg, h⟩)
  | map =>
    have hs : argument? ['s', 'e', 'q'] (Text.trim cs) = none := by
      rw [h]
      rfl
    exact ofChars?_map hs (argument?_eq_some_iff.mpr ⟨gap, hg, h⟩)

/-- Reading goes through containers to the word within. -/
theorem Wraps.ofChars?_eq (h : Wraps s.toList ks cs) (hs : Text.Continues s) :
    ofChars? cs = (ofWord? s).map (nested ks) := by
  induction h with
  | bare hp =>
    rw [ofChars?_word (hp.trim_eq (tight_of_continues hs)) hs]
    exact Option.map_id'.symm
  | @around k ks gap body cs hg h hp ih =>
    have ht : Text.trim cs = k.word ++ (gap ++ '<' :: (body ++ ['>'])) := by
      refine hp.trim_eq ?_
      simpa using tight_around k (gap ++ '<' :: body)
    rw [ofChars?_around hg ht, ih, Option.map_map]
    rfl

theorem text_nested_cons (k : Container) (ks : List Container) (t : FieldType) :
    (nested (k :: ks) t).text.toList =
      k.word ++ ([] ++ '<' :: ((nested ks t).text.toList ++ ['>'])) := by
  cases k <;> simp [nested, Container.around, text, Container.word, String.toList_append]

/-- The text of a type within containers is one way to write them around its own. -/
theorem wraps_text (ks : List Container) (t : FieldType) :
    Wraps t.text.toList ks (nested ks t).text.toList := by
  induction ks with
  | nil => exact .bare (padded_self _)
  | cons k ks ih =>
    rw [text_nested_cons]
    exact .around blanks_nil ih (padded_self _)

theorem nested_injective (ks : List Container) : Function.Injective (nested ks) := by
  induction ks with
  | nil => exact fun _ _ h => h
  | cons k ks ih =>
    intro t t' h
    cases k with
    | seq => exact ih (FieldType.seq.inj h)
    | map => exact ih (FieldType.map.inj h)

/-- The words that are types but are not reserved. -/
def openWords : List (String × FieldType) := [("string", string), ("boolean", bool)]

theorem mem_openWords_of_keyword (h : (s, t) ∈ keywords) (hr : s ∉ Schema.reservedNames) :
    (s, t) ∈ openWords := by
  have hall : ∀ p ∈ keywords, p.1 ∉ Schema.reservedNames → p ∈ openWords := by decide
  exact hall _ h hr

theorem word?_of_mem_openWords (h : (s, t) ∈ openWords) : word? s = some t := by
  have hall : ∀ p ∈ openWords, word? p.1 = some p.2 := by decide
  exact hall _ h

theorem ofWord?_of_mem_openWords (h : (s, t) ∈ openWords) : ofWord? s = some t := by
  rw [ofWord?, word?_of_mem_openWords h]

theorem ofWord?_of_unreserved (hi : Text.isIdentifier s) (hr : s ∉ Schema.reservedNames)
    (ho : s ∉ openWords.map Prod.fst) : ofWord? s = some (.reference s) := by
  have hw : word? s = none := by
    refine word?_eq_none_iff.mpr fun hk => ho ?_
    obtain ⟨⟨w, t⟩, hm, rfl⟩ := List.mem_map.mp hk
    exact List.mem_map_of_mem (mem_openWords_of_keyword hm hr)
  rw [ofWord?, hw]
  exact if_pos hi

theorem reference_not_mem_openWords (s name : String) : (s, .reference name) ∉ openWords := by
  simp [openWords]

end FieldType

/-- How a name is read that stands as a type, within any containers. -/
structure Definition.ReadAs (d : Definition) (t : FieldType) : Prop where
  ofText?_eq : ∀ ks text, FieldType.Wraps d.name.toList ks text.toList →
    FieldType.ofText? text = some (.nested ks t)
  ofText?_text : ∀ ks, FieldType.ofText? (FieldType.nested ks (.reference d.name)).text =
    some (.nested ks t)

theorem Definition.ReadAs.of_ofWord? {d : Definition} {t : FieldType}
    (hi : Text.isIdentifier d.name) (h : FieldType.ofWord? d.name = some t) : d.ReadAs t := by
  have hread : ∀ ks text, FieldType.Wraps d.name.toList ks text.toList →
      FieldType.ofText? text = some (.nested ks t) := fun ks text hw => by
    rw [FieldType.ofText?, hw.ofChars?_eq (Text.continues_of_isIdentifier hi), h, Option.map_some]
  exact ⟨hread, fun ks => hread ks _ (FieldType.wraps_text ks (.reference d.name))⟩

namespace Schema

variable {s : Schema} {d : Definition}

theorem isIdentifier_of_validate (h : s.validate = .ok ()) (hd : d ∈ s.definitions) :
    Text.isIdentifier d.name ∧ d.name ∉ reservedNames := by
  have hn := (checkNames_eq_ok_iff.mp (validate_eq_ok_iff.mp h).1).1 d hd
  exact ⟨hn.1, hn.2.1⟩

/-- The name of a definition that has passed the checks means the definition, in any containers,
unless it is one of the words that are types and not reserved; these mean the type. -/
theorem readAs_of_validate (h : s.validate = .ok ()) (hd : d ∈ s.definitions) :
    (d.ReadAs (.reference d.name) ↔ d.name ∉ FieldType.openWords.map Prod.fst) ∧
      ∀ t, (d.name, t) ∈ FieldType.openWords → d.ReadAs t := by
  obtain ⟨hi, hr⟩ := isIdentifier_of_validate h hd
  have hopen : ∀ t, (d.name, t) ∈ FieldType.openWords → d.ReadAs t := fun t ht =>
    .of_ofWord? hi (FieldType.ofWord?_of_mem_openWords ht)
  refine ⟨⟨fun href hm => ?_, fun ho => ?_⟩, hopen⟩
  · obtain ⟨⟨w, t⟩, hm, rfl⟩ := List.mem_map.mp hm
    have he := (href.ofText?_text []).symm.trans ((hopen t hm).ofText?_text [])
    obtain rfl := FieldType.nested_injective [] (Option.some.inj he)
    exact FieldType.reference_not_mem_openWords _ _ hm
  · exact .of_ofWord? hi (FieldType.ofWord?_of_unreserved hi hr ho)

end Schema

namespace Titles

/-- A definition that is called as a type is, and a page that has a field of its name. -/
def text : String :=
  "<sumSchema package='titles'><struct name='string'><field type='u8'/></struct>" ++
    "<struct name='Page'><field name='title' type='string'/></struct></sumSchema>"

def title : Definition := .struct ⟨"string", none, [⟨none, .unsigned .w8, none⟩]⟩

def page : Definition := .struct ⟨"Page", none, [⟨some "title", .string, none⟩]⟩

def schema : Schema := .ofDefinitions "titles" none [title, page]

def resolved : Resolved.Schema :=
  .ofDefinitions "titles" none [.struct ⟨"string", none, .newtype, [⟨none, .unsigned .w8, none⟩]⟩,
    .struct ⟨"Page", none, .struct, [⟨some "title", .string, none⟩]⟩]

theorem ofXml_text : Schema.ofXml text = .ok schema := by decide +kernel

theorem validate_schema : schema.validate = .ok () := by decide +kernel

theorem ofSchema_schema : Resolved.Schema.ofSchema schema = .ok resolved := by
  have hd : schema.dependencyOrder = .ok schema.definitions := by cbv
  exact Resolved.ofSchema_of_ordered validate_schema hd (by decide +kernel)

end Titles

theorem Schema.readAs_titles :
    Titles.schema.validate = .ok () ∧ Titles.page ∈ Titles.schema.definitions ∧
      Titles.page.ReadAs (.reference "Page") ∧ Titles.title ∈ Titles.schema.definitions ∧
      Titles.title.ReadAs .string := by
  have hp : Titles.page ∈ Titles.schema.definitions := by decide
  have ht : Titles.title ∈ Titles.schema.definitions := by decide
  exact ⟨Titles.validate_schema, hp,
    (readAs_of_validate Titles.validate_schema hp).1.mpr (by decide), ht,
    (readAs_of_validate Titles.validate_schema ht).2 .string (by decide)⟩

/-- The field that is written with the name of the definition has the type of strings, and a
document of the definition is not one of the field. -/
theorem Schema.swallowed_titles :
    Schema.ofXml Titles.text = .ok Titles.schema ∧
      Resolved.Schema.ofSchema Titles.schema = .ok Titles.resolved ∧
      Titles.title ∈ Titles.schema.definitions ∧
      FieldType.ofText? Titles.title.name = some .string ∧
      (CodecPlan.ofSchema .reject Titles.resolved).decode? "Page"
        (.object [("title", .number (.integer 5))]) =
          some (.error (.typeMismatch (.name "title") .string)) :=
  ⟨Titles.ofXml_text, Titles.ofSchema_schema, by decide, by cbv, rfl⟩

end TaggedSum
