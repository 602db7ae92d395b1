import Mathlib.Data.Set.Function
import TaggedSum.Proofs.Codec.Failure
import TaggedSum.Proofs.Schema.Named
import TaggedSum.Proofs.Text.Readable

namespace TaggedSum

open Outcome

namespace Location

/-- A member of a payload. -/
inductive Member where
  | index (n : Nat)
  | name (s : String) (h : Text.isMemberName s)

/-- From a container to what it holds. -/
inductive Step where
  | element (n : Nat)
  | entry (key : String)

/-- From a payload to one of its slots. -/
structure Way where
  member : Member
  steps : List Step

/-- From a payload to the slot or payload at fault, through references to other definitions. -/
inductive Report where
  | payload
  | slot (w : Way)
  | nested (w : Way) (inner : Report)

def Member.location : Member → Location
  | index n => .index n
  | name s _ => .name s

def Step.location (field : Location) : Step → Location
  | element n => .element field n
  | entry key => .entry field key

def Way.location (w : Way) : Location := w.steps.foldl Step.location w.member.location

def Report.location : Report → Location
  | payload => .payload
  | slot w => w.location
  | nested w inner => .nested w.location inner.location

namespace Way

def step (w : Way) (s : Step) : Way := ⟨w.member, w.steps ++ [s]⟩

theorem location_step (w : Way) (s : Step) : (w.step s).location = s.location w.location := by
  simp [location, step]

end Way

def Member.code : Member → List Char
  | index n => ['f', 'i', 'e', 'l', 'd', ' '] ++ Nat.toDigits 10 n
  | name s _ => ['f', 'i', 'e', 'l', 'd', ' '] ++ ('\x27' :: (s.toList ++ ['\x27']))

def Step.code : Step → List Char
  | element n => '[' :: (Nat.toDigits 10 n ++ [']'])
  | entry key => '[' :: (Text.Quoted.encode key.toList ++ [']'])

def Way.code (w : Way) : List Char := w.member.code ++ w.steps.flatMap Step.code

def Report.code : Report → List Char
  | payload => ['p', 'a', 'y', 'l', 'o', 'a', 'd']
  | slot w => w.code
  | nested w inner => w.code ++ ([' ', '>', ' '] ++ inner.code)

theorem Member.toList_text (m : Member) : m.location.text.toList = m.code := by
  cases m <;> simp [location, text, code]

theorem Step.toList_text (field : Location) (s : Step) :
    (s.location field).text.toList = field.text.toList ++ s.code := by
  cases s <;> simp [location, text, code, Text.quoted]

theorem Way.toList_text (w : Way) : w.location.text.toList = w.code := by
  obtain ⟨m, steps⟩ := w
  have h : ∀ field : Location, (steps.foldl Step.location field).text.toList =
      field.text.toList ++ steps.flatMap Step.code := by
    induction steps with
    | nil => simp
    | cons s steps ih =>
      intro field
      rw [List.foldl_cons, ih, s.toList_text, List.flatMap_cons, List.append_assoc]
  rw [location, h, m.toList_text, code]

theorem Report.toList_text (r : Report) : r.location.text.toList = r.code := by
  induction r with
  | payload => rfl
  | slot w => exact w.toList_text
  | nested w inner ih => simp [location, text, code, w.toList_text, ih]

/-- A name ends at the quote behind it. -/
theorem readable_name : Text.Readable (fun s : { s // Text.isMemberName s } => s.val.toList)
    (Text.StartsOutside Text.continuesName) :=
  Text.readable_of_class (fun s => (Text.continues_of_isMemberName s.property).continuesName)
    fun _ _ h => Subtype.ext (String.toList_inj.mp h)

theorem Member.readable_code : Text.Readable Member.code (Text.StartsOutside Char.isDigit) := by
  rintro (m | ⟨s, hs⟩) (n | ⟨t, ht⟩) r r' hr hr' h <;>
    simp only [Member.code, List.append_assoc, List.append_cancel_left_eq] at h
  · obtain ⟨rfl, h'⟩ := Text.readable_decimal m n r r' hr hr' h
    exact ⟨rfl, h'⟩
  · exact absurd h (Text.decimal_append_ne (by decide) m r _)
  · exact absurd h.symm (Text.decimal_append_ne (by decide) n r' _)
  · have hname := readable_name.enclosed ['\x27'] ['\x27'] (Text.startsOutside_cons (by decide))
    obtain ⟨hst, h'⟩ := hname ⟨s, hs⟩ ⟨t, ht⟩ r r' trivial trivial h
    cases hst
    exact ⟨rfl, h'⟩

theorem Step.readable_code : Text.Readable Step.code fun _ => True := by
  have helement := Text.readable_decimal.enclosed ['['] [']'] (Text.startsOutside_cons rfl)
  have hentry := Text.Quoted.readable_encode.enclosed ['['] [']'] fun _ => trivial
  -- behind the bracket stands a digit or a quote
  have hne : ∀ n key r r', (element n).code ++ r ≠ (entry key).code ++ r' := by
    intro n key r r' h
    injection h with _ h
    exact Text.decimal_append_ne (by decide) n _ _ ((List.append_assoc _ _ _).symm.trans h)
  rintro (m | k) (n | l) r r' _ _ h
  · obtain ⟨rfl, h'⟩ := helement m n r r' trivial trivial h
    exact ⟨rfl, h'⟩
  · exact absurd h (hne m l r r')
  · exact absurd h.symm (hne n k r' r)
  · obtain ⟨hkl, h'⟩ := hentry k.toList l.toList r r' trivial trivial h
    exact ⟨congrArg _ (String.toList_inj.mp hkl), h'⟩

/-- A way ends at the end of the text, or at the space before what is nested. -/
theorem Way.readable_code : Text.Readable Way.code (Text.StartsOutside (· != ' ')) := by
  have hsteps : Text.Readable (fun steps : List Step => steps.flatMap Step.code)
      (Text.StartsOutside (· != ' ')) := by
    refine Step.readable_code.flatMap ?_
    rintro s r _ hr rfl
    cases s <;> cases hr '[' rfl
  have hmember : ∀ (steps : List Step) r, Text.StartsOutside (· != ' ') r →
      Text.StartsOutside Char.isDigit (steps.flatMap Step.code ++ r) := by
    intro steps r hr
    cases steps with
    | nil =>
      refine hr.mono fun c hc => ?_
      rw [bne_eq_false_iff_eq.mp hc]
      rfl
    | cons s steps => cases s <;> exact Text.startsOutside_cons rfl _
  rintro ⟨m, steps⟩ ⟨m', steps'⟩ r r' hr hr' h
  simp only [Way.code, List.append_assoc] at h
  obtain ⟨rfl, rfl, h'⟩ := Member.readable_code.append hsteps hmember hr hr' h
  exact ⟨rfl, h'⟩

theorem Way.code_append_ne (w : Way) (r s : List Char) : w.code ++ r ≠ 'p' :: s := by
  obtain ⟨m | ⟨s, hs⟩, steps⟩ := w <;> nofun

theorem Report.code_injective : Function.Injective Report.code := by
  have hend : Text.StartsOutside (· != ' ') [] := nofun
  have hspace : ∀ cs, Text.StartsOutside (· != ' ') (' ' :: cs) := Text.startsOutside_cons rfl
  have hslot : ∀ w : Way, (slot w).code = w.code ++ [] := fun w => (List.append_nil _).symm
  -- a code is read from its front: a way ends with the text or at a blank
  intro r r' h
  induction r generalizing r' with
  | payload =>
    cases r' with
    | payload => rfl
    | slot w => exact absurd (h.trans (hslot w)).symm (w.code_append_ne _ _)
    | nested w inner => exact absurd h.symm (w.code_append_ne _ _)
  | slot w =>
    rw [hslot] at h
    cases r' with
    | payload => exact absurd h (w.code_append_ne _ _)
    | slot w' =>
      obtain ⟨rfl, -⟩ := Way.readable_code w w' _ _ hend hend (h.trans (hslot w'))
      rfl
    | nested w' inner =>
      obtain ⟨-, h'⟩ := Way.readable_code w w' _ _ hend (hspace _) h
      cases h'
  | nested w inner ih =>
    cases r' with
    | payload => exact absurd h (w.code_append_ne _ _)
    | slot w' =>
      obtain ⟨-, h'⟩ := Way.readable_code w w' _ _ (hspace _) hend (h.trans (hslot w'))
      cases h'
    | nested w' inner' =>
      obtain ⟨rfl, h'⟩ := Way.readable_code w w' _ _ (hspace _) (hspace _) h
      have hinner : [' ', '>', ' '] ++ inner.code = [' ', '>', ' '] ++ inner'.code := h'
      rw [ih (List.append_cancel_left hinner)]

/-- The text of a place that is reported tells which place it is. -/
theorem Report.location_eq {r r' : Report} (h : r.location.text = r'.location.text) : r = r' := by
  apply Report.code_injective
  rw [← r.toList_text, h, r'.toList_text]

end Location

/-- If the error has a place, it is of the form of a report. -/
def DecodeError.Placed (e : DecodeError) : Prop :=
  ∀ place expected, e = .typeMismatch place expected → ∃ r : Location.Report, r.location = place

/-- The errors of the definitions are placed. -/
def DecodersPlace (f : String → Option Decoder) : Prop :=
  ∀ name d, f name = some d → ∀ j e, d j = .error e → e.Placed

section Placed

variable {f : String → Option Decoder} {e : DecodeError} {j : Json} {t : FieldType} {l : Layout}
  {c : Codec} {w : Location.Way} {place : Location} {ek : ExtraKeys}

theorem placed_typeMismatch (r : Location.Report) (expected : Expected) :
    (DecodeError.typeMismatch r.location expected).Placed := by
  rintro place _ ⟨⟩
  exact ⟨r, rfl⟩

theorem DecodeError.Placed.within (h : e.Placed) (w : Location.Way) :
    (e.within w.location).Placed := by
  intro place expected he
  cases e with
  | typeMismatch inner _ =>
    cases he
    obtain ⟨r, rfl⟩ := h inner expected rfl
    exact ⟨.nested w r, rfl⟩
  | _ => cases he

theorem placed_slot (hf : DecodersPlace f) (hw : w.location = place)
    (h : Decode.SlotFails f t j place e) : e.Placed := by
  induction h generalizing w with
  | refused => exact hw ▸ placed_typeMismatch (.slot w) _
  | unresolved => rintro _ _ ⟨⟩
  | within hd he => exact hw ▸ (hf _ _ hd _ _ he).within w
  | @element _ _ n _ _ _ _ _ ih => exact ih ((w.location_step (.element n)).trans (hw ▸ rfl))
  | @entry _ _ key _ _ _ _ _ ih => exact ih ((w.location_step (.entry key)).trans (hw ▸ rfl))

theorem placed_payload (hf : DecodersPlace f) (hl : ∀ n ∈ l.names, Text.isMemberName n)
    (h : Decode.PayloadFails f l j e) : e.Placed := by
  have hindex : ∀ {t i} n, Decode.SlotFails f t i (.index n) e → e.Placed :=
    fun n => placed_slot (w := ⟨.index n, []⟩) hf rfl
  cases h with
  | refused => exact placed_typeMismatch .payload _
  | arity => rintro _ _ ⟨⟩
  | missing => rintro _ _ ⟨⟩
  | newtype h => exact hindex 0 h
  | element _ _ h => exact hindex _ h
  | @member _ _ name _ _ _ ht _ h =>
    have hn := hl name (Members.mem_names_of_mem ht)
    exact placed_slot (w := ⟨.name name hn, []⟩) hf rfl h

theorem placed_definition (hf : DecodersPlace f)
    (hc : ∀ l ∈ c.layouts, ∀ n ∈ l.names, Text.isMemberName n)
    (h : Decode.definition f ek c j = .error e) : e.Placed := by
  cases c with
  | enum e =>
    rintro place expected rfl
    obtain ⟨ms, v, k, -, hv, -, hk⟩ := Decode.choice_eq_typeMismatch (map_eq_error.mp h)
    have hl := hc v.layout (List.mem_map_of_mem (List.mem_of_find?_eq_some hv))
    exact placed_payload hf hl (Decode.payloadFails_of_eq_error hk) place expected rfl
  | record r =>
    have hp := Decode.payloadFails_of_eq_error (map_eq_error.mp h)
    exact placed_payload hf (hc r.layout List.mem_cons_self) hp

/-- References lead to earlier codecs only. -/
theorem decodersPlace_among {cs : List Codec}
    (hcs : ∀ c ∈ cs, ∀ l ∈ c.layouts, ∀ n ∈ l.names, Text.isMemberName n) :
    DecodersPlace (Decode.among ek cs) := by
  induction cs with
  | nil => exact fun _ _ h => nomatch h
  | cons c earlier ih =>
    obtain ⟨hc, hcs⟩ := List.forall_mem_cons.mp hcs
    intro name d hd j e he
    rw [Decode.among] at hd
    split at hd
    · cases hd
      exact placed_definition (ih hcs) hc he
    · exact ih hcs name d hd j e he

end Placed

namespace CodecPlan

theorem memberNames_ofSchema {s : Schema} {ir : Resolved.Schema} (ek : ExtraKeys)
    (hs : Resolved.Schema.ofSchema s = .ok ir) :
    ∀ c ∈ (ofSchema ek ir).codecs, ∀ l ∈ c.layouts, ∀ n ∈ l.names, Text.isMemberName n := by
  have hnamed := Resolved.Schema.named_of_ofSchema hs
  intro c hc l hl n hn
  obtain ⟨d, hd, rfl⟩ := List.mem_map.mp hc
  cases d with
  | enum e =>
    simp only [Codec.layouts, Codec.ofDefinition, EnumCodec.ofEnum, List.map_map,
      List.mem_map] at hl
    obtain ⟨v, hv, rfl⟩ := hl
    have hb := (hnamed.enums e (Resolved.Schema.mem_enums.mpr hd)).bound v hv
    exact hb.memberNames n (names_ofFields_subset _ _ hn)
  | struct t =>
    obtain rfl := List.mem_singleton.mp hl
    have hb := hnamed.structs t (Resolved.Schema.mem_structs.mpr hd)
    exact hb.memberNames n (names_ofFields_subset _ _ hn)

/-- Reading some document as some definition fails with a mismatch in the place. -/
def Reports (p : CodecPlan) (place : Location) : Prop :=
  ∃ name j expected, p.decode? name j = some (.error (.typeMismatch place expected))

theorem exists_report {s : Schema} {ir : Resolved.Schema} {ek : ExtraKeys} {place : Location}
    (hs : Resolved.Schema.ofSchema s = .ok ir) (h : (ofSchema ek ir).Reports place) :
    ∃ r : Location.Report, r.location = place := by
  obtain ⟨name, j, expected, h⟩ := h
  obtain ⟨d, hd, he⟩ := Option.map_eq_some_iff.mp h
  have hall : ∀ c ∈ (ofSchema ek ir).codecs.reverse, ∀ l ∈ c.layouts, ∀ n ∈ l.names,
      Text.isMemberName n := fun c hc => memberNames_ofSchema ek hs c (List.mem_reverse.mp hc)
  exact decodersPlace_among hall name d hd j _ he place expected rfl

/-- The places that reading reports have texts of their own, whatever the keys in them are. -/
theorem injOn_text_reports {s : Schema} {ir : Resolved.Schema}
    (hs : Resolved.Schema.ofSchema s = .ok ir) :
    Set.InjOn Location.text {place | ∃ ek, (ofSchema ek ir).Reports place} := by
  rintro _ ⟨ek, h⟩ _ ⟨ek', h'⟩ ht
  obtain ⟨r, rfl⟩ := exists_report hs h
  obtain ⟨r', rfl⟩ := exists_report hs h'
  rw [Location.Report.location_eq ht]

end CodecPlan

namespace Sheets

def sheet : Definition := .struct ⟨"Sheet", none, [⟨some "cells", .map (.unsigned .w8), none⟩]⟩

def book : Definition := .struct ⟨"Book", none, [⟨some "sheets", .map (.reference "Sheet"), none⟩]⟩

/-- A book of sheets of cells, where sheets and cells are found by any text. -/
def schema : Schema := ⟨"sheets", none, [sheet, book], 0⟩

def resolved : Resolved.Schema :=
  .ofDefinitions "sheets" none [
    .struct ⟨"Sheet", none, .struct, [⟨some "cells", .map (.unsigned .w8), none⟩]⟩,
    .struct ⟨"Book", none, .struct, [⟨some "sheets", .map (.reference "Sheet"), none⟩]⟩]

theorem ofSchema_schema : Resolved.Schema.ofSchema schema = .ok resolved := by
  have hd : schema.dependencyOrder = .ok [sheet, book] := by cbv
  exact Resolved.ofSchema_of_ordered (by decide +kernel) hd (by decide +kernel)

/-- A key with all that may stand between two keys in a text. -/
def key : String := "a\"] > field 'cells'[\"b"

/-- A book in which a single sheet is found, by the key. -/
def bound (sheet : Json) : Json := .object [("sheets", .object [(key, sheet)])]

/-- The sheet is no object. -/
def torn : Location := .nested (.entry (.name "sheets") key) .payload

/-- The cell is no number. -/
def blot : Location := .nested (.entry (.name "sheets") key) (.entry (.name "cells") "c")

theorem reports_torn : (CodecPlan.ofSchema .reject resolved).Reports torn :=
  ⟨"Book", bound .null, .object, rfl⟩

theorem reports_blot : (CodecPlan.ofSchema .ignore resolved).Reports blot :=
  ⟨"Book", bound (.object [("cells", .object [("c", .null)])]), .unsigned 8, rfl⟩

end Sheets

theorem CodecPlan.injOn_text_sheets :
    Resolved.Schema.ofSchema Sheets.schema = .ok Sheets.resolved ∧
      Set.InjOn Location.text {place | ∃ ek, (ofSchema ek Sheets.resolved).Reports place} ∧
      (ofSchema .reject Sheets.resolved).Reports Sheets.torn ∧
      (ofSchema .ignore Sheets.resolved).Reports Sheets.blot ∧ Sheets.torn ≠ Sheets.blot :=
  ⟨Sheets.ofSchema_schema, injOn_text_reports Sheets.ofSchema_schema, Sheets.reports_torn,
    Sheets.reports_blot, by decide⟩

example : (Location.entry (.name "sheets") Sheets.key).text ≠
    (Location.nested (.entry (.name "sheets") "a") (.entry (.name "cells") "b")).text := by
  decide +kernel

end TaggedSum
