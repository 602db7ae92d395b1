import TaggedSum.Proofs.Codec.Failure
import TaggedSum.Proofs.Codec.Navigation
import TaggedSum.Proofs.Codec.RoundTrip
import TaggedSum.Proofs.Json.Order

namespace TaggedSum

open Outcome

namespace Spot

def expected? : Spot Json Json → Option Expected
  | payload layout _ => layout.expected?
  | slot t _ => t.expected?

def content : Spot Json Json → Json
  | payload _ j => j
  | slot _ j => j

end Spot

/-- If the error has a place, it leads to something in the document that was not as expected. -/
def CodecPlan.Locates (p : CodecPlan) (c : Codec) (j : Json) (e : DecodeError) : Prop :=
  ∀ place expected, e = .typeMismatch place expected → ∃ spot,
    (Json.parts p.extraKeys).follow? p.get? place c j = some spot ∧
      spot.expected? = some expected ∧ ¬expected.Holds spot.content

section Locates

variable {p : CodecPlan} {c : Codec} {j k : Json} {e : DecodeError} {here : Location}
  {l : Layout} {t : FieldType}

theorem locates_here {spot : Spot Json Json} {expected : Expected}
    (hs : (Json.parts p.extraKeys).follow? p.get? here c j = some spot)
    (hx : spot.expected? = some expected) (hn : ¬expected.Holds spot.content) :
    p.Locates c j (.typeMismatch here expected) := by
  rintro place expected ⟨⟩
  exact ⟨spot, hs, hx, hn⟩

/-- An error within a referenced definition is nested in the place of the reference. -/
theorem locates_within {name : String} {d : Codec}
    (hk : (Json.parts p.extraKeys).follow? p.get? here c j = some (.slot (.reference name) k))
    (hd : p.get? name = some d) (h : p.Locates d k e) : p.Locates c j (e.within here) := by
  intro place expected he
  cases e with
  | typeMismatch inner expected =>
    cases he
    obtain ⟨spot, hs, hn⟩ := h inner expected rfl
    exact ⟨spot, (Parts.follow?_nested inner hk hd).trans hs, hn⟩
  | _ => cases he

/-- The errors of what the slot refers to are located in it. -/
def ReferencesLocate (p : CodecPlan) (t : FieldType) : Prop :=
  ∀ r, t.reference? = some r → ∀ d, p.get? r = some d → ∀ j, j.Distinct → ∀ e,
    Decode.definition p.decoder p.extraKeys d j = .error e → p.Locates d j e

theorem locates_slot (hg : p.Grounded) (hr : ReferencesLocate p t) (hd : k.Distinct)
    (hk : (Json.parts p.extraKeys).follow? p.get? here c j = some (.slot t k))
    (h : Decode.SlotFails p.decoder t k here e) : p.Locates c j e := by
  induction h with
  | refused hx hn => exact locates_here hk hx hn
  | unresolved => rintro _ _ ⟨⟩
  | @within name f k here e hf he =>
    rw [CodecPlan.decoder_eq hg] at hf
    obtain ⟨d, hget, rfl⟩ := Option.map_eq_some_iff.mp hf
    exact locates_within hk hget (hr name rfl d hget k hd e he)
  | element hi _ ih =>
    cases hd with
    | array hd => exact ih hr (hd _ (List.mem_of_getElem? hi)) (Parts.follow?_element hk hi)
  | entry hi _ ih =>
    cases hd with
    | object hnd hd =>
      exact ih hr (hd _ hi) (Parts.follow?_entry hk (Members.get?_of_mem hnd hi))

theorem locates_payload (hg : p.Grounded) (hl : l.names.Nodup)
    (hr : ∀ t ∈ l.types, ReferencesLocate p t) (hd : k.Distinct)
    (hk : Json.payload? p.extraKeys c j = some (l, k))
    (h : Decode.PayloadFails p.decoder l k e) : p.Locates c j e := by
  cases h with
  | refused hx hn =>
    have hwhole : (Json.parts p.extraKeys).follow? p.get? .payload c j = some (.payload l k) := by
      simp [Parts.follow?, Json.parts, hk]
    exact locates_here hwhole hx hn
  | arity => rintro _ _ ⟨⟩
  | missing => rintro _ _ ⟨⟩
  | newtype h => exact locates_slot hg (hr _ List.mem_cons_self) hd (Parts.follow?_index hk rfl) h
  | @element ts js n t i _ ht hi h =>
    have hn : (Json.parts p.extraKeys).index? (.tuple ts) (.array js) n = some (t, i) := by
      simp [Json.parts, ht, hi]
    cases hd with
    | array hd =>
      exact locates_slot hg (hr t (List.mem_of_getElem? ht)) (hd i (List.mem_of_getElem? hi))
        (Parts.follow?_index hk hn) h
  | @member fields ms name t i _ ht hi h =>
    have hn : (Json.parts p.extraKeys).member? (.struct fields) (.object ms) name =
        some (t, i) := by
      simp [Json.parts, Members.get?_of_mem hl ht, hi]
    cases hd with
    | object _ hd =>
      exact locates_slot hg (hr t (List.mem_map_of_mem ht)) (hd _ (Members.mem_of_get? hi))
        (Parts.follow?_name hk hn) h

/-- References lead to earlier codecs, whose errors are located by induction. -/
theorem locates_definition (hg : p.Grounded) : ∀ c ∈ p.codecs, ∀ j, j.Distinct → ∀ e,
    Decode.definition p.decoder p.extraKeys c j = .error e → p.Locates c j e := by
  refine hg.induction_slots fun c hc ih => ?_
  have hdis := hg.distinct c hc
  have hp : ∀ l ∈ c.layouts, ∀ j k e, k.Distinct → Json.payload? p.extraKeys c j = some (l, k) →
      Decode.payload p.decoder l k = .error e → p.Locates c j e :=
    fun l hl j k e hk hp h =>
      locates_payload hg (hdis.members l hl) (ih l hl) hk hp (Decode.payloadFails_of_eq_error h)
  intro j hj e h
  cases c with
  | enum e =>
    intro place expected he
    subst he
    obtain ⟨ms, v, k, rfl, hv, hms, hk⟩ := Decode.choice_eq_typeMismatch (map_eq_error.mp h)
    have hpayload : Json.payload? p.extraKeys (.enum e) (.object ms) = some (v.layout, k) := by
      simp [Json.payload?, hms.ofJson_eq, hv]
    cases hj with
    | object _ hd =>
      exact hp v.layout (List.mem_map_of_mem (List.mem_of_find?_eq_some hv)) _ k _
        (hd _ hms.mem) hpayload hk place expected rfl
  | record r => exact hp r.layout List.mem_cons_self j j e hj rfl (map_eq_error.mp h)

end Locates

namespace CodecPlan

/-- The place of a mismatch leads to a slot or payload that is declared as expected, and to what the
document has there, which is something else. -/
theorem locates_of_ofSchema {s : Schema} {ir : Resolved.Schema} {ek : ExtraKeys} {name : String}
    {j : Json} {place : Location} {expected : Expected}
    (hs : Resolved.Schema.ofSchema s = .ok ir) (hj : j.Distinct)
    (h : (ofSchema ek ir).decode? name j = some (.error (.typeMismatch place expected))) :
    ∃ spot, (ofSchema ek ir).followJson? name place j = some spot ∧
      spot.expected? = some expected ∧ ¬expected.Holds spot.content := by
  have hg := grounded_ofSchema ek hs
  rw [decode?_eq hg] at h
  obtain ⟨c, hc, h⟩ := Option.map_eq_some_iff.mp h
  have hmem := ((get?_eq_some_iff hg).mp hc).1
  obtain ⟨spot, hspot, hx⟩ := locates_definition hg c hmem j hj _ h place expected rfl
  exact ⟨spot, by simpa [followJson?, hc] using hspot, hx⟩

end CodecPlan

namespace Pages

/-- A page on which the dot is a text. -/
def smudged : Json :=
  .object [("title", .string "one"), ("marks", .array [.string "Blank",
    .object [("dot", .string "x")]])]

theorem distinct_smudged : smudged.Distinct := by
  simp [smudged]

/-- The dot, within the mark that the second element of the marks refers to. -/
def smudge : Location := .nested (.element (.name "marks") 1) (.index 0)

theorem decode?_smudged : (CodecPlan.ofSchema .reject resolved).decode? "Page" smudged =
    some (.error (.typeMismatch smudge (.unsigned 8))) := rfl

end Pages

theorem CodecPlan.locates_smudged :
    (Resolved.Schema.ofSchema Pages.schema = .ok Pages.resolved ∧ Pages.smudged.Distinct ∧
      (CodecPlan.ofSchema .reject Pages.resolved).decode? "Page" Pages.smudged =
        some (.error (.typeMismatch Pages.smudge (.unsigned 8)))) ∧
    ∃ spot, (CodecPlan.ofSchema .reject Pages.resolved).followJson? "Page" Pages.smudge
        Pages.smudged = some spot ∧
      spot.expected? = some (.unsigned 8) ∧ ¬(Expected.unsigned 8).Holds spot.content :=
  ⟨⟨Pages.ofSchema_schema, Pages.distinct_smudged, Pages.decode?_smudged⟩,
    CodecPlan.locates_of_ofSchema Pages.ofSchema_schema Pages.distinct_smudged
      Pages.decode?_smudged⟩

example : (CodecPlan.ofSchema .reject Pages.resolved).followJson? "Page" Pages.smudge
    Pages.smudged = some (.slot (.unsigned .w8) (.string "x")) := rfl

end TaggedSum
