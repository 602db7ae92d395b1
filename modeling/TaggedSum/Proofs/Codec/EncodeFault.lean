import TaggedSum.Proofs.Codec.Navigation
import TaggedSum.Proofs.Codec.RoundTrip
import TaggedSum.Proofs.Codec.Trimming

namespace TaggedSum

open Outcome

namespace Location

/-- What is left of a location within the innermost definition that it enters. -/
def innermost : Location → Location
  | nested _ inner => inner.innermost
  | place => place

theorem innermost_ne_nested (place field inner : Location) :
    place.innermost ≠ nested field inner := by
  induction place with
  | nested _ inner _ ih => exact ih
  | _ => exact nofun

theorem innermost_eq_self_iff {place : Location} :
    place.innermost = place ↔ ∀ field inner, place ≠ nested field inner := by
  constructor
  · rintro h field inner rfl
    exact innermost_ne_nested _ _ _ h
  · intro h
    cases place with
    | nested field inner => exact absurd rfl (h field inner)
    | _ => rfl

end Location

/-- The slot is declared as expected and refuses the value for its kind, wherever it stands. -/
structure SlotRefuses (f : String → Option Encoder) (t : FieldType) (v : Value) (expected : String)
    (actual : Value.Kind) : Prop where
  text : t.text = expected
  kind : v.kind = actual
  refuses : ∀ place, Encode.slot f t v place = .error (.typeMismatch place expected actual)

/-- The location leads to a slot of the value that refuses what it holds. -/
def CodecPlan.Blames (p : CodecPlan) (c : Codec) (v : Value) (real : Location) (expected : String)
    (actual : Value.Kind) : Prop :=
  ∃ t u, Value.parts.follow? p.get? real c v = some (.slot t u) ∧
    SlotRefuses p.encoder t u expected actual

section Slot

variable {f : String → Option Encoder} {t : FieldType} {v : Value} {place here : Location}
  {expected : String} {actual : Value.Kind}

theorem refuses_of_mismatch (h : ∀ place, Encode.slot f t v place = Encode.mismatch t v place)
    (he : Encode.slot f t v here = .error (.typeMismatch place expected actual)) :
    place = here ∧ SlotRefuses f t v expected actual := by
  rw [h] at he
  cases he
  exact ⟨rfl, rfl, rfl, h⟩

/-- A slot of a sequence refuses its value, or what one of the elements holds is refused. -/
theorem slot_seq_eq_typeMismatch
    (h : Encode.slot f (.seq t) v here = .error (.typeMismatch place expected actual)) :
    (place = here ∧ SlotRefuses f (.seq t) v expected actual) ∨
      ∃ vs n u, v = .seq vs ∧ vs[n]? = some u ∧
        Encode.slot f t u (.element here n) = .error (.typeMismatch place expected actual) := by
  cases v with
  | seq vs =>
    obtain ⟨n, u, hu, hn⟩ := Encode.items_eq_error (map_eq_error.mp h)
    exact .inr ⟨vs, n, u, rfl, hu, by rwa [Nat.zero_add] at hn⟩
  | _ => exact .inl (refuses_of_mismatch (fun _ => rfl) h)

theorem slot_map_eq_typeMismatch
    (h : Encode.slot f (.map t) v here = .error (.typeMismatch place expected actual)) :
    (place = here ∧ SlotRefuses f (.map t) v expected actual) ∨
      ∃ es key u, v = .map es ∧ (key, u) ∈ es ∧
        Encode.slot f t u (.entry here key) = .error (.typeMismatch place expected actual) := by
  cases v with
  | map es =>
    obtain ⟨key, u, hu, hw⟩ := Encode.entries_eq_error (map_eq_error.mp h)
    exact .inr ⟨es, key, u, rfl, hu, hw⟩
  | _ => exact .inl (refuses_of_mismatch (fun _ => rfl) h)

end Slot

section Blames

variable {p : CodecPlan} {c d : Codec} {v u : Value} {place here : Location} {expected : String}
  {actual : Value.Kind} {t : FieldType} {l : Layout} {b : Payload Value}

/-- A definition refuses a value at the place that it is given, as a reference to it does, or blames
one of its slots, and then reports only the innermost part of the way there. -/
def CodecPlan.DefinitionBlames (p : CodecPlan) (d : Codec) : Prop :=
  ∀ v, v.Ordered → ∀ here place expected actual,
    Encode.definition p.encoder d v here = .error (.typeMismatch place expected actual) →
      (place = here ∧ SlotRefuses p.encoder (.reference d.name) v expected actual) ∨
        ∃ real, p.Blames d v real expected actual ∧ real.innermost = place

theorem blames_here (hplain : here.innermost = here)
    (hu : Value.parts.follow? p.get? here c v = some (.slot t u))
    (h : place = here ∧ SlotRefuses p.encoder t u expected actual) :
    ∃ real, p.Blames c v real expected actual ∧ real.innermost = place :=
  ⟨here, ⟨t, u, hu, h.2⟩, hplain.trans h.1.symm⟩

theorem blames_slot (hg : p.Grounded) (hr : ∀ r, t.reference? = some r → ∀ d, p.get? r = some d →
      p.DefinitionBlames d) (ho : u.Ordered) (hplain : here.innermost = here)
    (hu : Value.parts.follow? p.get? here c v = some (.slot t u))
    (h : Encode.slot p.encoder t u here = .error (.typeMismatch place expected actual)) :
    ∃ real, p.Blames c v real expected actual ∧ real.innermost = place := by
  induction t generalizing u here with
  | string =>
    cases u with
    | string s => cases h
    | _ => exact blames_here hplain hu (refuses_of_mismatch (fun _ => rfl) h)
  | bool =>
    cases u with
    | bool b => cases h
    | _ => exact blames_here hplain hu (refuses_of_mismatch (fun _ => rfl) h)
  | signed w =>
    cases u with
    | signed n =>
      by_cases hn : w.fitsSigned n
      · simp only [Encode.slot, if_pos hn] at h
        cases h
      · refine blames_here hplain hu (refuses_of_mismatch (fun _ => ?_) h)
        simp only [Encode.slot, if_neg hn]
    | _ => exact blames_here hplain hu (refuses_of_mismatch (fun _ => rfl) h)
  | unsigned w =>
    cases u with
    | unsigned n =>
      by_cases hn : w.fitsUnsigned n
      · simp only [Encode.slot, if_pos hn] at h
        cases h
      · refine blames_here hplain hu (refuses_of_mismatch (fun _ => ?_) h)
        simp only [Encode.slot, if_neg hn]
    | _ => exact blames_here hplain hu (refuses_of_mismatch (fun _ => rfl) h)
  | reference name =>
    cases hget : p.get? name with
    | none =>
      simp only [Encode.slot, CodecPlan.encoder_eq hg, hget, Option.map_none] at h
      cases h
    | some d =>
      simp only [Encode.slot, CodecPlan.encoder_of_get? hg hget] at h
      obtain rfl := ((CodecPlan.get?_eq_some_iff hg).mp hget).2
      rcases hr _ rfl d hget u ho here place expected actual h with hd | ⟨real, hd, hp⟩
      · exact blames_here hplain hu hd
      · -- the place of the reference leads on to the slot, but is not reported
        obtain ⟨t, x, hx, hrefuses⟩ := hd
        exact ⟨.nested here real,
          ⟨t, x, (Parts.follow?_nested real hu hget).trans hx, hrefuses⟩, hp⟩
  | seq item ih =>
    rcases slot_seq_eq_typeMismatch h with h | ⟨vs, n, x, rfl, hx, h⟩
    · exact blames_here hplain hu h
    · cases ho with
      | seq ho =>
        exact ih hr (ho x (List.mem_of_getElem? hx)) rfl (Parts.follow?_element hu hx) h
  | map entry ih =>
    rcases slot_map_eq_typeMismatch h with h | ⟨es, key, x, rfl, hx, h⟩
    · exact blames_here hplain hu h
    · cases ho with
      | map hasc ho =>
        exact ih hr (ho _ hx) rfl
          (Parts.follow?_entry hu (Members.get?_of_mem hasc.nodup hx)) h

theorem blames_payload (hg : p.Grounded) (hl : l.names.Nodup) (hr : ∀ t ∈ l.types, ∀ r,
      t.reference? = some r → ∀ d, p.get? r = some d → p.DefinitionBlames d) (ho : b.Ordered)
    (hb : Value.parts.payload? c v = some (l, b)) {owner : String}
    (h : Encode.payload p.encoder owner l b = .error (.typeMismatch place expected actual)) :
    ∃ real, p.Blames c v real expected actual ∧ real.innermost = place := by
  cases l with
  | unit => cases b <;> cases h
  | newtype t =>
    cases b with
    | newtype u =>
      cases ho with
      | newtype ho =>
        exact blames_slot hg (hr t List.mem_cons_self) ho rfl (Parts.follow?_index hb rfl) h
    | _ => cases h
  | tuple ts =>
    cases b with
    | tuple vs =>
      simp only [Encode.payload] at h
      split at h
      · obtain ⟨n, t, u, ht, hu, h⟩ := Encode.elements_eq_error (map_eq_error.mp h)
        rw [Nat.zero_add] at h
        have hn : Value.parts.index? (.tuple ts) (.tuple vs) n = some (t, u) := by
          simp [Value.parts, ht, hu]
        cases ho with
        | tuple ho =>
          exact blames_slot hg (hr t (List.mem_of_getElem? ht)) (ho u (List.mem_of_getElem? hu))
            rfl (Parts.follow?_index hb hn) h
      · cases h
    | _ => cases h
  | struct fields =>
    cases b with
    | struct values =>
      rcases Encode.members_eq_error (map_eq_error.mp h) with ⟨name, he⟩ | ⟨name, t, u, ht, hu, h⟩
      · cases he
      · have hn : Value.parts.member? (.struct fields) (.struct values) name = some (t, u) := by
          simp [Value.parts, Members.get?_of_mem hl ht, hu]
        cases ho with
        | struct _ ho =>
          exact blames_slot hg (hr t (List.mem_map_of_mem ht)) (ho _ (Members.mem_of_get? hu)) rfl
            (Parts.follow?_name hb hn) h
    | _ => cases h

theorem slotRefuses_reference (hg : p.Grounded) (hget : p.get? d.name = some d)
    (h : ∀ place, Encode.definition p.encoder d v place =
      .error (.typeMismatch place d.name v.kind))
    (he : Encode.definition p.encoder d v here = .error (.typeMismatch place expected actual)) :
    place = here ∧ SlotRefuses p.encoder (.reference d.name) v expected actual := by
  rw [h] at he
  cases he
  refine ⟨rfl, rfl, rfl, fun place => ?_⟩
  simp only [Encode.slot, CodecPlan.encoder_of_get? hg hget, h]

theorem blames_definition (hg : p.Grounded) : ∀ c ∈ p.codecs, p.DefinitionBlames c := by
  refine hg.induction_slots fun c hc ih => ?_
  have hget : p.get? c.name = some c := (CodecPlan.get?_eq_some_iff hg).mpr ⟨hc, rfl⟩
  have hdis := hg.distinct c hc
  intro v ho here place expected actual h
  cases c with
  | enum e =>
    cases v with
    | variant a =>
      obtain ⟨w, hw, hp⟩ := Encode.choice_eq_typeMismatch h
      have hmem : w.layout ∈ (Codec.enum e).layouts :=
        List.mem_map_of_mem (List.mem_of_find?_eq_some hw)
      have hb : Value.parts.payload? (.enum e) (.variant a) = some (w.layout, a.payload) := by
        simp [Value.parts, hw]
      cases ho with
      | variant ho =>
        exact .inr (blames_payload hg (hdis.members _ hmem) (ih _ hmem) ho hb hp)
    | _ => exact .inl (slotRefuses_reference hg hget (fun _ => rfl) h)
  | record r =>
    cases v with
    | record a =>
      cases ho with
      | record ho =>
        exact .inr (blames_payload hg (hdis.members _ List.mem_cons_self)
          (ih _ List.mem_cons_self) ho rfl h)
    | _ => exact .inl (slotRefuses_reference hg hget (fun _ => rfl) h)

end Blames

namespace CodecPlan

/-- A mismatch arises at a slot that refuses what it holds. The place that is reported leads there
from the definition that the way to the slot enters last: from the value itself only if the way
enters no other definition. -/
theorem blames_of_ofSchema {s : Schema} {ir : Resolved.Schema} {ek : ExtraKeys} {name : String}
    {v : Value} {place : Location} {expected : String} {actual : Value.Kind}
    (hs : Resolved.Schema.ofSchema s = .ok ir) (ho : v.Ordered)
    (h : (ofSchema ek ir).encode name v = .error (.typeMismatch place expected actual)) :
    ∃ real t u, (ofSchema ek ir).followValue? name real v = some (.slot t u) ∧
      SlotRefuses (ofSchema ek ir).encoder t u expected actual ∧ real.innermost = place ∧
      (real = place ↔ ∀ field inner, real ≠ .nested field inner) := by
  have hg := grounded_ofSchema ek hs
  cases hget : (ofSchema ek ir).get? name with
  | none =>
    have hnone := encoder_eq_none hg hget
    rw [encoder] at hnone
    simp only [encode, hnone] at h
    cases h
  | some c =>
    obtain ⟨hc, rfl⟩ := (get?_eq_some_iff hg).mp hget
    rw [encode_eq hg hget] at h
    have hreal : ∃ real, (ofSchema ek ir).Blames c v real expected actual ∧
        real.innermost = place := by
      rcases blames_definition hg c hc v ho _ _ _ _ h with ⟨rfl, hr⟩ | hb
      · exact ⟨.payload, ⟨_, v, rfl, hr⟩, rfl⟩
      · exact hb
    obtain ⟨real, ⟨t, u, hu, hr⟩, hp⟩ := hreal
    refine ⟨real, t, u, by simpa [followValue?, hget] using hu, hr, hp, ?_⟩
    rw [← Location.innermost_eq_self_iff, hp, eq_comm]

end CodecPlan

namespace Pages

/-- A page on which the dot is a text. -/
def blotted : Value :=
  .record (.struct [("marks", .seq [.variant ⟨"dot", .newtype (.string "x")⟩]),
    ("title", .string "one")])

theorem ordered_blotted : blotted.Ordered := by
  have hdot : Value.Ordered (.variant ⟨"dot", .newtype (.string "x")⟩) :=
    .variant (.newtype (.string "x"))
  refine .record (.struct ?_ ?_)
  · rw [Members.Ascending]
    decide
  · intro m hm
    rcases List.mem_pair.mp hm with rfl | rfl
    · exact .seq fun v hv => List.mem_singleton.mp hv ▸ hdot
    · exact .string "one"

theorem encode_blotted : (CodecPlan.ofSchema .reject resolved).encode "Page" blotted =
    .error (.typeMismatch (.index 0) "u8" .string) := rfl

end Pages

theorem CodecPlan.blames_blotted :
    (Resolved.Schema.ofSchema Pages.schema = .ok Pages.resolved ∧ Pages.blotted.Ordered ∧
      (CodecPlan.ofSchema .reject Pages.resolved).encode "Page" Pages.blotted =
        .error (.typeMismatch (.index 0) "u8" .string)) ∧
    ∃ real t u, (CodecPlan.ofSchema .reject Pages.resolved).followValue? "Page" real
        Pages.blotted = some (.slot t u) ∧
      SlotRefuses (CodecPlan.ofSchema .reject Pages.resolved).encoder t u "u8" .string ∧
      real.innermost = .index 0 ∧ (real = .index 0 ↔ ∀ field inner, real ≠ .nested field inner) :=
  ⟨⟨Pages.ofSchema_schema, Pages.ordered_blotted, Pages.encode_blotted⟩,
    CodecPlan.blames_of_ofSchema Pages.ofSchema_schema Pages.ordered_blotted
      Pages.encode_blotted⟩

/-- The text is in the dot of the first mark, and a page has no place that is reported for it. -/
theorem CodecPlan.followValue?_blotted :
    Resolved.Schema.ofSchema Pages.schema = .ok Pages.resolved ∧ Pages.blotted.Ordered ∧
      (CodecPlan.ofSchema .reject Pages.resolved).encode "Page" Pages.blotted =
        .error (.typeMismatch (.index 0) "u8" .string) ∧
      (CodecPlan.ofSchema .reject Pages.resolved).followValue? "Page" (.index 0) Pages.blotted =
        none ∧
      (CodecPlan.ofSchema .reject Pages.resolved).followValue? "Page"
        (.nested (.element (.name "marks") 0) (.index 0)) Pages.blotted =
          some (.slot (.unsigned .w8) (.string "x")) :=
  ⟨Pages.ofSchema_schema, Pages.ordered_blotted, Pages.encode_blotted, rfl, rfl⟩

end TaggedSum
