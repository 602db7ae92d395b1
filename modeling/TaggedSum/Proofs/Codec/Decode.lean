import TaggedSum.Codec.Decode
import TaggedSum.Proofs.Codec.Plan
import TaggedSum.Proofs.Wire.Slot
import TaggedSum.Proofs.Wire.Tagged

namespace TaggedSum

open Outcome

namespace Decode

variable {f g : String → Option Decoder} {ek : ExtraKeys} {l : Layout} {c : Codec}

theorem slot_congr {t : FieldType} (h : ∀ r, t.reference? = some r → f r = g r) :
    slot f t = slot g t := by
  induction t with
  | string => rfl
  | signed w => rfl
  | unsigned w => rfl
  | bool => rfl
  | reference name =>
    funext j place
    simp only [slot, h name rfl]
  | seq item ih =>
    funext j place
    simp only [slot, ih h]
  | map entry ih =>
    funext j place
    simp only [slot, ih h]

theorem elements_congr {ts : List FieldType} (h : ∀ t ∈ ts, slot f t = slot g t) (i : Nat)
    (js : List Json) : elements f i ts js = elements g i ts js := by
  induction ts generalizing i js with
  | nil => rfl
  | cons t ts ih =>
    obtain ⟨ht, hts⟩ := List.forall_mem_cons.mp h
    cases js with
    | nil => rfl
    | cons j js => simp only [elements, ht, ih hts]

theorem members_congr {fields : List (String × FieldType)}
    (h : ∀ t ∈ fields.map Prod.snd, slot f t = slot g t) (object : List (String × Json)) :
    members f object fields = members g object fields := by
  induction fields with
  | nil => rfl
  | cons m fields ih =>
    obtain ⟨ht, hts⟩ := List.forall_mem_cons.mp h
    simp only [members, ht, ih hts]

theorem payload_congr (h : ∀ t ∈ l.types, slot f t = slot g t) : payload f l = payload g l := by
  funext j
  cases l with
  | unit => rfl
  | newtype t => simp only [payload, h t List.mem_cons_self]
  | tuple ts =>
    have hts : ∀ t ∈ ts, slot f t = slot g t := h
    simp only [payload, elements_congr hts]
  | struct fields => simp only [payload, members_congr h]

theorem wrapped_eq {v : VariantCodec} (h : v.layout ≠ .unit) (j : Json) :
    wrapped f v j = (payload f v.layout j).map fun a => ⟨v.tag, a⟩ := by
  unfold wrapped
  split
  · exact absurd ‹_› h
  · cases payload f v.layout j <;> rfl

theorem wrapped_congr {v : VariantCodec} (h : ∀ t ∈ v.layout.types, slot f t = slot g t) :
    wrapped f v = wrapped g v := by
  funext j
  have hp := payload_congr h
  unfold wrapped
  split
  · rfl
  · rw [hp]

theorem choice_of_error {e : EnumCodec} {j : Json} {err : DecodeError}
    (h : Tagged.ofJson ek e.tags j = .error err) : choice f ek e j = .error err := by
  simp only [choice, h, error_bind]

theorem choice_of_under {e : EnumCodec} {tag : String} {k : Json} {ms : List (String × Json)}
    (h : Tagged.Under ek e.tags tag k ms) : choice f ek e (.object ms) =
      match e.variant? tag with
      | some v => wrapped f v k
      | none => .error (.unknownVariantTag tag) := by
  simp only [choice, h.ofJson_eq, ok_bind]
  rfl

/-- A choice is read from a bare tag, or from a payload under a tag. -/
theorem choice_eq_ok {e : EnumCodec} {j : Json} {a : Choice Value}
    (h : choice f ek e j = .ok a) :
    (∃ v ∈ e.variants, v.layout = .unit ∧ j = .string v.tag ∧ a = ⟨v.tag, .unit⟩) ∨
      ∃ v ∈ e.variants, v.layout ≠ .unit ∧ ∃ ms k x, j = .object ms ∧
        Tagged.Under ek e.tags v.tag k ms ∧ payload f v.layout k = .ok x ∧ a = ⟨v.tag, x⟩ := by
  obtain ⟨tagged, ht, hc⟩ := bind_eq_ok.mp h
  cases tagged with
  | bare tag =>
    by_cases hu : e.units.contains tag
    · simp only [hu, if_true, pure_def, Except.ok.injEq] at hc
      obtain ⟨v, hv, hl, rfl⟩ := EnumCodec.mem_units_iff.mp (List.contains_iff_mem.mp hu)
      exact .inl ⟨v, hv, hl, Tagged.ofJson_eq_bare ht, hc.symm⟩
    · simp only [hu, throw_def, reduceCtorEq, if_false] at hc
  | wrapped tag k =>
    obtain ⟨ms, rfl, hms⟩ := Tagged.ofJson_eq_wrapped ht
    cases hv : e.variant? tag with
    | none => simp [hv] at hc
    | some v =>
      simp only [hv] at hc
      obtain rfl : v.tag = tag := by simpa using List.find?_some hv
      by_cases hl : v.layout = .unit
      · simp [wrapped, hl] at hc
      · simp only [wrapped_eq hl, map_eq_ok] at hc
        obtain ⟨x, hx, rfl⟩ := hc
        exact .inr ⟨v, List.mem_of_find?_eq_some hv, hl, ms, k, x, rfl, hms, hx, rfl⟩

theorem choice_congr {e : EnumCodec}
    (h : ∀ v ∈ e.variants, ∀ t ∈ v.layout.types, slot f t = slot g t) :
    choice f ek e = choice g ek e := by
  have hw : ∀ v ∈ e.variants, wrapped f v = wrapped g v := fun v hv => wrapped_congr (h v hv)
  funext j
  simp only [choice]
  congr 1
  funext tagged
  cases tagged with
  | bare tag => rfl
  | wrapped tag j =>
    cases hv : e.variant? tag with
    | none => simp only [hv]
    | some v => simp only [hv, hw v (List.mem_of_find?_eq_some hv)]

theorem definition_congr (h : ∀ r ∈ c.references, f r = g r) :
    definition f ek c = definition g ek c := by
  have hs : ∀ l ∈ c.layouts, ∀ t ∈ l.types, slot f t = slot g t := by
    intro l hl t ht
    exact slot_congr fun r hr => h r (Codec.mem_references hl ht hr)
  funext j
  cases c with
  | enum e =>
    have he : ∀ v ∈ e.variants, ∀ t ∈ v.layout.types, slot f t = slot g t :=
      fun v hv => hs v.layout (List.mem_map_of_mem hv)
    simp only [definition, choice_congr he]
  | record r => simp only [definition, payload_congr (hs _ (List.mem_singleton_self _))]

theorem getElem?_of_elements {ts : List FieldType} {js : List Json} {vs : List Value} {i : Nat}
    (hl : ts.length = js.length) (h : elements f i ts js = .ok vs) :
    ts.length = vs.length ∧ ∀ (n : Nat) (t : FieldType), ts[n]? = some t →
      ∃ j v place, js[n]? = some j ∧ vs[n]? = some v ∧ slot f t j place = .ok v := by
  induction ts generalizing i js vs with
  | nil =>
    cases h
    exact ⟨rfl, fun n t ht => by simp at ht⟩
  | cons t ts ih =>
    cases js with
    | nil => cases hl
    | cons j js =>
      simp only [elements, bind_eq_ok, pure_def] at h
      obtain ⟨v, hv, vs, hvs, h⟩ := h
      cases h
      obtain ⟨hlen, hall⟩ := ih (Nat.succ.inj hl) hvs
      refine ⟨congrArg Nat.succ hlen, ?_⟩
      intro n t' ht
      cases n with
      | zero =>
        cases ht
        exact ⟨j, v, _, rfl, rfl, hv⟩
      | succ n => exact hall n t' ht

theorem get?_of_members {object : List (String × Json)} {fields : List (String × FieldType)}
    {vs : List (String × Value)} (h : members f object fields = .ok vs) :
    Members.names vs = Members.names fields ∧ ∀ name t, (name, t) ∈ fields →
      ∃ j v place, Members.get? name object = some j ∧ (name, v) ∈ vs ∧
        slot f t j place = .ok v := by
  induction fields generalizing vs with
  | nil =>
    cases h
    exact ⟨rfl, fun _ _ h => by cases h⟩
  | cons m fields ih =>
    simp only [members, bind_eq_ok, pure_def] at h
    obtain ⟨j, hj, v, hv, vs, hvs, h⟩ := h
    cases h
    obtain ⟨hn, hall⟩ := ih hvs
    refine ⟨by rw [Members.names_cons, hn, Members.names_cons], ?_⟩
    intro name t hm
    rcases List.mem_cons.mp hm with rfl | hm
    · exact ⟨j, v, _, Slot.field_eq_ok_iff.mp hj, List.mem_cons_self, hv⟩
    · obtain ⟨j, v, place, hj, hmem, hv⟩ := hall name t hm
      exact ⟨j, v, place, hj, List.mem_cons_of_mem _ hmem, hv⟩

end Decode

end TaggedSum
