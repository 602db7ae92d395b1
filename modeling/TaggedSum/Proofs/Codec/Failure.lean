import TaggedSum.Proofs.Codec.Decode

namespace TaggedSum

open Outcome

/-- What a slot of the type has to hold; a reference may hold anything. -/
def FieldType.expected? : FieldType → Option Expected
  | .string => some .string
  | .signed w => some (.signed w.bits)
  | .unsigned w => some (.unsigned w.bits)
  | .bool => some .boolean
  | .reference _ => none
  | .seq _ => some .array
  | .map _ => some .object

def Layout.expected? : Layout → Option Expected
  | .unit => some .null
  | .newtype _ => none
  | .tuple _ => some .array
  | .struct _ => some .object

namespace Decode

/-- A slot refuses what it holds, or the error comes from what it refers to or contains. -/
inductive SlotFails (f : String → Option Decoder) :
    FieldType → Json → Location → DecodeError → Prop where
  | refused {t j place expected} (hx : t.expected? = some expected) (hn : ¬expected.Holds j) :
    SlotFails f t j place (.typeMismatch place expected)
  | unresolved {name j place} (hf : f name = none) :
    SlotFails f (.reference name) j place .unrecognizedShape
  | within {name d j place e} (hf : f name = some d) (h : d j = .error e) :
    SlotFails f (.reference name) j place (e.within place)
  | element {item js n j place e} (hj : js[n]? = some j)
    (h : SlotFails f item j (.element place n) e) : SlotFails f (.seq item) (.array js) place e
  | entry {entry ms key j place e} (hj : (key, j) ∈ ms)
    (h : SlotFails f entry j (.entry place key) e) : SlotFails f (.map entry) (.object ms) place e

/-- A payload is refused as a whole, lacks a member, or has a slot that fails. -/
inductive PayloadFails (f : String → Option Decoder) : Layout → Json → DecodeError → Prop where
  | refused {l j expected} (hx : l.expected? = some expected) (hn : ¬expected.Holds j) :
    PayloadFails f l j (.typeMismatch .payload expected)
  | arity (ts : List FieldType) (js : List Json) :
    PayloadFails f (.tuple ts) (.array js) (.arityMismatch ts.length js.length)
  | missing {fields ms} (name : String) :
    PayloadFails f (.struct fields) (.object ms) (.missingField name)
  | newtype {t j e} (h : SlotFails f t j (.index 0) e) : PayloadFails f (.newtype t) j e
  | element {ts js n t j e} (ht : ts[n]? = some t) (hj : js[n]? = some j)
    (h : SlotFails f t j (.index n) e) : PayloadFails f (.tuple ts) (.array js) e
  | member {fields ms name t j e} (ht : (name, t) ∈ fields) (hj : Members.get? name ms = some j)
    (h : SlotFails f t j (.name name) e) : PayloadFails f (.struct fields) (.object ms) e

variable {f : String → Option Decoder} {ek : ExtraKeys} {e : DecodeError} {j : Json} {t : FieldType}
  {l : Layout} {place : Location}

theorem slotFails_of_eq_error (h : slot f t j place = .error e) : SlotFails f t j place e := by
  induction t generalizing j place with
  | string =>
    obtain ⟨hn, rfl⟩ := Slot.string_eq_error (map_eq_error.mp h)
    exact .refused rfl hn
  | bool =>
    obtain ⟨hn, rfl⟩ := Slot.bool_eq_error (map_eq_error.mp h)
    exact .refused rfl hn
  | signed w =>
    obtain ⟨hn, rfl⟩ := Slot.signed_eq_error (map_eq_error.mp h)
    exact .refused rfl hn
  | unsigned w =>
    obtain ⟨hn, rfl⟩ := Slot.unsigned_eq_error (map_eq_error.mp h)
    exact .refused rfl hn
  | reference name =>
    cases hf : f name with
    | none =>
      simp only [slot, hf] at h
      cases h
      exact .unresolved hf
    | some d =>
      simp only [slot, hf, mapError_eq_error] at h
      obtain ⟨e, he, rfl⟩ := h
      exact .within hf he
  | seq item ih =>
    rcases Slot.seq_eq_error (map_eq_error.mp h) with ⟨hn, rfl⟩ | ⟨js, n, i, rfl, hi, he⟩
    · exact .refused rfl hn
    · exact .element hi (ih he)
  | map entry ih =>
    rcases Slot.map_eq_error (map_eq_error.mp h) with ⟨hn, rfl⟩ | ⟨ms, key, i, rfl, hi, he⟩
    · exact .refused rfl hn
    · exact .entry hi (ih he)

theorem elements_eq_error {ts : List FieldType} {js : List Json} {i : Nat} {err : DecodeError}
    (h : elements f i ts js = .error err) : ∃ n t j, ts[n]? = some t ∧ js[n]? = some j ∧
      slot f t j (.index (i + n)) = .error err := by
  induction ts generalizing i js with
  | nil => cases h
  | cons t ts ih =>
    cases js with
    | nil => cases h
    | cons j js =>
      rcases bind_eq_error.mp h with hj | ⟨v, -, h⟩
      · exact ⟨0, t, j, rfl, rfl, hj⟩
      · rcases bind_eq_error.mp h with hjs | ⟨vs, -, h⟩
        · obtain ⟨n, u, k, hu, hk, hn⟩ := ih hjs
          exact ⟨n + 1, u, k, hu, hk, by rwa [Nat.add_right_comm] at hn⟩
        · cases h

theorem members_eq_error {object : List (String × Json)} {fields : List (String × FieldType)}
    {err : DecodeError} (h : members f object fields = .error err) :
    (∃ name, err = .missingField name) ∨ ∃ name t j, (name, t) ∈ fields ∧
      Members.get? name object = some j ∧ slot f t j (.name name) = .error err := by
  induction fields with
  | nil => cases h
  | cons m fields ih =>
    obtain ⟨name, t⟩ := m
    rcases bind_eq_error.mp h with hj | ⟨j, hj, h⟩
    · exact .inl ⟨name, Slot.field_eq_error hj⟩
    · rcases bind_eq_error.mp h with hv | ⟨v, -, h⟩
      · exact .inr ⟨name, t, j, List.mem_cons_self, Slot.field_eq_ok_iff.mp hj, hv⟩
      · rcases bind_eq_error.mp h with hvs | ⟨vs, -, h⟩
        · refine (ih hvs).imp_right ?_
          rintro ⟨n, u, k, hm, hk, hn⟩
          exact ⟨n, u, k, List.mem_cons_of_mem _ hm, hk, hn⟩
        · cases h

theorem payloadFails_of_eq_error (h : payload f l j = .error e) : PayloadFails f l j e := by
  cases l with
  | unit =>
    obtain ⟨hn, rfl⟩ := Slot.null_eq_error (map_eq_error.mp h)
    exact .refused rfl hn
  | newtype t => exact .newtype (slotFails_of_eq_error (map_eq_error.mp h))
  | tuple ts =>
    rcases bind_eq_error.mp h with ha | ⟨js, ha, hrest⟩
    · rcases Slot.array_eq_error ha with ⟨hn, rfl⟩ | ⟨js, rfl, rfl⟩
      · exact .refused rfl hn
      · exact .arity ts js
    · obtain ⟨rfl, -⟩ := Slot.array_eq_ok_iff.mp ha
      rcases bind_eq_error.mp hrest with hes | ⟨vs, -, hnone⟩
      · obtain ⟨n, t, i, ht, hi, he⟩ := elements_eq_error hes
        rw [Nat.zero_add] at he
        exact .element ht hi (slotFails_of_eq_error he)
      · cases hnone
  | struct fields =>
    rcases bind_eq_error.mp h with ho | ⟨ms, ho, hrest⟩
    · obtain ⟨hn, rfl⟩ := Slot.object_eq_error ho
      exact .refused rfl hn
    · obtain rfl := Slot.object_eq_ok_iff.mp ho
      rcases bind_eq_error.mp hrest with hms | ⟨vs, -, hnone⟩
      · rcases members_eq_error hms with ⟨name, rfl⟩ | ⟨name, t, i, ht, hi, he⟩
        · exact .missing name
        · exact .member ht hi (slotFails_of_eq_error he)
      · cases hnone

/-- A mismatch arises in the payload under the tag. -/
theorem choice_eq_typeMismatch {e : EnumCodec} {j : Json} {place : Location} {expected : Expected}
    (h : choice f ek e j = .error (.typeMismatch place expected)) :
    ∃ ms v k, j = .object ms ∧ e.variant? v.tag = some v ∧ Tagged.Under ek e.tags v.tag k ms ∧
      payload f v.layout k = .error (.typeMismatch place expected) := by
  rcases bind_eq_error.mp h with ht | ⟨tagged, ht, hc⟩
  · cases Tagged.ofJson_eq_error ht
  · cases tagged with
    | bare tag =>
      simp only [pure_def, throw_def] at hc
      split at hc <;> cases hc
    | wrapped tag k =>
      obtain ⟨ms, rfl, hms⟩ := Tagged.ofJson_eq_wrapped ht
      cases hv : e.variant? tag with
      | none => simp [hv] at hc
      | some v =>
        simp only [hv] at hc
        obtain rfl : v.tag = tag := by simpa using List.find?_some hv
        by_cases hl : v.layout = .unit
        · simp [wrapped, hl] at hc
        · rw [wrapped_eq hl, map_eq_error] at hc
          exact ⟨ms, v, k, rfl, hv, hms, hc⟩

end Decode

end TaggedSum
