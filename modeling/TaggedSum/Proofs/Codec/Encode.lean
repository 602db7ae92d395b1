import TaggedSum.Codec.Encode
import TaggedSum.Proofs.Codec.Plan
import TaggedSum.Proofs.Lists
import TaggedSum.Proofs.Outcome

namespace TaggedSum

open Outcome

namespace Encode

variable {f g : String → Option Encoder} {l : Layout} {c : Codec}

section Lists

variable {write : Encoder} {place : Location}

theorem items_of_forall₂ {vs : List Value} {js : List Json}
    (h : List.Forall₂ (fun v j => ∀ place, write v place = .ok j) vs js) (i : Nat) :
    items write place i vs = .ok js := by
  induction h generalizing i with
  | nil => rfl
  | cons h _ ih => simp only [items, h, ih, ok_bind, pure_def]

theorem forall₂_of_items {vs : List Value} {js : List Json} {i : Nat}
    (h : items write place i vs = .ok js) :
    List.Forall₂ (fun v j => ∃ place, write v place = .ok j) vs js := by
  induction vs generalizing i js with
  | nil =>
    cases h
    exact .nil
  | cons v vs ih =>
    simp only [items, bind_eq_ok, pure_def] at h
    obtain ⟨j, hj, js, hjs, h⟩ := h
    cases h
    exact .cons ⟨_, hj⟩ (ih hjs)

theorem entries_of_related {es : List (String × Value)} {ms : List (String × Json)}
    (h : Members.Related (fun v j => ∀ place, write v place = .ok j) es ms) :
    entries write place es = .ok ms := by
  induction h with
  | nil => rfl
  | cons h _ ih => simp only [entries, h.2, ih, ok_bind, pure_def, h.1]

theorem related_of_entries {es : List (String × Value)} {ms : List (String × Json)}
    (h : entries write place es = .ok ms) :
    Members.Related (fun v j => ∃ place, write v place = .ok j) es ms := by
  induction es generalizing ms with
  | nil =>
    cases h
    exact .nil
  | cons e es ih =>
    simp only [entries, bind_eq_ok, pure_def] at h
    obtain ⟨j, hj, ms, hms, h⟩ := h
    cases h
    exact .cons ⟨rfl, _, hj⟩ (ih hms)

theorem getElem?_of_elements {ts : List FieldType} {vs : List Value} {js : List Json} {i : Nat}
    (hl : ts.length = vs.length) (h : elements f i ts vs = .ok js) :
    ts.length = js.length ∧ ∀ (n : Nat) (t : FieldType), ts[n]? = some t →
      ∃ v j place, vs[n]? = some v ∧ js[n]? = some j ∧ slot f t v place = .ok j := by
  induction ts generalizing i vs js with
  | nil =>
    cases h
    exact ⟨rfl, fun n t ht => by simp at ht⟩
  | cons t ts ih =>
    cases vs with
    | nil => cases hl
    | cons v vs =>
      simp only [elements, bind_eq_ok, pure_def] at h
      obtain ⟨j, hj, js, hjs, h⟩ := h
      cases h
      obtain ⟨hlen, hall⟩ := ih (Nat.succ.inj hl) hjs
      refine ⟨congrArg Nat.succ hlen, ?_⟩
      intro n t' ht
      cases n with
      | zero =>
        cases ht
        exact ⟨v, j, _, rfl, rfl, hj⟩
      | succ n => exact hall n t' ht

theorem get?_of_members {values : List (String × Value)} {fields : List (String × FieldType)}
    {ms : List (String × Json)} (h : members f values fields = .ok ms) :
    Members.names ms = Members.names fields ∧ ∀ name t, (name, t) ∈ fields →
      ∃ v j place, Members.get? name values = some v ∧ (name, j) ∈ ms ∧
        slot f t v place = .ok j := by
  induction fields generalizing ms with
  | nil =>
    cases h
    exact ⟨rfl, fun _ _ h => by cases h⟩
  | cons m fields ih =>
    cases hv : Members.get? m.1 values with
    | none => simp [members, hv] at h
    | some v =>
      simp only [members, hv, bind_eq_ok, pure_def] at h
      obtain ⟨j, hj, ms, hms, h⟩ := h
      cases h
      obtain ⟨hn, hall⟩ := ih hms
      refine ⟨by rw [Members.names_cons, hn, Members.names_cons], ?_⟩
      intro name t hm
      rcases List.mem_cons.mp hm with rfl | hm
      · exact ⟨v, j, _, hv, List.mem_cons_self, hj⟩
      · obtain ⟨v, j, place, hv, hmem, hj⟩ := hall name t hm
        exact ⟨v, j, place, hv, List.mem_cons_of_mem _ hmem, hj⟩

theorem items_eq {vs us : List Value}
    (h : List.Forall₂ (fun v u => ∀ place, write v place = write u place) vs us) (i : Nat) :
    items write place i vs = items write place i us := by
  induction h generalizing i with
  | nil => rfl
  | cons h _ ih => simp only [items, h, ih]

theorem entries_eq {es us : List (String × Value)}
    (h : Members.Related (fun v u => ∀ place, write v place = write u place) es us) :
    entries write place es = entries write place us := by
  induction h with
  | nil => rfl
  | cons h _ ih => simp only [entries, h.1, h.2, ih]

theorem elements_eq {ts : List FieldType} {vs us : List Value} (hl : ts.length = vs.length)
    (hl' : ts.length = us.length)
    (h : ∀ (n : Nat) (t : FieldType) (v u : Value), ts[n]? = some t → vs[n]? = some v →
      us[n]? = some u → ∀ place, slot f t v place = slot f t u place) (i : Nat) :
    elements f i ts vs = elements f i ts us := by
  induction ts generalizing vs us i with
  | nil => rfl
  | cons t ts ih =>
    cases vs with
    | nil => cases hl
    | cons v vs =>
      cases us with
      | nil => cases hl'
      | cons u us =>
        have hrest := ih (Nat.succ.inj hl) (Nat.succ.inj hl') (fun n => h (n + 1)) (i + 1)
        simp only [elements, h 0 t v u rfl rfl rfl, hrest]

theorem members_eq {fields : List (String × FieldType)} {values us : List (String × Value)}
    (h : ∀ name t, (name, t) ∈ fields → ∃ v u, Members.get? name values = some v ∧
      Members.get? name us = some u ∧ ∀ place, slot f t v place = slot f t u place) :
    members f values fields = members f us fields := by
  induction fields with
  | nil => rfl
  | cons m fields ih =>
    obtain ⟨v, u, hv, hu, hvu⟩ := h m.1 m.2 List.mem_cons_self
    have hrest := ih fun name t hm => h name t (List.mem_cons_of_mem _ hm)
    simp only [members, hv, hu, hvu, hrest]

section Error

variable {err : EncodeError}

theorem items_eq_error {vs : List Value} {i : Nat} (h : items write place i vs = .error err) :
    ∃ n v, vs[n]? = some v ∧ write v (.element place (i + n)) = .error err := by
  induction vs generalizing i with
  | nil => cases h
  | cons v vs ih =>
    rcases bind_eq_error.mp h with hv | ⟨j, -, h⟩
    · exact ⟨0, v, rfl, hv⟩
    · rcases bind_eq_error.mp h with hvs | ⟨js, -, h⟩
      · obtain ⟨n, u, hu, hn⟩ := ih hvs
        exact ⟨n + 1, u, hu, by rwa [Nat.add_right_comm] at hn⟩
      · cases h

theorem entries_eq_error {es : List (String × Value)}
    (h : entries write place es = .error err) :
    ∃ key v, (key, v) ∈ es ∧ write v (.entry place key) = .error err := by
  induction es with
  | nil => cases h
  | cons e es ih =>
    rcases bind_eq_error.mp h with he | ⟨j, -, h⟩
    · exact ⟨e.1, e.2, List.mem_cons_self, he⟩
    · rcases bind_eq_error.mp h with hes | ⟨ms, -, h⟩
      · obtain ⟨key, v, hv, hw⟩ := ih hes
        exact ⟨key, v, List.mem_cons_of_mem _ hv, hw⟩
      · cases h

theorem elements_eq_error {ts : List FieldType} {vs : List Value} {i : Nat}
    (h : elements f i ts vs = .error err) : ∃ n t v, ts[n]? = some t ∧ vs[n]? = some v ∧
      slot f t v (.index (i + n)) = .error err := by
  induction ts generalizing i vs with
  | nil => cases h
  | cons t ts ih =>
    cases vs with
    | nil => cases h
    | cons v vs =>
      rcases bind_eq_error.mp h with hv | ⟨j, -, h⟩
      · exact ⟨0, t, v, rfl, rfl, hv⟩
      · rcases bind_eq_error.mp h with hvs | ⟨js, -, h⟩
        · obtain ⟨n, t', u, ht, hu, hn⟩ := ih hvs
          exact ⟨n + 1, t', u, ht, hu, by rwa [Nat.add_right_comm] at hn⟩
        · cases h

theorem members_eq_error {values : List (String × Value)} {fields : List (String × FieldType)}
    (h : members f values fields = .error err) :
    (∃ name, err = .missingField name) ∨ ∃ name t v, (name, t) ∈ fields ∧
      Members.get? name values = some v ∧ slot f t v (.name name) = .error err := by
  induction fields with
  | nil => cases h
  | cons m fields ih =>
    obtain ⟨name, t⟩ := m
    cases hv : Members.get? name values with
    | none =>
      simp only [members, hv, Except.error.injEq] at h
      exact .inl ⟨name, h.symm⟩
    | some v =>
      simp only [members, hv] at h
      rcases bind_eq_error.mp h with hw | ⟨j, -, h⟩
      · exact .inr ⟨name, t, v, List.mem_cons_self, hv, hw⟩
      · rcases bind_eq_error.mp h with hrest | ⟨ms, -, h⟩
        · refine (ih hrest).imp_right ?_
          rintro ⟨n, t', u, hm, hu, hw⟩
          exact ⟨n, t', u, List.mem_cons_of_mem _ hm, hu, hw⟩
        · cases h

end Error

end Lists

theorem slot_congr {t : FieldType} (h : ∀ r, t.reference? = some r → f r = g r) :
    slot f t = slot g t := by
  induction t with
  | string => rfl
  | signed w => rfl
  | unsigned w => rfl
  | bool => rfl
  | reference name =>
    funext v place
    simp only [slot, h name rfl]
  | seq item ih =>
    funext v place
    simp only [slot, ih h]
  | map entry ih =>
    funext v place
    simp only [slot, ih h]

theorem elements_congr {ts : List FieldType} (h : ∀ t ∈ ts, slot f t = slot g t) (i : Nat)
    (vs : List Value) : elements f i ts vs = elements g i ts vs := by
  induction ts generalizing i vs with
  | nil => rfl
  | cons t ts ih =>
    obtain ⟨ht, hts⟩ := List.forall_mem_cons.mp h
    cases vs with
    | nil => rfl
    | cons v vs => simp only [elements, ht, ih hts]

theorem members_congr {fields : List (String × FieldType)}
    (h : ∀ t ∈ fields.map Prod.snd, slot f t = slot g t) (values : List (String × Value)) :
    members f values fields = members g values fields := by
  induction fields with
  | nil => rfl
  | cons m fields ih =>
    obtain ⟨ht, hts⟩ := List.forall_mem_cons.mp h
    simp only [members, ht, ih hts]

theorem payload_congr (h : ∀ t ∈ l.types, slot f t = slot g t) (owner : String) :
    payload f owner l = payload g owner l := by
  funext p
  cases l with
  | unit => cases p <;> rfl
  | newtype t => cases p <;> simp only [payload, h t List.mem_cons_self]
  | tuple ts =>
    have hts : ∀ t ∈ ts, slot f t = slot g t := h
    cases p <;> simp only [payload, elements_congr hts]
  | struct fields => cases p <;> simp only [payload, members_congr h]

theorem choice_bare {e : EnumCodec} {v : VariantCodec} {a : Choice Value}
    (hv : e.variant? a.tag = some v) (h : v.layout = .unit) (ha : a.payload = .unit) :
    choice f e a = .ok (.string v.tag) := by
  simp only [choice, hv, h, ha]
  rfl

/-- A payload that is not the one of its variant is refused as it is written. -/
theorem choice_wrapped {e : EnumCodec} {v : VariantCodec} {a : Choice Value}
    (hv : e.variant? a.tag = some v) (h : ¬(v.layout = .unit ∧ a.payload = .unit)) :
    choice f e a = (payload f v.tag v.layout a.payload).map fun j => .object [(v.tag, j)] := by
  simp only [choice, hv]
  split
  · exact absurd ⟨‹_›, ‹_›⟩ h
  · cases payload f v.tag v.layout a.payload <;> rfl

/-- A mismatch arises in the payload of the variant. -/
theorem choice_eq_typeMismatch {e : EnumCodec} {a : Choice Value} {place : Location}
    {expected : String} {actual : Value.Kind}
    (h : choice f e a = .error (.typeMismatch place expected actual)) :
    ∃ v, e.variant? a.tag = some v ∧
      payload f v.tag v.layout a.payload = .error (.typeMismatch place expected actual) := by
  cases hv : e.variant? a.tag with
  | none =>
    simp only [choice, hv] at h
    cases h
  | some v =>
    by_cases hb : v.layout = .unit ∧ a.payload = .unit
    · rw [choice_bare hv hb.1 hb.2] at h
      cases h
    · rw [choice_wrapped hv hb, map_eq_error] at h
      exact ⟨v, rfl, h⟩

theorem choice_congr {e : EnumCodec}
    (h : ∀ v ∈ e.variants, ∀ t ∈ v.layout.types, slot f t = slot g t) :
    choice f e = choice g e := by
  funext a
  cases hv : e.variant? a.tag with
  | none => simp only [choice, hv]
  | some v =>
    have hp := payload_congr (h v (List.mem_of_find?_eq_some hv)) v.tag
    simp only [choice, hv]
    split
    · rfl
    · rw [hp]

theorem definition_congr (h : ∀ r ∈ c.references, f r = g r) : definition f c = definition g c := by
  have hs : ∀ l ∈ c.layouts, ∀ t ∈ l.types, slot f t = slot g t := by
    intro l hl t ht
    exact slot_congr fun r hr => h r (Codec.mem_references hl ht hr)
  funext v place
  cases c with
  | enum e =>
    have he : ∀ v ∈ e.variants, ∀ t ∈ v.layout.types, slot f t = slot g t :=
      fun v hv => hs v.layout (List.mem_map_of_mem hv)
    simp only [definition, choice_congr he]
  | record r => simp only [definition, payload_congr (hs _ (List.mem_singleton_self _))]

end Encode

end TaggedSum
