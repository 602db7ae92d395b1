import TaggedSum.Proofs.Codec.Lookup

namespace TaggedSum

/-- A relation between outcomes that holds of two runs if it holds step by step. -/
structure Comparison where
  rel {α : Type} : Except DecodeError α → Except DecodeError α → Prop
  refl {α : Type} (x : Except DecodeError α) : rel x x
  bind {α β : Type} {x y : Except DecodeError α} {f g : α → Except DecodeError β} :
    rel x y → (∀ a, rel (f a) (g a)) → rel (x >>= f) (y >>= g)
  within {α : Type} {x y : Except DecodeError α} (place : Location) :
    rel x y → rel (x.mapError (.within place)) (y.mapError (.within place))

namespace Comparison

open Outcome

/-- The same value or the same error. -/
def equal : Comparison where
  rel x y := x = y
  refl _ := rfl
  bind h h' := by rw [h, funext h']
  within _ h := by rw [h]

variable {C : Comparison} {α β : Type}

theorem map {x y : Except DecodeError α} (h : C.rel x y) (f : α → β) :
    C.rel (x.map f) (y.map f) := by
  have hm (z : Except DecodeError α) : z.map f = z >>= fun a => .ok (f a) := by cases z <;> rfl
  rw [hm, hm]
  exact C.bind h fun a => C.refl _

section Lists

variable {read read' : Json → Location → Except DecodeError α} {place : Location}

theorem items {js js' : List Json}
    (h : List.Forall₂ (fun j j' => ∀ place, C.rel (read j place) (read' j' place)) js js')
    (i : Nat) : C.rel (Slot.items read place i js) (Slot.items read' place i js') := by
  induction h generalizing i with
  | nil => exact C.refl _
  | cons h _ ih =>
    simp only [Slot.items]
    exact C.bind (h _) fun a => C.bind (ih (i + 1)) fun as => C.refl _

theorem entries {ms ms' : List (String × Json)}
    (h : Members.Related (fun j j' => ∀ place, C.rel (read j place) (read' j' place)) ms ms') :
    C.rel (Slot.entries read place ms) (Slot.entries read' place ms') := by
  induction h with
  | nil => exact C.refl _
  | @cons m m' _ _ h _ ih =>
    obtain ⟨key, j⟩ := m
    obtain ⟨key', j'⟩ := m'
    obtain ⟨rfl, h⟩ := h
    simp only [Slot.entries]
    exact C.bind (h _) fun a => C.bind ih fun as => C.refl _

end Lists

variable {f g : String → Option Decoder} {ek : ExtraKeys}

/-- Two documents in a slot of one type, the first read with `f` and the second with `g`. -/
def Slots (C : Comparison) (f g : String → Option Decoder) (t : FieldType) (j j' : Json) : Prop :=
  ∀ place, C.rel (Decode.slot f t j place) (Decode.slot g t j' place)

theorem slots_seq {t : FieldType} {js js' : List Json}
    (h : List.Forall₂ (C.Slots f g t) js js') : C.Slots f g (.seq t) (.array js) (.array js') :=
  fun _ => C.map (C.items h 0) _

theorem slots_map {t : FieldType} {ms ms' : List (String × Json)}
    (h : Members.Related (C.Slots f g t) ms ms') :
    C.Slots f g (.map t) (.object ms) (.object ms') :=
  fun _ => C.map (C.map (C.entries h) _) _

theorem slots_reference {name : String} {d d' : Decoder} {j j' : Json} (hf : f name = some d)
    (hg : g name = some d') (h : C.rel (d j) (d' j')) : C.Slots f g (.reference name) j j' := by
  intro place
  simp only [Decode.slot, hf, hg]
  exact C.within place h

/-- In two plans with the same codecs, the referenced definitions are compared, if there are any. -/
theorem slots_reference_of_get? {p q : CodecPlan} (hp : p.Grounded) (hq : q.Grounded)
    (hget : p.get? = q.get?) {name : String} {j j' : Json}
    (h : ∀ d, p.get? name = some d → C.rel (Decode.definition p.decoder p.extraKeys d j)
      (Decode.definition q.decoder q.extraKeys d j')) :
    C.Slots p.decoder q.decoder (.reference name) j j' := by
  cases hd : p.get? name with
  | none =>
    intro place
    simp only [Decode.slot, CodecPlan.decoder_eq hp, CodecPlan.decoder_eq hq, ← hget, hd,
      Option.map_none]
    exact C.refl _
  | some d =>
    exact slots_reference (CodecPlan.decoder_of_get? hp hd)
      (CodecPlan.decoder_of_get? hq (hget ▸ hd)) (h d hd)

theorem elements {ts : List FieldType} {js js' : List Json} (hl : js.length = js'.length)
    (h : ∀ (n : Nat) (t : FieldType) (j j' : Json), ts[n]? = some t → js[n]? = some j →
      js'[n]? = some j' → C.Slots f g t j j') (i : Nat) :
    C.rel (Decode.elements f i ts js) (Decode.elements g i ts js') := by
  induction ts generalizing js js' i with
  | nil => exact C.refl _
  | cons t ts ih =>
    cases js with
    | nil =>
      rw [List.length_eq_zero_iff.mp hl.symm]
      exact C.refl _
    | cons j js =>
      cases js' with
      | nil => cases hl
      | cons j' js' =>
        have hrest := ih (Nat.succ.inj hl) (fun n => h (n + 1)) (i + 1)
        simp only [Decode.elements]
        exact C.bind (h 0 t j j' rfl rfl rfl _) fun v => C.bind hrest fun vs => C.refl _

/-- A member that is found alike in both objects. -/
theorem member_of_get?_eq {name : String} {t : FieldType} {ms ms' : List (String × Json)}
    (h : Members.get? name ms = Members.get? name ms') :
    Members.get? name ms = none ∧ Members.get? name ms' = none ∨
      ∃ j j', Members.get? name ms = some j ∧ Members.get? name ms' = some j' ∧
        C.Slots f f t j j' := by
  cases hj : Members.get? name ms with
  | none => exact .inl ⟨rfl, h ▸ hj⟩
  | some j => exact .inr ⟨j, j, rfl, h ▸ hj, fun _ => C.refl _⟩

/-- Each declared member is missing from both objects or can be compared. -/
theorem members {object object' : List (String × Json)} {fields : List (String × FieldType)}
    (h : ∀ name t, (name, t) ∈ fields →
      Members.get? name object = none ∧ Members.get? name object' = none ∨
        ∃ j j', Members.get? name object = some j ∧ Members.get? name object' = some j' ∧
          C.Slots f g t j j') :
    C.rel (Decode.members f object fields) (Decode.members g object' fields) := by
  induction fields with
  | nil => exact C.refl _
  | cons m fields ih =>
    obtain ⟨name, t⟩ := m
    have hrest := ih fun name t hm => h name t (List.mem_cons_of_mem _ hm)
    rcases h name t List.mem_cons_self with ⟨hj, hj'⟩ | ⟨j, j', hj, hj', hs⟩
    · simp only [Decode.members, Slot.field, hj, hj', error_bind]
      exact C.refl _
    · simp only [Decode.members, Slot.field, hj, hj', ok_bind]
      exact C.bind (hs _) fun v => C.bind hrest fun vs => C.refl _

/-- Two documents of a payload of one layout. -/
def Payloads (C : Comparison) (f g : String → Option Decoder) (l : Layout) (j j' : Json) : Prop :=
  C.rel (Decode.payload f l j) (Decode.payload g l j')

theorem payloads_newtype {t : FieldType} {j j' : Json} (h : C.Slots f g t j j') :
    C.Payloads f g (.newtype t) j j' :=
  C.map (h _) _

theorem payloads_tuple {ts : List FieldType} {js js' : List Json} (hl : js.length = js'.length)
    (h : ∀ (n : Nat) (t : FieldType) (j j' : Json), ts[n]? = some t → js[n]? = some j →
      js'[n]? = some j' → C.Slots f g t j j') :
    C.Payloads f g (.tuple ts) (.array js) (.array js') := by
  by_cases hlen : js.length = ts.length
  · simp only [Payloads, Decode.payload, Slot.array, if_pos hlen, if_pos (hl ▸ hlen), ok_bind]
    exact C.bind (C.elements hl h 0) fun vs => C.refl _
  · simp only [Payloads, Decode.payload, Slot.array, hl, if_neg (hl ▸ hlen)]
    exact C.refl _

theorem payloads_struct {fields : List (String × FieldType)} {ms ms' : List (String × Json)}
    (h : ∀ name t, (name, t) ∈ fields →
      Members.get? name ms = none ∧ Members.get? name ms' = none ∨
        ∃ j j', Members.get? name ms = some j ∧ Members.get? name ms' = some j' ∧
          C.Slots f g t j j') : C.Payloads f g (.struct fields) (.object ms) (.object ms') := by
  simp only [Payloads, Decode.payload, Slot.object, ok_bind]
  exact C.bind (C.members h) fun vs => C.refl _

theorem wrapped {v : VariantCodec} {j j' : Json} (h : C.Payloads f g v.layout j j') :
    C.rel (Decode.wrapped f v j) (Decode.wrapped g v j') := by
  by_cases hu : v.layout = .unit
  · simp only [Decode.wrapped, hu]
    exact C.refl _
  · rw [Decode.wrapped_eq hu, Decode.wrapped_eq hu]
    exact C.map h _

/-- Objects with the same keys have the same tag or none, so only the payloads under it differ. -/
theorem choice {e : EnumCodec} {ms ms' : List (String × Json)}
    (hn : (Members.names ms).Perm (Members.names ms'))
    (h : ∀ v tag j j', e.variant? tag = some v → Tagged.Under ek e.tags tag j ms →
      Tagged.Under ek e.tags tag j' ms' → C.Payloads f g v.layout j j') :
    C.rel (Decode.choice f ek e (.object ms)) (Decode.choice g ek e (.object ms')) := by
  rcases Tagged.ofJson_object ek e.tags ms with ⟨tag, j, hj⟩ | ⟨hj, ho⟩
  · obtain ⟨j', hj'⟩ := hj.of_perm hn
    rw [Decode.choice_of_under hj, Decode.choice_of_under hj']
    cases hv : e.variant? tag with
    | none => exact C.refl _
    | some v => exact C.wrapped (h v tag j j' hv hj hj')
  · rcases Tagged.ofJson_object ek e.tags ms' with ⟨tag, j', hj'⟩ | ⟨-, ho'⟩
    · obtain ⟨j, hj₁⟩ := hj'.of_perm hn.symm
      exact absurd hj₁ (hj tag j)
    · rw [Decode.choice_of_error ho, Decode.choice_of_error ho']
      exact C.refl _

end Comparison

end TaggedSum
