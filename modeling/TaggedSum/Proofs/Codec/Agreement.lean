import TaggedSum.Proofs.Codec.Lookup

namespace TaggedSum

mutual

/-- The value agrees with the type of a slot, where `codecs` finds what references name. -/
inductive SlotAgrees (codecs : String → Option Codec) : FieldType → Value → Prop
  | string (s : String) : SlotAgrees codecs .string (.string s)
  | bool (b : Bool) : SlotAgrees codecs .bool (.bool b)
  | signed {w : IntWidth} {n : Int} (h : w.fitsSigned n) :
      SlotAgrees codecs (.signed w) (.signed n)
  | unsigned {w : IntWidth} {n : Nat} (h : w.fitsUnsigned n) :
      SlotAgrees codecs (.unsigned w) (.unsigned n)
  | reference {name : String} {c : Codec} {v : Value} (hc : codecs name = some c)
      (h : CodecAgrees codecs c v) : SlotAgrees codecs (.reference name) v
  | seq {t : FieldType} {vs : List Value} (h : ∀ v ∈ vs, SlotAgrees codecs t v) :
      SlotAgrees codecs (.seq t) (.seq vs)
  | map {t : FieldType} {es : List (String × Value)} (ho : Members.Ascending es)
      (h : ∀ e ∈ es, SlotAgrees codecs t e.2) : SlotAgrees codecs (.map t) (.map es)

inductive PayloadAgrees (codecs : String → Option Codec) : Layout → Payload Value → Prop
  | unit : PayloadAgrees codecs .unit .unit
  | newtype {t : FieldType} {v : Value} (h : SlotAgrees codecs t v) :
      PayloadAgrees codecs (.newtype t) (.newtype v)
  | tuple {ts : List FieldType} {vs : List Value} (hl : ts.length = vs.length)
      (h : ∀ (n : Nat) (t : FieldType) (v : Value), ts[n]? = some t → vs[n]? = some v →
        SlotAgrees codecs t v) : PayloadAgrees codecs (.tuple ts) (.tuple vs)
  | struct {fields : List (String × FieldType)} {values : List (String × Value)}
      (ho : Members.Ascending values)
      (hn : ∀ name, name ∈ Members.names values ↔ name ∈ Members.names fields)
      (h : ∀ name t v, (name, t) ∈ fields → Members.get? name values = some v →
        SlotAgrees codecs t v) : PayloadAgrees codecs (.struct fields) (.struct values)

inductive CodecAgrees (codecs : String → Option Codec) : Codec → Value → Prop
  | enum {e : EnumCodec} {v : VariantCodec} {a : Payload Value} (hv : v ∈ e.variants)
      (h : PayloadAgrees codecs v.layout a) : CodecAgrees codecs (.enum e) (.variant ⟨v.tag, a⟩)
  | record {r : RecordCodec} {a : Payload Value} (h : PayloadAgrees codecs r.layout a) :
      CodecAgrees codecs (.record r) (.record a)

end

/-- The value agrees with the named definition. -/
def CodecPlan.Agrees (p : CodecPlan) (name : String) (v : Value) : Prop :=
  SlotAgrees p.get? (.reference name) v

section Decode

open Outcome

variable {p : CodecPlan} {c : Codec}

theorem slot_agrees_of_decode (hg : p.Grounded) {t : FieldType} {j : Json} {place : Location}
    {v : Value}
    (hc : ∀ r, t.reference? = some r → ∀ c, p.get? r = some c → ∀ j v,
      Decode.definition p.decoder p.extraKeys c j = .ok v → CodecAgrees p.get? c v)
    (h : Decode.slot p.decoder t j place = .ok v) : SlotAgrees p.get? t v := by
  induction t generalizing j place v with
  | string =>
    obtain ⟨s, -, rfl⟩ := map_eq_ok.mp h
    exact .string s
  | bool =>
    obtain ⟨b, -, rfl⟩ := map_eq_ok.mp h
    exact .bool b
  | signed w =>
    obtain ⟨i, hi, rfl⟩ := map_eq_ok.mp h
    obtain ⟨n, -, -, hfits⟩ := Slot.integer_eq_ok_iff.mp hi
    exact .signed hfits
  | unsigned w =>
    obtain ⟨n, hn, rfl⟩ := map_eq_ok.mp h
    obtain ⟨m, -, -, hfits⟩ := Slot.unsigned_eq_ok_iff.mp hn
    exact .unsigned hfits
  | reference name =>
    simp only [Decode.slot, CodecPlan.decoder_eq hg] at h
    cases hd : p.get? name with
    | none => simp [hd] at h
    | some d =>
      simp only [hd, Option.map_some, mapError_eq_ok] at h
      exact .reference hd (hc name rfl d hd j v h)
  | seq item ih =>
    obtain ⟨vs, hvs, rfl⟩ := map_eq_ok.mp h
    obtain ⟨js, -, hjs⟩ := Slot.seq_eq_ok_iff.mp hvs
    refine .seq fun v hv => ?_
    obtain ⟨j, -, place, hj⟩ := Lists.exists_of_mem_right (Slot.forall₂_of_items hjs) hv
    exact ih hc hj
  | map entry ih =>
    obtain ⟨es, hes, rfl⟩ := map_eq_ok.mp h
    obtain ⟨ms, es, -, hms, rfl⟩ := Slot.map_eq_ok_iff.mp hes
    -- the entries of the value are those read from the document, sorted
    refine .map (Members.ascending_sorted es) fun e he => ?_
    have hmem := Members.mem_of_mem_sorted he
    obtain ⟨m, -, -, place, hm⟩ :=
      Lists.exists_of_mem_right (Slot.related_of_entries hms) hmem
    exact ih hc hm

theorem payload_agrees_of_decode {l : Layout} {j : Json} {a : Payload Value} (hl : l.names.Nodup)
    (hs : ∀ t ∈ l.types, ∀ j place v, Decode.slot p.decoder t j place = .ok v →
      SlotAgrees p.get? t v)
    (h : Decode.payload p.decoder l j = .ok a) : PayloadAgrees p.get? l a := by
  cases l with
  | unit =>
    obtain ⟨-, -, rfl⟩ := map_eq_ok.mp h
    exact .unit
  | newtype t =>
    obtain ⟨v, hv, rfl⟩ := map_eq_ok.mp h
    exact .newtype (hs t List.mem_cons_self j _ v hv)
  | tuple ts =>
    simp only [Decode.payload, bind_eq_ok, pure_def] at h
    obtain ⟨js, hjs, vs, hvs, h⟩ := h
    cases h
    obtain ⟨rfl, hlen⟩ := Slot.array_eq_ok_iff.mp hjs
    obtain ⟨hvl, hall⟩ := Decode.getElem?_of_elements hlen.symm hvs
    refine .tuple hvl fun n t v ht hv => ?_
    obtain ⟨k, w, place, -, hw, hk⟩ := hall n t ht
    obtain rfl := Option.some.inj (hw.symm.trans hv)
    exact hs t (List.mem_of_getElem? ht) k place w hk
  | struct fields =>
    simp only [Decode.payload, bind_eq_ok, pure_def] at h
    obtain ⟨object, -, vs, hvs, h⟩ := h
    cases h
    -- the decoder reads the members in the order of declaration and sorts them
    obtain ⟨hn, hall⟩ := Decode.get?_of_members hvs
    have hnd : (Members.names vs).Nodup := hn ▸ hl
    refine .struct (Members.ascending_sorted vs) ?_ ?_
    · intro name
      rw [Members.mem_names_sorted hnd, hn]
    · intro name t v ht hv
      obtain ⟨k, w, place, -, hw, hk⟩ := hall name t ht
      rw [Members.get?_sorted hnd, Members.get?_of_mem hnd hw] at hv
      obtain rfl := Option.some.inj hv
      exact hs t (List.mem_map.mpr ⟨_, ht, rfl⟩) k place w hk

/-- What is read agrees with the definition that reads it. -/
theorem codec_agrees_of_decode (hg : p.Grounded) (hc : c ∈ p.codecs) {j : Json} {v : Value}
    (h : Decode.definition p.decoder p.extraKeys c j = .ok v) : CodecAgrees p.get? c v := by
  suffices hall : ∀ c ∈ p.codecs, ∀ j v,
      Decode.definition p.decoder p.extraKeys c j = .ok v → CodecAgrees p.get? c v from
    hall c hc j v h
  clear h hc
  refine hg.induction_slots fun c hc ih => ?_
  have hs : ∀ l ∈ c.layouts, ∀ t ∈ l.types, ∀ j place v,
      Decode.slot p.decoder t j place = .ok v → SlotAgrees p.get? t v :=
    fun l hl t ht j place v h => slot_agrees_of_decode hg (ih l hl t ht) h
  intro j v h
  have hdis := hg.distinct c hc
  cases c with
  | enum e =>
    obtain ⟨a, ha, rfl⟩ := map_eq_ok.mp h
    rcases Decode.choice_eq_ok ha with ⟨w, hw, hu, -, rfl⟩ | ⟨w, hw, -, ms, k, x, -, -, hx, rfl⟩
    · exact .enum hw (hu ▸ .unit)
    · have hl : w.layout ∈ (Codec.enum e).layouts := List.mem_map_of_mem hw
      exact .enum hw (payload_agrees_of_decode (hdis.members _ hl) (hs _ hl) hx)
  | record r =>
    obtain ⟨a, ha, rfl⟩ := map_eq_ok.mp h
    have hl : r.layout ∈ (Codec.record r).layouts := List.mem_singleton_self _
    exact .record (payload_agrees_of_decode (hdis.members _ hl) (hs _ hl) ha)

theorem CodecPlan.agrees_of_decode? (hg : p.Grounded) {name : String} {j : Json} {v : Value}
    (h : p.decode? name j = some (.ok v)) : p.Agrees name v := by
  rw [CodecPlan.decode?_eq hg] at h
  obtain ⟨c, hc, h⟩ := Option.map_eq_some_iff.mp h
  exact .reference hc (codec_agrees_of_decode hg ((CodecPlan.get?_eq_some_iff hg).mp hc).1 h)

end Decode

end TaggedSum
