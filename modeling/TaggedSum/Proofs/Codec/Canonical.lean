import TaggedSum.Proofs.Codec.RoundTrip

namespace TaggedSum

open Outcome

mutual

/-- The second document is the canonical form of the first one in a slot. -/
inductive SlotCanonizes (codecs : String → Option Codec) (ek : ExtraKeys) :
    FieldType → Json → Json → Prop
  | string (s : String) : SlotCanonizes codecs ek .string (.string s) (.string s)
  | bool (b : Bool) : SlotCanonizes codecs ek .bool (.bool b) (.bool b)
  | signed {w : IntWidth} {n : Number} {i : Int} (hi : n.toInt? = some i) (h : w.fitsSigned i) :
      SlotCanonizes codecs ek (.signed w) (.number n) (.number (.integer i))
  | unsigned {w : IntWidth} {n : Number} {i : Int} (hi : n.toInt? = some i)
      (h : w.fitsUnsigned i) :
      SlotCanonizes codecs ek (.unsigned w) (.number n) (.number (.integer i))
  | reference {name : String} {c : Codec} {j j' : Json} (hc : codecs name = some c)
      (h : CodecCanonizes codecs ek c j j') : SlotCanonizes codecs ek (.reference name) j j'
  | seq {t : FieldType} {js js' : List Json} (hl : js.length = js'.length)
      (h : ∀ (n : Nat) (j j' : Json), js[n]? = some j → js'[n]? = some j' →
        SlotCanonizes codecs ek t j j') :
      SlotCanonizes codecs ek (.seq t) (.array js) (.array js')
  /-- Where keys repeat, the last entry counts. -/
  | map {t : FieldType} {ms ms' : List (String × Json)}
      (hn : Members.names ms' = Members.names (Members.sorted ms))
      (h : ∀ key j j', Members.get? key (Members.sorted ms) = some j →
        Members.get? key ms' = some j' → SlotCanonizes codecs ek t j j') :
      SlotCanonizes codecs ek (.map t) (.object ms) (.object ms')

inductive PayloadCanonizes (codecs : String → Option Codec) (ek : ExtraKeys) :
    Layout → Json → Json → Prop
  | unit : PayloadCanonizes codecs ek .unit .null .null
  | newtype {t : FieldType} {j j' : Json} (h : SlotCanonizes codecs ek t j j') :
      PayloadCanonizes codecs ek (.newtype t) j j'
  | tuple {ts : List FieldType} {js js' : List Json} (hl : js.length = ts.length)
      (hl' : js'.length = ts.length)
      (h : ∀ (n : Nat) (t : FieldType) (j j' : Json), ts[n]? = some t → js[n]? = some j →
        js'[n]? = some j' → SlotCanonizes codecs ek t j j') :
      PayloadCanonizes codecs ek (.tuple ts) (.array js) (.array js')
  /-- Exactly the declared members stay, in the order of declaration. -/
  | struct {fields : List (String × FieldType)} {ms ms' : List (String × Json)}
      (hd : ∀ name ∈ Members.names fields, name ∈ Members.names ms)
      (hn : Members.names ms' = Members.names fields)
      (h : ∀ name t j j', (name, t) ∈ fields → Members.get? name ms = some j →
        Members.get? name ms' = some j' → SlotCanonizes codecs ek t j j') :
      PayloadCanonizes codecs ek (.struct fields) (.object ms) (.object ms')

inductive CodecCanonizes (codecs : String → Option Codec) (ek : ExtraKeys) :
    Codec → Json → Json → Prop
  | bare {e : EnumCodec} {v : VariantCodec} (hv : v ∈ e.variants) (hu : v.layout = .unit) :
      CodecCanonizes codecs ek (.enum e) (.string v.tag) (.string v.tag)
  | wrapped {e : EnumCodec} {v : VariantCodec} {ms : List (String × Json)} {j j' : Json}
      (hv : v ∈ e.variants) (hu : v.layout ≠ .unit) (hms : Tagged.Under ek e.tags v.tag j ms)
      (h : PayloadCanonizes codecs ek v.layout j j') :
      CodecCanonizes codecs ek (.enum e) (.object ms) (.object [(v.tag, j')])
  | record {r : RecordCodec} {j j' : Json} (h : PayloadCanonizes codecs ek r.layout j j') :
      CodecCanonizes codecs ek (.record r) j j'

end

/-- The second document is the canonical form of the first one as a value of the definition. -/
def CodecPlan.Canonizes (p : CodecPlan) (name : String) (j j' : Json) : Prop :=
  SlotCanonizes p.get? p.extraKeys (.reference name) j j'

variable {p : CodecPlan} {c : Codec}

/-- What a codec reads, it writes in canonical form. -/
def Canonizing (p : CodecPlan) (c : Codec) : Prop :=
  ∀ j v place j', Decode.definition p.decoder p.extraKeys c j = .ok v →
    Encode.definition p.encoder c v place = .ok j' → CodecCanonizes p.get? p.extraKeys c j j'

section Slots

variable {t : FieldType}

theorem seq_canonizes {js js' : List Json} {vs : List Value} {place place' : Location} {i i' : Nat}
    (hd : Slot.items (Decode.slot p.decoder t) place i js = .ok vs)
    (he : Encode.items (Encode.slot p.encoder t) place' i' vs = .ok js')
    (h : ∀ j v place place' j', Decode.slot p.decoder t j place = .ok v →
      Encode.slot p.encoder t v place' = .ok j' → SlotCanonizes p.get? p.extraKeys t j j') :
    SlotCanonizes p.get? p.extraKeys (.seq t) (.array js) (.array js') := by
  have hr := Slot.forall₂_of_items hd
  have hw := Encode.forall₂_of_items he
  refine .seq (hr.length_eq.trans hw.length_eq) fun n j j' hj hj' => ?_
  obtain ⟨v, hv, place, hjv⟩ := Lists.exists_of_getElem? hr hj
  obtain ⟨place', hvj⟩ := Lists.rel_of_getElem? hw hv hj'
  exact h j v place place' j' hjv hvj

theorem map_canonizes {ms ms' : List (String × Json)} {es : List (String × Value)}
    {place place' : Location} (hd : Slot.entries (Decode.slot p.decoder t) place ms = .ok es)
    (he : Encode.entries (Encode.slot p.encoder t) place' (Members.sorted es) = .ok ms')
    (h : ∀ j v place place' j', Decode.slot p.decoder t j place = .ok v →
      Encode.slot p.encoder t v place' = .ok j' → SlotCanonizes p.get? p.extraKeys t j j') :
    SlotCanonizes p.get? p.extraKeys (.map t) (.object ms) (.object ms') := by
  -- sorting the documents beside the values keeps them paired
  have hr := Members.related_sorted (Slot.related_of_entries hd)
  have hw := Encode.related_of_entries he
  refine .map ((Members.names_related hr).trans (Members.names_related hw)).symm ?_
  intro key j j' hj hj'
  obtain ⟨v, hv, place, hjv⟩ := Members.get?_of_related hr hj
  obtain ⟨k, hk, place', hvk⟩ := Members.get?_of_related hw hv
  obtain rfl := Option.some.inj (hk.symm.trans hj')
  exact h j v place place' k hjv hvk

theorem tuple_canonizes {ts : List FieldType} {js js' : List Json} {vs : List Value} {i i' : Nat}
    (hl : ts.length = js.length) (hd : Decode.elements p.decoder i ts js = .ok vs)
    (he : Encode.elements p.encoder i' ts vs = .ok js')
    (h : ∀ t ∈ ts, ∀ j v place place' j', Decode.slot p.decoder t j place = .ok v →
      Encode.slot p.encoder t v place' = .ok j' → SlotCanonizes p.get? p.extraKeys t j j') :
    PayloadCanonizes p.get? p.extraKeys (.tuple ts) (.array js) (.array js') := by
  obtain ⟨hvl, hread⟩ := Decode.getElem?_of_elements hl hd
  obtain ⟨hlen', hwrite⟩ := Encode.getElem?_of_elements hvl he
  refine .tuple hl.symm hlen'.symm fun n t k k' ht hk hk' => ?_
  obtain ⟨k₁, v₁, _, hk₁, hv₁, hr⟩ := hread n t ht
  obtain ⟨v₂, k₂, _, hv₂, hk₂, hw⟩ := hwrite n t ht
  obtain rfl := Option.some.inj (hk₁.symm.trans hk)
  obtain rfl := Option.some.inj (hk₂.symm.trans hk')
  obtain rfl := Option.some.inj (hv₁.symm.trans hv₂)
  exact h t (List.mem_of_getElem? ht) _ _ _ _ _ hr hw

/-- The values are sorted in between, which does not move the names they are found by. -/
theorem struct_canonizes {fields : List (String × FieldType)} {ms ms' : List (String × Json)}
    {vs : List (String × Value)} (hf : (Members.names fields).Nodup)
    (hd : Decode.members p.decoder ms fields = .ok vs)
    (he : Encode.members p.encoder (Members.sorted vs) fields = .ok ms')
    (h : ∀ name t, (name, t) ∈ fields → ∀ j v place place' j',
      Decode.slot p.decoder t j place = .ok v → Encode.slot p.encoder t v place' = .ok j' →
        SlotCanonizes p.get? p.extraKeys t j j') :
    PayloadCanonizes p.get? p.extraKeys (.struct fields) (.object ms) (.object ms') := by
  obtain ⟨hn, hread⟩ := Decode.get?_of_members hd
  obtain ⟨hn', hwrite⟩ := Encode.get?_of_members he
  have hnd : (Members.names vs).Nodup := hn ▸ hf
  have hnd' : (Members.names ms').Nodup := hn' ▸ hf
  refine .struct ?_ hn' ?_
  · intro name hname
    obtain ⟨t, ht⟩ := Members.exists_of_mem_names hname
    obtain ⟨k, -, -, hk, -⟩ := hread name t ht
    exact Members.mem_names_of_mem (Members.mem_of_get? hk)
  · intro name t k k' ht hk hk'
    obtain ⟨k₁, v₁, _, hk₁, hv₁, hr⟩ := hread name t ht
    obtain ⟨v₂, k₂, _, hv₂, hk₂, hw⟩ := hwrite name t ht
    rw [Members.get?_sorted hnd, Members.get?_of_mem hnd hv₁] at hv₂
    rw [Members.get?_of_mem hnd' hk₂] at hk'
    obtain rfl := Option.some.inj (hk₁.symm.trans hk)
    obtain rfl := Option.some.inj hv₂
    obtain rfl := Option.some.inj hk'
    exact h name t ht _ _ _ _ _ hr hw

end Slots

theorem slot_canonizes (hg : p.Grounded) {t : FieldType} {j j' : Json} {place place' : Location}
    {v : Value} (hc : ∀ r, t.reference? = some r → ∀ c, p.get? r = some c → Canonizing p c)
    (hd : Decode.slot p.decoder t j place = .ok v)
    (he : Encode.slot p.encoder t v place' = .ok j') :
    SlotCanonizes p.get? p.extraKeys t j j' := by
  induction t generalizing j j' place place' v with
  | string =>
    obtain ⟨s, hs, rfl⟩ := map_eq_ok.mp hd
    obtain rfl := Slot.string_eq_ok_iff.mp hs
    cases he
    exact .string s
  | bool =>
    obtain ⟨b, hb, rfl⟩ := map_eq_ok.mp hd
    obtain rfl := Slot.bool_eq_ok_iff.mp hb
    cases he
    exact .bool b
  | signed w =>
    obtain ⟨i, hi, rfl⟩ := map_eq_ok.mp hd
    obtain ⟨n, rfl, hn, hfits⟩ := Slot.integer_eq_ok_iff.mp hi
    simp only [Encode.slot, hfits, if_true] at he
    cases he
    exact .signed hn hfits
  | unsigned w =>
    obtain ⟨i, hi, rfl⟩ := map_eq_ok.mp hd
    obtain ⟨n, rfl, hn, hfits⟩ := Slot.unsigned_eq_ok_iff.mp hi
    simp only [Encode.slot, hfits, if_true] at he
    cases he
    exact .unsigned hn hfits
  | reference name =>
    simp only [Decode.slot, CodecPlan.decoder_eq hg] at hd
    simp only [Encode.slot, CodecPlan.encoder_eq hg] at he
    cases hcodec : p.get? name with
    | none => simp [hcodec] at hd
    | some c =>
      simp only [hcodec, Option.map_some, mapError_eq_ok] at hd he
      exact .reference hcodec (hc name rfl c hcodec j v place' j' hd he)
  | seq item ih =>
    obtain ⟨vs, hvs, rfl⟩ := map_eq_ok.mp hd
    obtain ⟨js, rfl, hjs⟩ := Slot.seq_eq_ok_iff.mp hvs
    obtain ⟨js', hjs', rfl⟩ := map_eq_ok.mp he
    exact seq_canonizes hjs hjs' fun j v place place' j' => ih hc
  | map entry ih =>
    obtain ⟨es, hes, rfl⟩ := map_eq_ok.mp hd
    obtain ⟨ms, es, rfl, hms, rfl⟩ := Slot.map_eq_ok_iff.mp hes
    obtain ⟨ms', hms', rfl⟩ := map_eq_ok.mp he
    exact map_canonizes hms hms' fun j v place place' j' => ih hc

theorem payload_canonizes {l : Layout} {owner : String} {j j' : Json} {a : Payload Value}
    (hl : l.names.Nodup)
    (hs : ∀ t ∈ l.types, ∀ j v place place' j', Decode.slot p.decoder t j place = .ok v →
      Encode.slot p.encoder t v place' = .ok j' → SlotCanonizes p.get? p.extraKeys t j j')
    (hd : Decode.payload p.decoder l j = .ok a)
    (he : Encode.payload p.encoder owner l a = .ok j') :
    PayloadCanonizes p.get? p.extraKeys l j j' := by
  cases l with
  | unit =>
    obtain ⟨u, hu, rfl⟩ := map_eq_ok.mp hd
    obtain rfl := Slot.null_eq_ok_iff.mp hu
    cases he
    exact .unit
  | newtype t =>
    obtain ⟨v, hv, rfl⟩ := map_eq_ok.mp hd
    exact .newtype (hs t List.mem_cons_self j v _ _ j' hv he)
  | tuple ts =>
    simp only [Decode.payload, bind_eq_ok, pure_def] at hd
    obtain ⟨js, hjs, vs, hvs, hd⟩ := hd
    cases hd
    obtain ⟨rfl, hlen⟩ := Slot.array_eq_ok_iff.mp hjs
    have hvl := (Decode.getElem?_of_elements hlen.symm hvs).1
    simp only [Encode.payload, if_pos hvl] at he
    obtain ⟨js', hjs', rfl⟩ := map_eq_ok.mp he
    exact tuple_canonizes hlen.symm hvs hjs' hs
  | struct fields =>
    simp only [Decode.payload, bind_eq_ok, pure_def] at hd
    obtain ⟨ms, hobject, vs, hvs, hd⟩ := hd
    cases hd
    obtain rfl := Slot.object_eq_ok_iff.mp hobject
    obtain ⟨ms', hms', rfl⟩ := map_eq_ok.mp he
    exact struct_canonizes hl hvs hms' fun name t ht => hs t (List.mem_map.mpr ⟨_, ht, rfl⟩)

theorem canonizing (hg : p.Grounded) : ∀ c ∈ p.codecs, Canonizing p c := by
  refine hg.induction_slots fun c hc ih => ?_
  have hs : ∀ l ∈ c.layouts, ∀ t ∈ l.types, ∀ j v place place' j',
      Decode.slot p.decoder t j place = .ok v → Encode.slot p.encoder t v place' = .ok j' →
        SlotCanonizes p.get? p.extraKeys t j j' :=
    fun l hl t ht j v place place' j' hd he => slot_canonizes hg (ih l hl t ht) hd he
  have hdis := hg.distinct c hc
  intro j v place j' hd he
  cases c with
  | enum e =>
    obtain ⟨a, ha, rfl⟩ := map_eq_ok.mp hd
    rcases Decode.choice_eq_ok ha with ⟨w, hw, hu, rfl, rfl⟩ |
      ⟨w, hw, hu, ms, k, x, rfl, hms, hx, rfl⟩
    · have hw? := (EnumCodec.variant?_eq_some_iff hdis.tags).mpr ⟨hw, rfl⟩
      have hb : Encode.choice p.encoder e ⟨w.tag, .unit⟩ = .ok (.string w.tag) :=
        Encode.choice_bare hw? hu rfl
      obtain rfl := Except.ok.inj (hb.symm.trans he)
      exact .bare hw hu
    · have hw? := (EnumCodec.variant?_eq_some_iff hdis.tags).mpr ⟨hw, rfl⟩
      simp only [Encode.definition] at he
      rw [Encode.choice_wrapped hw? fun h => hu h.1] at he
      obtain ⟨k', hk', rfl⟩ := map_eq_ok.mp he
      have hl : w.layout ∈ (Codec.enum e).layouts := List.mem_map_of_mem hw
      exact .wrapped hw hu hms (payload_canonizes (hdis.members _ hl) (hs _ hl) hx hk')
  | record r =>
    obtain ⟨a, ha, rfl⟩ := map_eq_ok.mp hd
    have hl : r.layout ∈ (Codec.record r).layouts := List.mem_singleton_self _
    exact .record (payload_canonizes (hdis.members _ hl) (hs _ hl) ha he)

/-- What is read is written as the canonical form of the document, which reads the same. -/
theorem CodecPlan.canonical (hg : p.Grounded) {name : String} {j : Json} {v : Value}
    (h : p.decode? name j = some (.ok v)) :
    ∃ j', p.encode name v = .ok j' ∧ p.decode? name j' = some (.ok v) ∧ p.Canonizes name j j' := by
  have hv := CodecPlan.agrees_of_decode? hg h
  obtain ⟨j', hw, hr⟩ := CodecPlan.roundTrip hg hv
  refine ⟨j', hw, hr, ?_⟩
  rw [CodecPlan.decode?_eq hg] at h
  obtain ⟨c, hc, hd⟩ := Option.map_eq_some_iff.mp h
  rw [CodecPlan.encode_eq hg hc] at hw
  have hmem := ((CodecPlan.get?_eq_some_iff hg).mp hc).1
  exact .reference hc (canonizing hg c hmem j v .payload j' hd hw)

/-- Reading and writing again is a retraction onto canonical documents, whatever is done with extra
keys: what is read agrees with its definition and is written in canonical form, which is read as the
same value and hence written as it stands. -/
theorem CodecPlan.encode_decode {s : Schema} {ir : Resolved.Schema} {ek : ExtraKeys} {name : String}
    {j : Json} {v : Value} (hs : Resolved.Schema.ofSchema s = .ok ir)
    (hv : (CodecPlan.ofSchema ek ir).decode? name j = some (.ok v)) :
    (CodecPlan.ofSchema ek ir).Agrees name v ∧
      ∃ j', (CodecPlan.ofSchema ek ir).encode name v = .ok j' ∧
        (CodecPlan.ofSchema ek ir).decode? name j' = some (.ok v) ∧
        (CodecPlan.ofSchema ek ir).Canonizes name j j' ∧
        (CodecPlan.ofSchema ek ir).Canonizes name j' j' := by
  have hg := grounded_ofSchema ek hs
  obtain ⟨j', hw, hr, hj⟩ := CodecPlan.canonical hg hv
  obtain ⟨j'', hw', -, hj'⟩ := CodecPlan.canonical hg hr
  obtain rfl : j'' = j' := Except.ok.inj (hw'.symm.trans hw)
  exact ⟨CodecPlan.agrees_of_decode? hg hv, j'', hw, hr, hj, hj'⟩

/-- A page with a key too many, keys out of order, a tagged object with a sibling, and `7.0`. -/
def Pages.stray : Json :=
  .object [("title", .string "one"), ("author", .null),
    ("marks", .array [.object [("size", .null),
      ("dot", .number (.double ⟨false, 7 * pow2 50, -50⟩))], .string "Blank"])]

theorem Pages.decode?_stray :
    (CodecPlan.ofSchema .ignore resolved).decode? "Page" stray = some (.ok dotted) := rfl

theorem CodecPlan.encode_decode_stray :
    Resolved.Schema.ofSchema Pages.schema = .ok Pages.resolved ∧
      (CodecPlan.ofSchema .ignore Pages.resolved).decode? "Page" Pages.stray =
        some (.ok Pages.dotted) ∧
      (CodecPlan.ofSchema .ignore Pages.resolved).Agrees "Page" Pages.dotted ∧
      ∃ j', (CodecPlan.ofSchema .ignore Pages.resolved).encode "Page" Pages.dotted = .ok j' ∧
        (CodecPlan.ofSchema .ignore Pages.resolved).decode? "Page" j' = some (.ok Pages.dotted) ∧
        (CodecPlan.ofSchema .ignore Pages.resolved).Canonizes "Page" Pages.stray j' ∧
        (CodecPlan.ofSchema .ignore Pages.resolved).Canonizes "Page" j' j' :=
  ⟨Pages.ofSchema_schema, Pages.decode?_stray,
    CodecPlan.encode_decode Pages.ofSchema_schema Pages.decode?_stray⟩

end TaggedSum
