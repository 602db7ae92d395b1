import TaggedSum.Proofs.Codec.Agreement
import TaggedSum.Proofs.Emit.Meaning

namespace TaggedSum.Emit

mutual

/-- The datum stands for the value in a slot of the type. -/
inductive SlotShows (codecs : String → Option Codec) : FieldType → Datum → Value → Prop
  | string (s : String) : SlotShows codecs .string (.string s) (.string s)
  | bool (b : Bool) : SlotShows codecs .bool (.bool b) (.bool b)
  | signed {w : IntWidth} {n : Int} (h : w.fitsSigned n) :
      SlotShows codecs (.signed w) (.integer n) (.signed n)
  | unsigned {w : IntWidth} {n : Nat} (h : w.fitsUnsigned n) :
      SlotShows codecs (.unsigned w) (.integer n) (.unsigned n)
  | reference {name : String} {c : Codec} {d : Datum} {v : Value} (hc : codecs name = some c)
      (h : CodecShows codecs c d v) : SlotShows codecs (.reference name) d v
  | seq {t : FieldType} {ds : List Datum} {vs : List Value} (hl : ds.length = vs.length)
      (h : ∀ (n : Nat) (d : Datum) (v : Value), ds[n]? = some d → vs[n]? = some v →
        SlotShows codecs t d v) : SlotShows codecs (.seq t) (.vec ds) (.seq vs)
  | map {t : FieldType} {ds : List (String × Datum)} {es : List (String × Value)}
      (ho : Members.Ascending es) (hn : Members.names ds = Members.names es)
      (h : ∀ (n : Nat) (d : String × Datum) (e : String × Value), ds[n]? = some d →
        es[n]? = some e → SlotShows codecs t d.2 e.2) :
      SlotShows codecs (.map t) (.map ds) (.map es)

inductive PayloadShows (codecs : String → Option Codec) :
    Layout → Payload Datum → Payload Value → Prop
  | unit : PayloadShows codecs .unit .unit .unit
  | newtype {t : FieldType} {d : Datum} {v : Value} (h : SlotShows codecs t d v) :
      PayloadShows codecs (.newtype t) (.newtype d) (.newtype v)
  | tuple {ts : List FieldType} {ds : List Datum} {vs : List Value} (hd : ts.length = ds.length)
      (hv : ts.length = vs.length)
      (h : ∀ (n : Nat) (t : FieldType) (d : Datum) (v : Value), ts[n]? = some t →
        ds[n]? = some d → vs[n]? = some v → SlotShows codecs t d v) :
      PayloadShows codecs (.tuple ts) (.tuple ds) (.tuple vs)
  | struct {fields : List (String × FieldType)} {ds : List (String × Datum)}
      {values : List (String × Value)} (ho : Members.Ascending values)
      (hd : Members.names ds = (Members.names fields).map identifier)
      (hv : ∀ name, name ∈ Members.names values ↔ name ∈ Members.names fields)
      (h : ∀ name t d v, (name, t) ∈ fields → Members.get? (identifier name) ds = some d →
        Members.get? name values = some v → SlotShows codecs t d v) :
      PayloadShows codecs (.struct fields) (.struct ds) (.struct values)

inductive CodecShows (codecs : String → Option Codec) : Codec → Datum → Value → Prop
  | enum {e : EnumCodec} {v : VariantCodec} {d : Payload Datum} {a : Payload Value}
      (hv : v ∈ e.variants) (h : PayloadShows codecs v.layout d a) :
      CodecShows codecs (.enum e) (.enum (identifier e.name) (identifier v.name) d)
        (.variant ⟨v.tag, a⟩)
  | record {r : RecordCodec} {d : Payload Datum} {a : Payload Value}
      (h : PayloadShows codecs r.layout d a) :
      CodecShows codecs (.record r) (.struct (identifier r.name) d) (.record a)

end

/-- The names of a plan render to distinct identifiers in each scope: its types, the variants of
each enum, and the members of each payload. -/
structure RendersApart (p : CodecPlan) : Prop where
  types : (p.names.map identifier).Nodup
  variants : ∀ e, .enum e ∈ p.codecs → (e.variants.map fun v => identifier v.name).Nodup
  members : ∀ c ∈ p.codecs, ∀ l ∈ c.layouts, (l.names.map identifier).Nodup

variable {p : CodecPlan}

mutual

theorem exists_slotShows (hg : p.Grounded) (hr : RendersApart p) {t : FieldType} {v : Value} :
    SlotAgrees p.get? t v → ∃ d, SlotShows p.get? t d v
  | .string s => ⟨.string s, .string s⟩
  | .bool b => ⟨.bool b, .bool b⟩
  | .signed (n := n) h => ⟨.integer n, .signed h⟩
  | .unsigned (n := n) h => ⟨.integer n, .unsigned h⟩
  | .reference hc h => by
    have hmem := ((CodecPlan.get?_eq_some_iff hg).mp hc).1
    obtain ⟨d, hd⟩ := exists_codecShows hg hr hmem h
    exact ⟨d, .reference hc hd⟩
  | .seq h => by
    obtain ⟨ds, hds⟩ := Lists.exists_forall₂ fun v hv => exists_slotShows hg hr (h v hv)
    refine ⟨.vec ds, .seq hds.length_eq.symm fun n d v hd hv => ?_⟩
    obtain ⟨e, he, hs⟩ := Lists.exists_of_getElem? hds hv
    exact Option.some.inj (he.symm.trans hd) ▸ hs
  | @SlotAgrees.map _ t es ho h => by
    have hm : ∀ e ∈ es, ∃ d : String × Datum, e.1 = d.1 ∧ SlotShows p.get? t d.2 e.2 := by
      intro e he
      obtain ⟨d, hd⟩ := exists_slotShows hg hr (h e he)
      exact ⟨(e.1, d), rfl, hd⟩
    obtain ⟨ds, hds⟩ := Lists.exists_forall₂ hm
    have hn : Members.names ds = Members.names es := Members.names_related (hds.flip.imp
      (fun _ _ h => ⟨h.1.symm, h.2⟩) : Members.Related (SlotShows p.get? t) ds es)
    refine ⟨.map ds, .map ho hn fun n d e hd he => ?_⟩
    obtain ⟨d', hd', -, hs⟩ := Lists.exists_of_getElem? hds he
    exact Option.some.inj (hd'.symm.trans hd) ▸ hs

theorem exists_payloadShows (hg : p.Grounded) (hr : RendersApart p) {l : Layout}
    {a : Payload Value} (hl : (l.names.map identifier).Nodup) :
    PayloadAgrees p.get? l a → ∃ d, PayloadShows p.get? l d a
  | .unit => ⟨.unit, .unit⟩
  | .newtype h => by
    obtain ⟨d, hd⟩ := exists_slotShows hg hr h
    exact ⟨.newtype d, .newtype hd⟩
  | @PayloadAgrees.tuple _ ts vs hlen h => by
    obtain ⟨ds, hds, hshows⟩ := Lists.exists_forall₃ hlen
      fun n t v ht hv => exists_slotShows hg hr (h n t v ht hv)
    exact ⟨.tuple ds, .tuple hds hlen fun n t d v ht hd hv => hshows n t v d ht hv hd⟩
  | @PayloadAgrees.struct _ fields values ho hn h => by
    have hm : ∀ m ∈ fields, ∃ d : String × Datum, identifier m.1 = d.1 ∧
        ∀ v, Members.get? m.1 values = some v → SlotShows p.get? m.2 d.2 v := by
      intro m hm
      obtain ⟨v, hv⟩ := Members.get?_of_mem_names ((hn m.1).mpr (Members.mem_names_of_mem hm))
      obtain ⟨d, hd⟩ := exists_slotShows hg hr (h m.1 m.2 v hm hv)
      exact ⟨(identifier m.1, d), rfl, fun w hw => Option.some.inj (hv.symm.trans hw) ▸ hd⟩
    obtain ⟨ds, hds⟩ := Lists.exists_forall₂ hm
    have hnames : Members.names ds = (Members.names fields).map identifier := by
      clear hm hl h hn
      induction hds with
      | nil => rfl
      | cons h _ ih => simp only [Members.names_cons, List.map_cons, ih, h.1]
    refine ⟨.struct ds, .struct ho hnames hn fun name t d v ht hd hv => ?_⟩
    obtain ⟨d', hd', hname, hs⟩ := Lists.exists_of_mem_left hds ht
    have hnd : (Members.names ds).Nodup := hnames ▸ hl
    rw [hname, Members.get?_of_mem hnd hd'] at hd
    exact Option.some.inj hd ▸ hs v hv

theorem exists_codecShows (hg : p.Grounded) (hr : RendersApart p) {c : Codec} {v : Value}
    (hc : c ∈ p.codecs) : CodecAgrees p.get? c v → ∃ d, CodecShows p.get? c d v
  | .enum hv h => by
    obtain ⟨d, hd⟩ :=
      exists_payloadShows hg hr (hr.members _ hc _ (List.mem_map_of_mem hv)) h
    exact ⟨_, .enum hv hd⟩
  | .record h => by
    obtain ⟨d, hd⟩ :=
      exists_payloadShows hg hr (hr.members _ hc _ (List.mem_singleton_self _)) h
    exact ⟨_, .record hd⟩

end

mutual

/-- What is stood for agrees with its type. -/
theorem SlotShows.agrees {t : FieldType} {d : Datum} {v : Value} :
    SlotShows p.get? t d v → SlotAgrees p.get? t v
  | .string s => .string s
  | .bool b => .bool b
  | .signed h => .signed h
  | .unsigned h => .unsigned h
  | .reference hc h => .reference hc h.agrees
  | .seq hl h => by
    refine .seq fun v hv => ?_
    obtain ⟨n, hn⟩ := List.mem_iff_getElem?.mp hv
    obtain ⟨d, hd⟩ := Lists.exists_getElem? hl.symm hn
    exact (h n d v hd hn).agrees
  | .map ho hnames h => by
    refine .map ho fun e he => ?_
    obtain ⟨n, hn⟩ := List.mem_iff_getElem?.mp he
    have hl := by simpa [Members.names] using congrArg List.length hnames
    obtain ⟨d, hd⟩ := Lists.exists_getElem? hl.symm hn
    exact (h n d e hd hn).agrees

theorem PayloadShows.agrees {l : Layout} {d : Payload Datum} {a : Payload Value} :
    PayloadShows p.get? l d a → PayloadAgrees p.get? l a
  | .unit => .unit
  | .newtype h => .newtype h.agrees
  | .tuple hd hv h => by
    refine .tuple hv fun n t v ht hn => ?_
    obtain ⟨d, hd⟩ := Lists.exists_getElem? hd ht
    exact (h n t d v ht hd hn).agrees
  | .struct ho hd hv h => by
    refine .struct ho hv fun name t v ht hn => ?_
    obtain ⟨d, hd⟩ := Members.get?_of_mem_names
      (hd ▸ List.mem_map_of_mem (Members.mem_names_of_mem ht))
    exact (h name t d v ht hd hn).agrees

theorem CodecShows.agrees {c : Codec} {d : Datum} {v : Value} :
    CodecShows p.get? c d v → CodecAgrees p.get? c v
  | .enum hv h => .enum hv h.agrees
  | .record h => .record h.agrees

end

/-- A choice is stood for by a variant of its tag. -/
theorem CodecShows.of_variant {e : EnumCodec} {d : Datum} {a : Choice Value}
    (h : CodecShows p.get? (.enum e) d (.variant a)) :
    ∃ v ∈ e.variants, v.tag = a.tag ∧ ∃ x, d = .enum (identifier e.name) (identifier v.name) x ∧
      PayloadShows p.get? v.layout x a.payload := by
  generalize hv : Value.variant a = value at h
  cases h with
  | enum hmem h =>
    cases hv
    exact ⟨_, hmem, rfl, _, rfl, h⟩

mutual

theorem SlotShows.datum_unique (hg : p.Grounded) (hr : RendersApart p) {t : FieldType}
    {d d' : Datum} {v : Value} :
    SlotShows p.get? t d v → SlotShows p.get? t d' v → d = d'
  | .string _, .string _ => rfl
  | .bool _, .bool _ => rfl
  | .signed _, .signed _ => rfl
  | .unsigned _, .unsigned _ => rfl
  | .reference hc h, .reference hc' h' => by
    obtain rfl := Option.some.inj (hc.symm.trans hc')
    exact h.datum_unique hg hr ((CodecPlan.get?_eq_some_iff hg).mp hc).1 h'
  | .seq hl h, .seq hl' h' => by
    refine congrArg Datum.vec (Lists.eq_of_getElem? (hl.trans hl'.symm) fun n d d' hd hd' => ?_)
    obtain ⟨v, hv⟩ := Lists.exists_getElem? hl hd
    exact (h n d v hd hv).datum_unique hg hr (h' n d' v hd' hv)
  | .map ho hn h, .map _ hn' h' => by
    refine congrArg Datum.map (Members.eq_of_names (hn.trans hn'.symm) fun n d d' hd hd' => ?_)
    have hl := by simpa [Members.names] using congrArg List.length hn
    obtain ⟨v, hv⟩ := Lists.exists_getElem? hl hd
    exact (h n d v hd hv).datum_unique hg hr (h' n d' v hd' hv)

theorem PayloadShows.datum_unique (hg : p.Grounded) (hr : RendersApart p) {l : Layout}
    {d d' : Payload Datum} {a : Payload Value} (hi : (l.names.map identifier).Nodup) :
    PayloadShows p.get? l d a → PayloadShows p.get? l d' a → d = d'
  | .unit, .unit => rfl
  | .newtype h, .newtype h' => congrArg Payload.newtype (h.datum_unique hg hr h')
  | .tuple hd hv h, .tuple hd' _ h' => by
    refine congrArg Payload.tuple
      (Lists.eq_of_getElem? (hd.symm.trans hd') fun n d d' hn hn' => ?_)
    obtain ⟨t, ht⟩ := Lists.exists_getElem? hd.symm hn
    obtain ⟨v, hvn⟩ := Lists.exists_getElem? hv ht
    exact (h n t d v ht hn hvn).datum_unique hg hr (h' n t d' v ht hn' hvn)
  | @PayloadShows.struct _ fields ds values _ hd hv h, @PayloadShows.struct _ _ ds' _ _ hd' _ h' =>
    by
    have hnd : (Members.names ds).Nodup := hd ▸ hi
    have hnd' : (Members.names ds').Nodup := hd' ▸ hi
    refine congrArg Payload.struct (Members.eq_of_names (hd.trans hd'.symm) fun n m m' hn hn' => ?_)
    -- the members at one index belong to one field
    have hl : ds.length = fields.length := by
      simpa [Members.names] using congrArg List.length hd
    obtain ⟨⟨name, t⟩, hf⟩ := Lists.exists_getElem? hl hn
    have hm : m.1 = identifier name := by
      simpa [Members.names, hn, hf] using congrArg (·[n]?) hd
    have hm' : m'.1 = identifier name := by
      simpa [Members.names, hn', hf] using congrArg (·[n]?) hd'
    have hmem : (name, t) ∈ fields := List.mem_of_getElem? hf
    obtain ⟨v, hvn⟩ := Members.get?_of_mem_names ((hv name).mpr (Members.mem_names_of_mem hmem))
    have hget : Members.get? (identifier name) ds = some m.2 :=
      Members.get?_of_mem hnd (hm ▸ List.mem_of_getElem? hn)
    have hget' : Members.get? (identifier name) ds' = some m'.2 :=
      Members.get?_of_mem hnd' (hm' ▸ List.mem_of_getElem? hn')
    exact (h name t _ v hmem hget hvn).datum_unique hg hr (h' name t _ v hmem hget' hvn)

theorem CodecShows.datum_unique (hg : p.Grounded) (hr : RendersApart p) {c : Codec}
    {d d' : Datum} {v : Value} (hc : c ∈ p.codecs) :
    CodecShows p.get? c d v → CodecShows p.get? c d' v → d = d'
  | .enum hv h => fun h' => by
    obtain ⟨w, hw, ht, x, rfl, hx⟩ := h'.of_variant
    obtain rfl := List.inj_on_of_nodup_map (hg.distinct _ hc).tags hv hw ht.symm
    have hl := hr.members _ hc _ (List.mem_map_of_mem hv)
    rw [h.datum_unique hg hr hl hx]
  | .record h => fun h' => by
    cases h' with
    | record h' => rw [h.datum_unique hg hr (hr.members _ hc _ (List.mem_singleton_self _)) h']

end

end TaggedSum.Emit
