import TaggedSum.Proofs.Codec.Agreement

namespace TaggedSum

mutual

/-- Members and entries are sorted by name at every depth, as the maps that hold them keep them. -/
inductive Value.Ordered : Value → Prop
  | string (s : String) : Value.Ordered (.string s)
  | signed (n : Int) : Value.Ordered (.signed n)
  | unsigned (n : Nat) : Value.Ordered (.unsigned n)
  | bool (b : Bool) : Value.Ordered (.bool b)
  | variant {tag : String} {a : Payload Value} (h : Payload.Ordered a) :
      Value.Ordered (.variant ⟨tag, a⟩)
  | record {a : Payload Value} (h : Payload.Ordered a) : Value.Ordered (.record a)
  | seq {vs : List Value} (h : ∀ v ∈ vs, Value.Ordered v) : Value.Ordered (.seq vs)
  | map {es : List (String × Value)} (ho : Members.Ascending es)
      (h : ∀ e ∈ es, Value.Ordered e.2) : Value.Ordered (.map es)

inductive Payload.Ordered : Payload Value → Prop
  | unit : Payload.Ordered .unit
  | newtype {v : Value} (h : Value.Ordered v) : Payload.Ordered (.newtype v)
  | tuple {vs : List Value} (h : ∀ v ∈ vs, Value.Ordered v) : Payload.Ordered (.tuple vs)
  | struct {values : List (String × Value)} (ho : Members.Ascending values)
      (h : ∀ m ∈ values, Value.Ordered m.2) : Payload.Ordered (.struct values)

end

mutual

/-- The second value agrees with the type of a slot, and is the first one without the members that
are not declared. -/
inductive SlotTrims (codecs : String → Option Codec) : FieldType → Value → Value → Prop
  | string (s : String) : SlotTrims codecs .string (.string s) (.string s)
  | bool (b : Bool) : SlotTrims codecs .bool (.bool b) (.bool b)
  | signed {w : IntWidth} {n : Int} (h : w.fitsSigned n) :
      SlotTrims codecs (.signed w) (.signed n) (.signed n)
  | unsigned {w : IntWidth} {n : Nat} (h : w.fitsUnsigned n) :
      SlotTrims codecs (.unsigned w) (.unsigned n) (.unsigned n)
  | reference {name : String} {c : Codec} {v u : Value} (hc : codecs name = some c)
      (h : CodecTrims codecs c v u) : SlotTrims codecs (.reference name) v u
  | seq {t : FieldType} {vs us : List Value} (hl : vs.length = us.length)
      (h : ∀ (n : Nat) (v u : Value), vs[n]? = some v → us[n]? = some u →
        SlotTrims codecs t v u) : SlotTrims codecs (.seq t) (.seq vs) (.seq us)
  | map {t : FieldType} {es us : List (String × Value)} (ho : Members.Ascending es)
      (hn : Members.names es = Members.names us)
      (h : ∀ (n : Nat) (e u : String × Value), es[n]? = some e → us[n]? = some u →
        SlotTrims codecs t e.2 u.2) : SlotTrims codecs (.map t) (.map es) (.map us)

inductive PayloadTrims (codecs : String → Option Codec) :
    Layout → Payload Value → Payload Value → Prop
  | unit : PayloadTrims codecs .unit .unit .unit
  | newtype {t : FieldType} {v u : Value} (h : SlotTrims codecs t v u) :
      PayloadTrims codecs (.newtype t) (.newtype v) (.newtype u)
  | tuple {ts : List FieldType} {vs us : List Value} (hl : ts.length = vs.length)
      (hl' : ts.length = us.length)
      (h : ∀ (n : Nat) (t : FieldType) (v u : Value), ts[n]? = some t → vs[n]? = some v →
        us[n]? = some u → SlotTrims codecs t v u) :
      PayloadTrims codecs (.tuple ts) (.tuple vs) (.tuple us)
  /-- Exactly the declared members stay. -/
  | struct {fields : List (String × FieldType)} {values us : List (String × Value)}
      (ho : Members.Ascending values) (ho' : Members.Ascending us)
      (hd : ∀ name ∈ Members.names fields, name ∈ Members.names values)
      (hn : ∀ name, name ∈ Members.names us ↔ name ∈ Members.names fields)
      (h : ∀ name t v u, (name, t) ∈ fields → Members.get? name values = some v →
        Members.get? name us = some u → SlotTrims codecs t v u) :
      PayloadTrims codecs (.struct fields) (.struct values) (.struct us)

inductive CodecTrims (codecs : String → Option Codec) : Codec → Value → Value → Prop
  | enum {e : EnumCodec} {v : VariantCodec} {a b : Payload Value} (hv : v ∈ e.variants)
      (h : PayloadTrims codecs v.layout a b) :
      CodecTrims codecs (.enum e) (.variant ⟨v.tag, a⟩) (.variant ⟨v.tag, b⟩)
  | record {r : RecordCodec} {a b : Payload Value} (h : PayloadTrims codecs r.layout a b) :
      CodecTrims codecs (.record r) (.record a) (.record b)

end

mutual

/-- Somewhere along the type of a slot, the value has a struct with a member that is not
declared. -/
inductive SlotExcess (codecs : String → Option Codec) : FieldType → Value → Prop
  | reference {name : String} {c : Codec} {v : Value} (hc : codecs name = some c)
      (h : CodecExcess codecs c v) : SlotExcess codecs (.reference name) v
  | seq {t : FieldType} {vs : List Value} {v : Value} (hv : v ∈ vs) (h : SlotExcess codecs t v) :
      SlotExcess codecs (.seq t) (.seq vs)
  | map {t : FieldType} {es : List (String × Value)} {e : String × Value} (he : e ∈ es)
      (h : SlotExcess codecs t e.2) : SlotExcess codecs (.map t) (.map es)

inductive PayloadExcess (codecs : String → Option Codec) : Layout → Payload Value → Prop
  | newtype {t : FieldType} {v : Value} (h : SlotExcess codecs t v) :
      PayloadExcess codecs (.newtype t) (.newtype v)
  | tuple {ts : List FieldType} {vs : List Value} {n : Nat} {t : FieldType} {v : Value}
      (ht : ts[n]? = some t) (hv : vs[n]? = some v) (h : SlotExcess codecs t v) :
      PayloadExcess codecs (.tuple ts) (.tuple vs)
  | undeclared {fields : List (String × FieldType)} {values : List (String × Value)}
      {name : String} (hv : name ∈ Members.names values) (hf : name ∉ Members.names fields) :
      PayloadExcess codecs (.struct fields) (.struct values)
  | member {fields : List (String × FieldType)} {values : List (String × Value)} {name : String}
      {t : FieldType} {v : Value} (ht : (name, t) ∈ fields)
      (hv : Members.get? name values = some v) (h : SlotExcess codecs t v) :
      PayloadExcess codecs (.struct fields) (.struct values)

inductive CodecExcess (codecs : String → Option Codec) : Codec → Value → Prop
  | enum {e : EnumCodec} {v : VariantCodec} {a : Payload Value} (hv : v ∈ e.variants)
      (h : PayloadExcess codecs v.layout a) : CodecExcess codecs (.enum e) (.variant ⟨v.tag, a⟩)
  | record {r : RecordCodec} {a : Payload Value} (h : PayloadExcess codecs r.layout a) :
      CodecExcess codecs (.record r) (.record a)

end

/-- The second value agrees with the named definition, and is the first one without the members that
are not declared. -/
def CodecPlan.Trims (p : CodecPlan) (name : String) (v u : Value) : Prop :=
  SlotTrims p.get? (.reference name) v u

/-- Somewhere along the named definition, the value has a member that is not declared. -/
def CodecPlan.Excess (p : CodecPlan) (name : String) (v : Value) : Prop :=
  SlotExcess p.get? (.reference name) v

variable {codecs : String → Option Codec}

mutual

/-- What is left by trimming agrees. -/
theorem SlotTrims.agrees {t : FieldType} {v u : Value} :
    SlotTrims codecs t v u → SlotAgrees codecs t u
  | .string s => .string s
  | .bool b => .bool b
  | .signed h => .signed h
  | .unsigned h => .unsigned h
  | .reference hc h => .reference hc h.agrees
  | .seq hl h => by
    refine .seq fun u hu => ?_
    obtain ⟨n, hn⟩ := List.mem_iff_getElem?.mp hu
    obtain ⟨v, hv⟩ := Lists.exists_getElem? hl.symm hn
    exact (h n v u hv hn).agrees
  | .map ho hn h => by
    refine .map (by rwa [Members.Ascending, ← hn]) fun u hu => ?_
    have hl := Members.length_eq_of_names hn
    obtain ⟨n, hn⟩ := List.mem_iff_getElem?.mp hu
    obtain ⟨e, he⟩ := Lists.exists_getElem? hl.symm hn
    exact (h n e u he hn).agrees

theorem PayloadTrims.agrees {l : Layout} {a b : Payload Value} :
    PayloadTrims codecs l a b → PayloadAgrees codecs l b
  | .unit => .unit
  | .newtype h => .newtype h.agrees
  | .tuple hl hl' h => by
    refine .tuple hl' fun n t u ht hu => ?_
    obtain ⟨v, hv⟩ := Lists.exists_getElem? hl ht
    exact (h n t v u ht hv hu).agrees
  | .struct ho ho' hd hn h => by
    refine .struct ho' hn fun name t u ht hu => ?_
    obtain ⟨v, hv⟩ := Members.get?_of_mem_names (hd name (Members.mem_names_of_mem ht))
    exact (h name t v u ht hv hu).agrees

theorem CodecTrims.agrees {c : Codec} {v u : Value} :
    CodecTrims codecs c v u → CodecAgrees codecs c u
  | .enum hv h => .enum hv h.agrees
  | .record h => .record h.agrees

end

mutual

/-- Trimming leaves a value without undeclared members as it stands. -/
theorem SlotTrims.eq_of_not_excess {t : FieldType} {v u : Value} :
    SlotTrims codecs t v u → ¬SlotExcess codecs t v → v = u
  | .string _, _ => rfl
  | .bool _, _ => rfl
  | .signed _, _ => rfl
  | .unsigned _, _ => rfl
  | .reference hc h, hx => h.eq_of_not_excess fun hv => hx (.reference hc hv)
  | .seq hl h, hx => by
    refine congrArg Value.seq (Lists.eq_of_getElem? hl fun n v u hv hu => ?_)
    exact (h n v u hv hu).eq_of_not_excess fun h => hx (.seq (List.mem_of_getElem? hv) h)
  | .map ho hn h, hx => by
    refine congrArg Value.map (Members.eq_of_names hn fun n e u he hu => ?_)
    exact (h n e u he hu).eq_of_not_excess fun h => hx (.map (List.mem_of_getElem? he) h)

theorem PayloadTrims.eq_of_not_excess {l : Layout} {a b : Payload Value} :
    PayloadTrims codecs l a b → ¬PayloadExcess codecs l a → a = b
  | .unit, _ => rfl
  | .newtype h, hx => congrArg Payload.newtype (h.eq_of_not_excess fun h => hx (.newtype h))
  | @PayloadTrims.tuple _ ts _ _ hl hl' h, hx => by
    refine congrArg Payload.tuple (Lists.eq_of_getElem? (hl.symm.trans hl') fun n v u hv hu => ?_)
    obtain ⟨t, ht⟩ : ∃ t, ts[n]? = some t := Lists.exists_getElem? hl.symm hv
    exact (h n t v u ht hv hu).eq_of_not_excess fun h => hx (.tuple ht hv h)
  | @PayloadTrims.struct _ fields values _ ho ho' hd hn h, hx => by
    -- with nothing undeclared, the names of the value are the declared ones
    have hnames : ∀ name, name ∈ Members.names values ↔ name ∈ Members.names fields := by
      refine fun name => ⟨fun hv => ?_, hd name⟩
      by_contra hf
      exact hx (.undeclared hv hf)
    refine congrArg Payload.struct (Members.eq_of_get? ho ho' (fun name => ?_) ?_)
    · rw [hnames, hn]
    · intro name v u hv hu
      have hname := Members.mem_names_of_mem (Members.mem_of_get? hu)
      obtain ⟨t, ht⟩ := Members.exists_of_mem_names ((hn name).mp hname)
      exact (h name t v u ht hv hu).eq_of_not_excess fun h => hx (.member ht hv h)

theorem CodecTrims.eq_of_not_excess {c : Codec} {v u : Value} :
    CodecTrims codecs c v u → ¬CodecExcess codecs c v → v = u
  | .enum hv h, hx => by
    rw [h.eq_of_not_excess fun h => hx (.enum hv h)]
  | .record h, hx => congrArg Value.record (h.eq_of_not_excess fun h => hx (.record h))

end

mutual

/-- A value that agrees is sorted. -/
theorem SlotAgrees.ordered {t : FieldType} {v : Value} : SlotAgrees codecs t v → v.Ordered
  | .string s => .string s
  | .bool b => .bool b
  | .signed _ => .signed _
  | .unsigned _ => .unsigned _
  | .reference _ h => h.ordered
  | .seq h => .seq fun v hv => (h v hv).ordered
  | .map ho h => .map ho fun e he => (h e he).ordered

theorem PayloadAgrees.ordered {l : Layout} {a : Payload Value} :
    PayloadAgrees codecs l a → a.Ordered
  | .unit => .unit
  | .newtype h => .newtype h.ordered
  | .tuple hl h => by
    refine .tuple fun v hv => ?_
    obtain ⟨n, hn⟩ := List.mem_iff_getElem?.mp hv
    obtain ⟨t, ht⟩ := Lists.exists_getElem? hl.symm hn
    exact (h n t v ht hn).ordered
  | .struct ho hn h => by
    refine .struct ho fun m hm => ?_
    obtain ⟨t, ht⟩ := Members.exists_of_mem_names ((hn m.1).mp (Members.mem_names_of_mem hm))
    exact (h m.1 t m.2 ht (Members.get?_of_mem ho.nodup hm)).ordered

theorem CodecAgrees.ordered {c : Codec} {v : Value} : CodecAgrees codecs c v → v.Ordered
  | .enum _ h => .variant h.ordered
  | .record h => .record h.ordered

end

variable {p : CodecPlan}

mutual

/-- A value that agrees has no undeclared members. -/
theorem SlotAgrees.not_excess (hg : p.Grounded) {t : FieldType} {v : Value} :
    SlotAgrees p.get? t v → ¬SlotExcess p.get? t v
  | .string _, hx => nomatch hx
  | .bool _, hx => nomatch hx
  | .signed _, hx => nomatch hx
  | .unsigned _, hx => nomatch hx
  | .reference hc h, .reference hc' hx => by
    obtain rfl := Option.some.inj (hc.symm.trans hc')
    have hmem := ((CodecPlan.get?_eq_some_iff hg).mp hc).1
    exact h.not_excess hg (hg.distinct _ hmem) hx
  | .seq h, .seq hv hx => (h _ hv).not_excess hg hx
  | .map _ h, .map he hx => (h _ he).not_excess hg hx

theorem PayloadAgrees.not_excess (hg : p.Grounded) {l : Layout} {a : Payload Value} :
    PayloadAgrees p.get? l a → ¬PayloadExcess p.get? l a
  | .unit, hx => nomatch hx
  | .newtype h, .newtype hx => h.not_excess hg hx
  | .tuple _ h, .tuple ht hv hx => (h _ _ _ ht hv).not_excess hg hx
  | .struct _ hn _, .undeclared hv hf => hf ((hn _).mp hv)
  | .struct _ _ h, .member ht hv hx => (h _ _ _ ht hv).not_excess hg hx

theorem CodecAgrees.not_excess (hg : p.Grounded) {c : Codec} {v : Value} (hd : c.Distinct) :
    CodecAgrees p.get? c v → ¬CodecExcess p.get? c v
  | .enum (v := w) hw h, hx => by
    generalize hv : Value.variant ⟨w.tag, _⟩ = v at hx
    -- tags are distinct, so both speak of one variant
    cases hx with
    | @enum _ w' b hw' hx =>
      obtain ⟨ht, rfl⟩ := Choice.mk.inj (Value.variant.inj hv)
      obtain rfl : w = w' := List.inj_on_of_nodup_map hd.tags hw hw' ht
      exact h.not_excess hg hx
  | .record h, .record hx => h.not_excess hg hx

end

end TaggedSum
