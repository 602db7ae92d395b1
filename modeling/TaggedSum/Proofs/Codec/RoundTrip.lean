import TaggedSum.Proofs.Codec.Agreement

namespace TaggedSum

open Outcome

variable {p : CodecPlan}

/-- A value that is written at every place, as a document that is read at every place. -/
def RoundTrips (write : Encoder) (read : Json → Location → Except DecodeError Value)
    (v : Value) : Prop :=
  ∃ j, (∀ place, write v place = .ok j) ∧ ∀ place, read j place = .ok v

section Lists

variable {write : Encoder} {read : Json → Location → Except DecodeError Value}
  {f : String → Option Encoder} {g : String → Option Decoder}

theorem items_roundTrip {vs : List Value} (h : ∀ v ∈ vs, RoundTrips write read v) :
    ∃ js, (∀ place, Encode.items write place 0 vs = .ok js) ∧
      ∀ place, Slot.items read place 0 js = .ok vs := by
  obtain ⟨js, hjs⟩ := Lists.exists_forall₂ h
  refine ⟨js, fun place => ?_, fun place => ?_⟩
  · exact Encode.items_of_forall₂ (hjs.imp fun _ _ h => h.1) 0
  · exact Slot.items_of_forall₂ (hjs.flip.imp fun _ _ h => h.2) 0

theorem entries_roundTrip {es : List (String × Value)}
    (h : ∀ e ∈ es, RoundTrips write read e.2) :
    ∃ ms, (∀ place, Encode.entries write place es = .ok ms) ∧
      ∀ place, Slot.entries read place ms = .ok es := by
  have hm : ∀ e ∈ es, ∃ m : String × Json, e.1 = m.1 ∧ (∀ place, write e.2 place = .ok m.2) ∧
      ∀ place, read m.2 place = .ok e.2 := by
    intro e he
    obtain ⟨j, hj⟩ := h e he
    exact ⟨(e.1, j), rfl, hj⟩
  obtain ⟨ms, hms⟩ := Lists.exists_forall₂ hm
  refine ⟨ms, fun place => ?_, fun place => ?_⟩
  · exact Encode.entries_of_related (hms.imp fun _ _ h => ⟨h.1, h.2.1⟩)
  · exact Slot.entries_of_related (hms.flip.imp fun _ _ h => ⟨h.1.symm, h.2.2⟩)

theorem elements_roundTrip {ts : List FieldType} {vs : List Value} (hl : ts.length = vs.length)
    (h : ∀ (n : Nat) (t : FieldType) (v : Value), ts[n]? = some t → vs[n]? = some v →
      RoundTrips (Encode.slot f t) (Decode.slot g t) v) (i : Nat) :
    ∃ js, js.length = ts.length ∧ Encode.elements f i ts vs = .ok js ∧
      Decode.elements g i ts js = .ok vs := by
  induction ts generalizing vs i with
  | nil =>
    rw [List.length_eq_zero_iff.mp hl.symm]
    exact ⟨[], rfl, rfl, rfl⟩
  | cons t ts ih =>
    cases vs with
    | nil => cases hl
    | cons v vs =>
      obtain ⟨j, hw, hr⟩ := h 0 t v rfl rfl
      obtain ⟨js, hlen, hws, hrs⟩ := ih (Nat.succ.inj hl) (fun n => h (n + 1)) (i + 1)
      refine ⟨j :: js, congrArg Nat.succ hlen, ?_, ?_⟩
      · simp only [Encode.elements, hw, hws, ok_bind, pure_def]
      · simp only [Decode.elements, hr, hrs, ok_bind, pure_def]

/-- The members are written from wherever the values stand, and read from wherever the documents
stand. -/
theorem members_roundTrip {fields : List (String × FieldType)} {values : List (String × Value)}
    (hn : ∀ name ∈ Members.names fields, name ∈ Members.names values)
    (h : ∀ name t v, (name, t) ∈ fields → Members.get? name values = some v →
      RoundTrips (Encode.slot f t) (Decode.slot g t) v) :
    ∃ ms vs, Encode.members f values fields = .ok ms ∧ Members.names ms = Members.names fields ∧
      Members.names vs = Members.names fields ∧
      (∀ m ∈ vs, Members.get? m.1 values = some m.2) ∧
      ∀ object, (∀ m ∈ ms, Members.get? m.1 object = some m.2) →
        Decode.members g object fields = .ok vs := by
  induction fields with
  | nil => exact ⟨[], [], rfl, rfl, rfl, List.forall_mem_nil _, fun _ _ => rfl⟩
  | cons m fields ih =>
    obtain ⟨name, t⟩ := m
    obtain ⟨hname, hnames⟩ := List.forall_mem_cons.mp hn
    obtain ⟨v, hv⟩ := Members.get?_of_mem_names hname
    obtain ⟨j, hw, hr⟩ := h name t v List.mem_cons_self hv
    obtain ⟨ms, vs, hms, hmn, hvn, hvs, hread⟩ :=
      ih hnames fun n t v hm => h n t v (List.mem_cons_of_mem _ hm)
    refine ⟨(name, j) :: ms, (name, v) :: vs, ?_, ?_, ?_, ?_, ?_⟩
    · simp only [Encode.members, hv, hw, hms, ok_bind, pure_def]
    · simp only [Members.names_cons, hmn]
    · simp only [Members.names_cons, hvn]
    · exact List.forall_mem_cons.mpr ⟨hv, hvs⟩
    · intro object ho
      obtain ⟨hj, ho⟩ := List.forall_mem_cons.mp ho
      simp only [Decode.members, Slot.field_eq_ok_iff.mpr hj, hr, hread object ho, ok_bind,
        pure_def]

end Lists

mutual

theorem slot_roundTrip (hg : p.Grounded) {t : FieldType} {v : Value} :
    SlotAgrees p.get? t v → RoundTrips (Encode.slot p.encoder t) (Decode.slot p.decoder t) v
  | .string s => ⟨.string s, fun _ => rfl, fun _ => rfl⟩
  | .bool b => ⟨.bool b, fun _ => rfl, fun _ => rfl⟩
  | .signed (w := w) (n := n) h => by
    refine ⟨.number (.integer n), fun place => ?_, fun place => ?_⟩
    · simp only [Encode.slot, h, if_true]
    · simp [Decode.slot, Slot.signed, Slot.integer, Number.toInt?, h]
  | .unsigned (w := w) (n := n) h => by
    refine ⟨.number (.integer n), fun place => ?_, fun place => ?_⟩
    · simp only [Encode.slot, h, if_true]
    · simp [Decode.slot, Slot.unsigned, Slot.integer, Number.toInt?, h]
  | .reference hc h => by
    have hmem := ((CodecPlan.get?_eq_some_iff hg).mp hc).1
    obtain ⟨j, hw, hr⟩ := codec_roundTrip hg (hg.distinct _ hmem) h
    refine ⟨j, fun place => ?_, fun place => ?_⟩
    · simp only [Encode.slot, CodecPlan.encoder_eq hg, hc, Option.map_some, hw]
    · simp only [Decode.slot, CodecPlan.decoder_eq hg, hc, Option.map_some, hr, mapError_ok]
  | .seq h => by
    obtain ⟨js, hw, hr⟩ := items_roundTrip fun v hv => slot_roundTrip hg (h v hv)
    refine ⟨.array js, fun place => ?_, fun place => ?_⟩
    · simp only [Encode.slot, hw, map_ok]
    · simp only [Decode.slot, Slot.seq, hr, map_ok]
  | .map ho h => by
    obtain ⟨ms, hw, hr⟩ := entries_roundTrip fun e he => slot_roundTrip hg (h e he)
    refine ⟨.object ms, fun place => ?_, fun place => ?_⟩
    · simp only [Encode.slot, hw, map_ok]
    · simp only [Decode.slot, Slot.map, hr, map_ok, Members.sorted_eq_self ho]

theorem payload_roundTrip (hg : p.Grounded) {l : Layout} {a : Payload Value} (owner : String)
    (hl : l.names.Nodup) : PayloadAgrees p.get? l a →
    ∃ j, Encode.payload p.encoder owner l a = .ok j ∧ Decode.payload p.decoder l j = .ok a
  | .unit => ⟨.null, rfl, rfl⟩
  | .newtype h => by
    obtain ⟨j, hw, hr⟩ := slot_roundTrip hg h
    exact ⟨j, hw _, by simp only [Decode.payload, hr, map_ok]⟩
  | .tuple hlen h => by
    obtain ⟨js, hjs, hw, hr⟩ :=
      elements_roundTrip hlen (fun n t v ht hv => slot_roundTrip hg (h n t v ht hv)) 0
    refine ⟨.array js, ?_, ?_⟩
    · simp only [Encode.payload, if_pos hlen, hw, map_ok]
    · simp only [Decode.payload, Slot.array, if_pos hjs, hr, ok_bind, pure_def]
  | .struct ho hn h => by
    obtain ⟨ms, vs, hw, hmn, hvn, hvs, hread⟩ := members_roundTrip (fun n hm => (hn n).mpr hm)
      fun name t v hm hv => slot_roundTrip hg (h name t v hm hv)
    have hnd : (Members.names ms).Nodup := hmn ▸ hl
    refine ⟨.object ms, ?_, ?_⟩
    · simp only [Encode.payload, hw, map_ok]
    · -- what is read stands in the order of declaration, and sorts to the values
      have hr := hread ms fun m hm => Members.get?_of_mem hnd hm
      have hs := Members.sorted_eq_of_get? ho (hvn ▸ hl) (fun n => hvn ▸ hn n) hvs
      simp only [Decode.payload, Slot.object, hr, ok_bind, pure_def, hs]

theorem codec_roundTrip (hg : p.Grounded) {c : Codec} {v : Value} (hd : c.Distinct) :
    CodecAgrees p.get? c v → ∃ j, (∀ place, Encode.definition p.encoder c v place = .ok j) ∧
      Decode.definition p.decoder p.extraKeys c j = .ok v
  | .enum (e := e) (v := v) (a := a) hv h => by
    have hv? := (EnumCodec.variant?_eq_some_iff hd.tags).mpr ⟨hv, rfl⟩
    have hn := hd.members v.layout (List.mem_map_of_mem hv)
    obtain ⟨j, hw, hr⟩ := payload_roundTrip hg v.tag hn h
    by_cases hu : v.layout = .unit
    · obtain rfl : a = .unit := by
        rw [hu] at h
        cases h
        rfl
      refine ⟨.string v.tag, fun place => ?_, ?_⟩
      · exact Encode.choice_bare hv? hu rfl
      · have hunit : v.tag ∈ e.units := EnumCodec.mem_units_iff.mpr ⟨v, hv, hu, rfl⟩
        simp [Decode.definition, Decode.choice, Tagged.ofJson, hunit]
    · refine ⟨.object [(v.tag, j)], fun place => ?_, ?_⟩
      · rw [Encode.definition, Encode.choice_wrapped hv? fun h => hu h.1, hw, map_ok]
      · simp only [Decode.definition, Decode.choice, Tagged.ofJson, ok_bind, hv?,
          Decode.wrapped_eq hu, hr, map_ok]
  | .record (r := r) h => by
    obtain ⟨j, hw, hr⟩ := payload_roundTrip hg r.name (hd.members _ (List.mem_singleton_self _)) h
    refine ⟨j, fun place => hw, ?_⟩
    simp only [Decode.definition, hr, map_ok]

end

theorem CodecPlan.roundTrip (hg : p.Grounded) {name : String} {v : Value} (h : p.Agrees name v) :
    ∃ j, p.encode name v = .ok j ∧ p.decode? name j = some (.ok v) := by
  cases h with
  | reference hc h =>
    have hmem := ((CodecPlan.get?_eq_some_iff hg).mp hc).1
    obtain ⟨j, hw, hr⟩ := codec_roundTrip hg (hg.distinct _ hmem) h
    refine ⟨j, ?_, ?_⟩
    · rw [CodecPlan.encode_eq hg hc, hw]
    · rw [CodecPlan.decode?_eq hg, hc, Option.map_some, hr]

/-- The codecs of an accepted schema read back what they write, whatever is done with extra keys. -/
theorem CodecPlan.decode_encode {s : Schema} {ir : Resolved.Schema} {ek : ExtraKeys} {name : String}
    {v : Value} (hs : Resolved.Schema.ofSchema s = .ok ir)
    (hv : (CodecPlan.ofSchema ek ir).Agrees name v) :
    ∃ j, (CodecPlan.ofSchema ek ir).encode name v = .ok j ∧
      ∀ ek', ((CodecPlan.ofSchema ek ir).withExtraKeys ek').decode? name j = some (.ok v) := by
  obtain ⟨j, hw, -⟩ := CodecPlan.roundTrip (grounded_ofSchema ek hs) hv
  refine ⟨j, hw, fun ek' => ?_⟩
  -- agreement and writing do not look at the extra keys
  obtain ⟨j', hw', hr⟩ := CodecPlan.roundTrip (grounded_ofSchema ek' hs) hv
  obtain rfl : j' = j := Except.ok.inj (hw'.symm.trans hw)
  exact hr

namespace Pages

def mark : Definition :=
  .enum ⟨"Mark", none, [⟨"Blank", none, none, []⟩,
    ⟨"Dot", some "dot", none, [⟨none, .unsigned .w8, none⟩]⟩]⟩

def page : Definition :=
  .struct ⟨"Page", none, [⟨some "title", .string, none⟩,
    ⟨some "marks", .seq (.reference "Mark"), none⟩]⟩

/-- Pages of marks, on which the theorems about plans are tried. -/
def schema : Schema := ⟨"pages", none, [page, mark], 0⟩

def resolved : Resolved.Schema :=
  .ofDefinitions "pages" none [
    .enum ⟨"Mark", none, [⟨"Blank", "Blank", none, .unit, [], "blank"⟩,
      ⟨"Dot", "dot", none, .newtype, [⟨none, .unsigned .w8, none⟩], "dot"⟩]⟩,
    .struct ⟨"Page", none, .struct, [⟨some "title", .string, none⟩,
      ⟨some "marks", .seq (.reference "Mark"), none⟩]⟩]

theorem ofSchema_schema : Resolved.Schema.ofSchema schema = .ok resolved := by
  have hd : schema.dependencyOrder = .ok [mark, page] := by cbv
  exact Resolved.ofSchema_of_ordered (by decide +kernel) hd (by decide +kernel)

def plan (ek : ExtraKeys) : CodecPlan := .ofSchema ek resolved

def dotted : Value :=
  .record (.struct [("marks", .seq [.variant ⟨"dot", .newtype (.unsigned 7)⟩,
    .variant ⟨"Blank", .unit⟩]), ("title", .string "one")])

theorem agrees_dotted (ek : ExtraKeys) : (plan ek).Agrees "Page" dotted := by
  refine .reference rfl (.record (.struct ?_ ?_ ?_))
  · rw [Members.Ascending]
    decide
  · intro name
    exact List.Perm.mem_iff (.swap _ _ _)
  · intro name t v ht hv
    rcases List.mem_pair.mp ht with h | h
    · obtain ⟨rfl, rfl⟩ := Prod.mk.inj h
      obtain rfl := Option.some.inj hv
      exact .string "one"
    · obtain ⟨rfl, rfl⟩ := Prod.mk.inj h
      obtain rfl := Option.some.inj hv
      refine .seq fun v hv => ?_
      rcases List.mem_pair.mp hv with rfl | rfl
      · exact .reference rfl (.enum (v := ⟨"Dot", "dot", .newtype (.unsigned .w8)⟩)
          (List.mem_cons_of_mem _ List.mem_cons_self) (.newtype (.unsigned (by decide))))
      · exact .reference rfl (.enum (v := ⟨"Blank", "Blank", .unit⟩) List.mem_cons_self .unit)

end Pages

theorem CodecPlan.decode_encode_dotted :
    Resolved.Schema.ofSchema Pages.schema = .ok Pages.resolved ∧
      (CodecPlan.ofSchema .reject Pages.resolved).Agrees "Page" Pages.dotted ∧
      ∃ j, (CodecPlan.ofSchema .reject Pages.resolved).encode "Page" Pages.dotted = .ok j ∧
        ∀ ek', ((CodecPlan.ofSchema .reject Pages.resolved).withExtraKeys ek').decode? "Page" j =
          some (.ok Pages.dotted) :=
  ⟨Pages.ofSchema_schema, Pages.agrees_dotted .reject,
    CodecPlan.decode_encode Pages.ofSchema_schema (Pages.agrees_dotted .reject)⟩

end TaggedSum
