import TaggedSum.Proofs.Codec.RoundTrip
import TaggedSum.Proofs.Codec.Trimming

namespace TaggedSum

open Outcome

variable {p : CodecPlan}

mutual

/-- A value is written as what trimming leaves of it. -/
theorem SlotTrims.write_eq (hg : p.Grounded) {t : FieldType} {v u : Value} :
    SlotTrims p.get? t v u →
      ∀ place, Encode.slot p.encoder t v place = Encode.slot p.encoder t u place
  | .string _, _ => rfl
  | .bool _, _ => rfl
  | .signed _, _ => rfl
  | .unsigned _, _ => rfl
  | .reference hc h, place => by
    have hmem := ((CodecPlan.get?_eq_some_iff hg).mp hc).1
    simp only [Encode.slot, CodecPlan.encoder_eq hg, hc, Option.map_some]
    exact h.write_eq hg (hg.distinct _ hmem) place
  | .seq hl h, place => by
    have hvu := Lists.forall₂_of_getElem? hl fun n v u hv hu => (h n v u hv hu).write_eq hg
    simp only [Encode.slot, Encode.items_eq hvu]
  | .map _ hn h, place => by
    have heu : Members.Related (fun v u => ∀ place, Encode.slot p.encoder _ v place =
        Encode.slot p.encoder _ u place) _ _ :=
      Members.related_of_getElem? hn fun n e u he hu => (h n e u he hu).write_eq hg
    simp only [Encode.slot, Encode.entries_eq heu]

theorem PayloadTrims.write_eq (hg : p.Grounded) {l : Layout} {a b : Payload Value} :
    PayloadTrims p.get? l a b →
      ∀ owner, Encode.payload p.encoder owner l a = Encode.payload p.encoder owner l b
  | .unit, _ => rfl
  | .newtype h, _ => h.write_eq hg _
  | .tuple hl hl' h, _ => by
    have hvu := Encode.elements_eq hl hl'
      (fun n t v u ht hv hu => (h n t v u ht hv hu).write_eq hg) 0
    simp only [Encode.payload, if_pos hl, if_pos hl', hvu]
  | @PayloadTrims.struct _ fields values us _ _ hd hn h, _ => by
    have hvu : ∀ name t, (name, t) ∈ fields → ∃ v u, Members.get? name values = some v ∧
        Members.get? name us = some u ∧
        ∀ place, Encode.slot p.encoder t v place = Encode.slot p.encoder t u place := by
      intro name t ht
      have hname := Members.mem_names_of_mem ht
      obtain ⟨v, hv⟩ := Members.get?_of_mem_names (hd name hname)
      obtain ⟨u, hu⟩ := Members.get?_of_mem_names ((hn name).mpr hname)
      exact ⟨v, u, hv, hu, (h name t v u ht hv hu).write_eq hg⟩
    simp only [Encode.payload, Encode.members_eq hvu]

theorem CodecTrims.write_eq (hg : p.Grounded) {c : Codec} {v u : Value} (hd : c.Distinct) :
    CodecTrims p.get? c v u →
      ∀ place, Encode.definition p.encoder c v place = Encode.definition p.encoder c u place
  | @CodecTrims.enum _ e w a b hw h, place => by
    have hw? := (EnumCodec.variant?_eq_some_iff hd.tags).mpr ⟨hw, rfl⟩
    by_cases hu : w.layout = .unit
    · -- a unit payload has nothing to trim
      rw [hu] at h
      cases h
      rfl
    · have ha := Encode.choice_wrapped (f := p.encoder) (a := ⟨w.tag, a⟩) hw? fun h => hu h.1
      have hb := Encode.choice_wrapped (f := p.encoder) (a := ⟨w.tag, b⟩) hw? fun h => hu h.1
      simp only [Encode.definition, ha, hb, h.write_eq hg]
  | .record h, _ => h.write_eq hg _

end

section Trimmed

variable {t : FieldType}

theorem exists_seqTrims {vs : List Value} {place : Location} {i : Nat} {js : List Json}
    (hjs : Encode.items (Encode.slot p.encoder t) place i vs = .ok js)
    (h : ∀ v ∈ vs, ∀ place j, Encode.slot p.encoder t v place = .ok j →
      ∃ u, SlotTrims p.get? t v u) : ∃ u, SlotTrims p.get? (.seq t) (.seq vs) u := by
  have hvs : ∀ v ∈ vs, ∃ u, SlotTrims p.get? t v u := by
    intro v hv
    obtain ⟨j, -, place, hj⟩ := Lists.exists_of_mem_left (Encode.forall₂_of_items hjs) hv
    exact h v hv place j hj
  obtain ⟨us, hus⟩ := Lists.exists_forall₂ hvs
  exact ⟨.seq us, .seq hus.length_eq fun n v u hv hu => Lists.rel_of_getElem? hus hv hu⟩

theorem exists_mapTrims {es : List (String × Value)} {place : Location} {ms : List (String × Json)}
    (ho : Members.Ascending es)
    (hms : Encode.entries (Encode.slot p.encoder t) place es = .ok ms)
    (h : ∀ e ∈ es, ∀ place j, Encode.slot p.encoder t e.2 place = .ok j →
      ∃ u, SlotTrims p.get? t e.2 u) : ∃ u, SlotTrims p.get? (.map t) (.map es) u := by
  have hes : ∀ e ∈ es, ∃ u : String × Value, e.1 = u.1 ∧ SlotTrims p.get? t e.2 u.2 := by
    intro e he
    obtain ⟨m, -, -, place, hm⟩ := Lists.exists_of_mem_left (Encode.related_of_entries hms) he
    obtain ⟨u, hu⟩ := h e he place m.2 hm
    exact ⟨(e.1, u), rfl, hu⟩
  obtain ⟨us, hus⟩ := Lists.exists_forall₂ hes
  refine ⟨.map us, .map ho (Members.names_related hus) fun n e u he hu => ?_⟩
  exact (Lists.rel_of_getElem? hus he hu).2

theorem exists_tupleTrims {ts : List FieldType} {vs : List Value} {i : Nat} {js : List Json}
    (hl : ts.length = vs.length) (hjs : Encode.elements p.encoder i ts vs = .ok js)
    (h : ∀ t ∈ ts, ∀ v ∈ vs, ∀ place j, Encode.slot p.encoder t v place = .ok j →
      ∃ u, SlotTrims p.get? t v u) : ∃ b, PayloadTrims p.get? (.tuple ts) (.tuple vs) b := by
  obtain ⟨-, hall⟩ := Encode.getElem?_of_elements hl hjs
  have hvs : ∀ (n : Nat) (t : FieldType) (v : Value), ts[n]? = some t → vs[n]? = some v →
      ∃ u, SlotTrims p.get? t v u := by
    intro n t v ht hv
    obtain ⟨v', j, place, hv', -, hj⟩ := hall n t ht
    obtain rfl := Option.some.inj (hv.symm.trans hv')
    exact h t (List.mem_of_getElem? ht) v (List.mem_of_getElem? hv) place j hj
  obtain ⟨us, hus, hvu⟩ := Lists.exists_forall₃ hl hvs
  exact ⟨.tuple us, .tuple hl hus hvu⟩

/-- The members are taken in the order of declaration and sorted afterwards. -/
theorem exists_structTrims {fields : List (String × FieldType)} {values : List (String × Value)}
    {ms : List (String × Json)} (hf : (Members.names fields).Nodup) (ho : Members.Ascending values)
    (hms : Encode.members p.encoder values fields = .ok ms)
    (h : ∀ name t, (name, t) ∈ fields → ∀ v, (name, v) ∈ values → ∀ place j,
      Encode.slot p.encoder t v place = .ok j → ∃ u, SlotTrims p.get? t v u) :
    ∃ b, PayloadTrims p.get? (.struct fields) (.struct values) b := by
  obtain ⟨-, hall⟩ := Encode.get?_of_members hms
  have hfields : ∀ m ∈ fields, ∃ u : String × Value, m.1 = u.1 ∧
      ∃ v, Members.get? m.1 values = some v ∧ SlotTrims p.get? m.2 v u.2 := by
    rintro ⟨name, t⟩ ht
    obtain ⟨v, j, place, hv, -, hj⟩ := hall name t ht
    obtain ⟨u, hu⟩ := h name t ht v (Members.mem_of_get? hv) place j hj
    exact ⟨(name, u), rfl, v, hv, hu⟩
  obtain ⟨us, hus⟩ := Lists.exists_forall₂ hfields
  have hn : Members.names us = Members.names fields :=
    (Members.names_related (r := fun _ _ => True) (hus.imp fun _ _ h => ⟨h.1, trivial⟩)).symm
  have hnd : (Members.names us).Nodup := hn ▸ hf
  refine ⟨.struct (Members.sorted us), .struct ho (Members.ascending_sorted us) ?_ ?_ ?_⟩
  · intro name hname
    obtain ⟨t, ht⟩ := Members.exists_of_mem_names hname
    obtain ⟨v, -, -, hv, -⟩ := hall name t ht
    exact Members.mem_names_of_mem (Members.mem_of_get? hv)
  · intro name
    rw [Members.mem_names_sorted hnd, hn]
  · intro name t v u ht hv hu
    rw [Members.get?_sorted hnd] at hu
    obtain ⟨⟨name', u'⟩, hu', rfl, v', hv', hvu⟩ := Lists.exists_of_mem_left hus ht
    obtain rfl := Option.some.inj (hv.symm.trans hv')
    obtain rfl := Option.some.inj (hu.symm.trans (Members.get?_of_mem hnd hu'))
    exact hvu

end Trimmed

/-- A codec writes only what can be trimmed. -/
def Trimmable (p : CodecPlan) (c : Codec) : Prop :=
  ∀ v place j, v.Ordered → Encode.definition p.encoder c v place = .ok j →
    ∃ u, CodecTrims p.get? c v u

theorem exists_slotTrims (hg : p.Grounded) {t : FieldType} {v : Value} {place : Location} {j : Json}
    (hc : ∀ r, t.reference? = some r → ∀ c, p.get? r = some c → Trimmable p c) (ho : v.Ordered)
    (h : Encode.slot p.encoder t v place = .ok j) : ∃ u, SlotTrims p.get? t v u := by
  -- a value of any other kind is refused
  induction t generalizing v place j with
  | string =>
    cases v with
    | string s => exact ⟨_, .string s⟩
    | _ => cases h
  | bool =>
    cases v with
    | bool b => exact ⟨_, .bool b⟩
    | _ => cases h
  | signed w =>
    cases v with
    | signed n =>
      by_cases hn : w.fitsSigned n
      · exact ⟨_, .signed hn⟩
      · simp [Encode.slot, Encode.mismatch, hn] at h
    | _ => cases h
  | unsigned w =>
    cases v with
    | unsigned n =>
      by_cases hn : w.fitsUnsigned n
      · exact ⟨_, .unsigned hn⟩
      · simp [Encode.slot, Encode.mismatch, hn] at h
    | _ => cases h
  | reference name =>
    simp only [Encode.slot, CodecPlan.encoder_eq hg] at h
    cases hcodec : p.get? name with
    | none => simp [hcodec] at h
    | some c =>
      simp only [hcodec, Option.map_some] at h
      obtain ⟨u, hu⟩ := hc name rfl c hcodec v place j ho h
      exact ⟨u, .reference hcodec hu⟩
  | seq item ih =>
    cases ho with
    | @seq vs ho =>
      obtain ⟨js, hjs, rfl⟩ := map_eq_ok.mp h
      exact exists_seqTrims hjs fun v hv place j hj => ih hc (ho v hv) hj
    | _ => cases h
  | map entry ih =>
    cases ho with
    | @map es ha ho =>
      obtain ⟨ms, hms, rfl⟩ := map_eq_ok.mp h
      exact exists_mapTrims ha hms fun e he place j hj => ih hc (ho e he) hj
    | _ => cases h

theorem exists_payloadTrims {l : Layout} {owner : String} {a : Payload Value} {j : Json}
    (hl : l.names.Nodup)
    (hs : ∀ t ∈ l.types, ∀ v place j, v.Ordered → Encode.slot p.encoder t v place = .ok j →
      ∃ u, SlotTrims p.get? t v u) (ho : a.Ordered)
    (h : Encode.payload p.encoder owner l a = .ok j) : ∃ b, PayloadTrims p.get? l a b := by
  -- a payload of any other shape is refused
  cases l with
  | unit =>
    cases ho with
    | unit => exact ⟨_, .unit⟩
    | _ => cases h
  | newtype t =>
    cases ho with
    | newtype ho =>
      obtain ⟨u, hu⟩ := hs t List.mem_cons_self _ _ j ho h
      exact ⟨_, .newtype hu⟩
    | _ => cases h
  | tuple ts =>
    cases ho with
    | @tuple vs ho =>
      by_cases hlen : ts.length = vs.length
      · simp only [Encode.payload, if_pos hlen] at h
        obtain ⟨js, hjs, rfl⟩ := map_eq_ok.mp h
        exact exists_tupleTrims hlen hjs fun t ht v hv place j hj => hs t ht v place j (ho v hv) hj
      · simp [Encode.payload, hlen] at h
    | _ => cases h
  | struct fields =>
    cases ho with
    | @struct values ha ho =>
      obtain ⟨ms, hms, rfl⟩ := map_eq_ok.mp h
      refine exists_structTrims hl ha hms fun name t ht v hv place j hj => ?_
      exact hs t (List.mem_map.mpr ⟨_, ht, rfl⟩) v place j (ho _ hv) hj
    | _ => cases h

theorem trimmable (hg : p.Grounded) : ∀ c ∈ p.codecs, Trimmable p c := by
  refine hg.induction_slots fun c hc ih => ?_
  have hs : ∀ l ∈ c.layouts, ∀ t ∈ l.types, ∀ v place j, v.Ordered →
      Encode.slot p.encoder t v place = .ok j → ∃ u, SlotTrims p.get? t v u :=
    fun l hl t ht v place j ho h => exists_slotTrims hg (ih l hl t ht) ho h
  have hdis := hg.distinct c hc
  intro v place j ho h
  cases c with
  | enum e =>
    cases ho with
    | @variant tag a ho =>
      simp only [Encode.definition] at h
      cases hw? : e.variant? tag with
      | none => simp [Encode.choice, hw?] at h
      | some w =>
        obtain ⟨hw, rfl⟩ := (EnumCodec.variant?_eq_some_iff hdis.tags).mp hw?
        have hl : w.layout ∈ (Codec.enum e).layouts := List.mem_map_of_mem hw
        -- a unit layout with any other payload is refused as it is written
        by_cases hu : w.layout = .unit ∧ a = .unit
        · obtain ⟨hu, rfl⟩ := hu
          have hunit : PayloadTrims p.get? w.layout .unit .unit := hu ▸ .unit
          exact ⟨_, .enum hw hunit⟩
        · rw [Encode.choice_wrapped hw? hu] at h
          obtain ⟨k, hk, rfl⟩ := map_eq_ok.mp h
          obtain ⟨b, hb⟩ := exists_payloadTrims (hdis.members _ hl) (hs _ hl) ho hk
          exact ⟨_, .enum hw hb⟩
    | _ => cases h
  | record r =>
    cases ho with
    | record ho =>
      have hl : r.layout ∈ (Codec.record r).layouts := List.mem_singleton_self _
      obtain ⟨b, hb⟩ := exists_payloadTrims (hdis.members _ hl) (hs _ hl) ho h
      exact ⟨_, .record hb⟩
    | _ => cases h

namespace CodecPlan

variable {name : String} {v u : Value} {j : Json}

theorem encode_eq_of_trims (hg : p.Grounded) (h : p.Trims name v u) :
    p.encode name v = p.encode name u := by
  cases h with
  | reference hc h =>
    have hmem := ((get?_eq_some_iff hg).mp hc).1
    rw [encode_eq hg hc, encode_eq hg hc, h.write_eq hg (hg.distinct _ hmem)]

theorem exists_trims (hg : p.Grounded) (ho : v.Ordered) (h : p.encode name v = .ok j) :
    ∃ u, p.Trims name v u := by
  cases hc : p.get? name with
  | none =>
    rw [encode, ← encoder, encoder_eq hg, hc] at h
    cases h
  | some c =>
    rw [encode_eq hg hc] at h
    obtain ⟨u, hu⟩ := trimmable hg c ((get?_eq_some_iff hg).mp hc).1 v _ j ho h
    exact ⟨u, .reference hc hu⟩

/-- Trimming leaves the value that the written document reads back as. -/
theorem decode?_of_trims (hg : p.Grounded) (hu : p.Trims name v u) (h : p.encode name v = .ok j) :
    p.decode? name j = some (.ok u) := by
  obtain ⟨k, hw, hr⟩ := roundTrip hg hu.agrees
  rw [encode_eq_of_trims hg hu, hw] at h
  rwa [← Except.ok.inj h]

theorem agrees_iff_not_excess (hg : p.Grounded) (hu : p.Trims name v u) :
    p.Agrees name v ↔ ¬p.Excess name v := by
  constructor
  · exact fun hv => hv.not_excess hg
  · intro hx
    rw [hu.eq_of_not_excess hx]
    exact hu.agrees

/-- Of a value, writing discards the members that are not declared, and nothing else. -/
structure DiscardsUndeclared (p : CodecPlan) (name : String) : Prop where
  /-- A value is written if it can be trimmed, and as what is left of it. -/
  written : ∀ v j, v.Ordered →
    (p.encode name v = .ok j ↔ ∃ u, p.Trims name v u ∧ p.encode name u = .ok j)
  /-- What is left agrees, and is the value itself if there is nothing to discard. -/
  left : ∀ v u, p.Trims name v u → p.Agrees name u ∧ (u = v ↔ ¬p.Excess name v)
  /-- Whatever else keeps a value from agreeing has it refused. -/
  agrees_iff : ∀ v, v.Ordered →
    (p.Agrees name v ↔ (∃ j, p.encode name v = .ok j) ∧ ¬p.Excess name v)
  /-- Values with nothing to discard are told apart by their documents. -/
  injective : ∀ v v' j, v.Ordered → v'.Ordered → ¬p.Excess name v → ¬p.Excess name v' →
    p.encode name v = .ok j → p.encode name v' = .ok j → v = v'
  /-- Any other value shares its document with one that agrees. -/
  excess_iff : ∀ v j, v.Ordered → p.encode name v = .ok j →
    (p.Excess name v ↔ ∃ u, u ≠ v ∧ p.Agrees name u ∧ p.encode name u = .ok j)

theorem discardsUndeclared (hg : p.Grounded) (name : String) : p.DiscardsUndeclared name where
  written v j ho := by
    constructor
    · intro h
      obtain ⟨u, hu⟩ := exists_trims hg ho h
      exact ⟨u, hu, (encode_eq_of_trims hg hu).symm.trans h⟩
    · rintro ⟨u, hu, h⟩
      exact (encode_eq_of_trims hg hu).trans h
  left v u hu := by
    refine ⟨hu.agrees, fun h => ?_, fun hx => (hu.eq_of_not_excess hx).symm⟩
    exact (agrees_iff_not_excess hg hu).mp (h ▸ hu.agrees)
  agrees_iff v ho := by
    constructor
    · intro hv
      obtain ⟨j, h, -⟩ := roundTrip hg hv
      exact ⟨⟨j, h⟩, hv.not_excess hg⟩
    · rintro ⟨⟨j, h⟩, hx⟩
      obtain ⟨u, hu⟩ := exists_trims hg ho h
      exact (agrees_iff_not_excess hg hu).mpr hx
  injective v v' j ho ho' hx hx' h h' := by
    obtain ⟨u, hu⟩ := exists_trims hg ho h
    obtain ⟨u', hu'⟩ := exists_trims hg ho' h'
    have hr := (decode?_of_trims hg hu h).symm.trans (decode?_of_trims hg hu' h')
    rw [hu.eq_of_not_excess hx, hu'.eq_of_not_excess hx']
    exact Except.ok.inj (Option.some.inj hr)
  excess_iff v j ho h := by
    obtain ⟨u, hu⟩ := exists_trims hg ho h
    constructor
    · intro hx
      refine ⟨u, ?_, hu.agrees, (encode_eq_of_trims hg hu).symm.trans h⟩
      rintro rfl
      exact (agrees_iff_not_excess hg hu).mp hu.agrees hx
    · rintro ⟨u', hne, hu', h'⟩
      by_contra hx
      -- both are what the document reads back as
      obtain ⟨k, hw, hr⟩ := roundTrip hg hu'
      rw [Except.ok.inj (hw.symm.trans h'), decode?_of_trims hg hu h] at hr
      obtain rfl := Except.ok.inj (Option.some.inj hr)
      exact hne (hu.eq_of_not_excess hx).symm

/-- The codecs of an accepted schema refuse whatever does not agree, but for members that are not
declared, which they discard. -/
theorem discardsUndeclared_of_ofSchema {s : Schema} {ir : Resolved.Schema} {ek : ExtraKeys}
    (name : String) (hs : Resolved.Schema.ofSchema s = .ok ir) :
    (CodecPlan.ofSchema ek ir).DiscardsUndeclared name :=
  discardsUndeclared (grounded_ofSchema ek hs) name

end CodecPlan

namespace Pages

/-- The page with dots, and an author that pages do not have. -/
def authored : Value :=
  .record (.struct [("author", .string "x"),
    ("marks", .seq [.variant ⟨"dot", .newtype (.unsigned 7)⟩, .variant ⟨"Blank", .unit⟩]),
    ("title", .string "one")])

theorem ordered_authored : authored.Ordered := by
  have h : dotted.Ordered := (agrees_dotted .reject).ordered
  cases h with
  | record h =>
    cases h with
    | struct _ h =>
      refine .record (.struct ?_ (List.forall_mem_cons.mpr ⟨.string "x", h⟩))
      rw [Members.Ascending]
      decide

theorem excess_authored (ek : ExtraKeys) : (plan ek).Excess "Page" authored := by
  have hv : "author" ∉ ["title", "marks"] := by decide
  exact .reference rfl (.record (.undeclared List.mem_cons_self hv))

end Pages

theorem CodecPlan.discardsUndeclared_pages :
    Resolved.Schema.ofSchema Pages.schema = .ok Pages.resolved ∧
      (CodecPlan.ofSchema .reject Pages.resolved).DiscardsUndeclared "Page" :=
  ⟨Pages.ofSchema_schema, CodecPlan.discardsUndeclared_of_ofSchema "Page" Pages.ofSchema_schema⟩

/-- The author is lost: the page does not agree, and is written as the page without it. -/
theorem CodecPlan.encode_authored :
    Resolved.Schema.ofSchema Pages.schema = .ok Pages.resolved ∧ Pages.authored.Ordered ∧
      ¬(CodecPlan.ofSchema .reject Pages.resolved).Agrees "Page" Pages.authored ∧
      Pages.authored ≠ Pages.dotted ∧
      ∃ j, (CodecPlan.ofSchema .reject Pages.resolved).encode "Page" Pages.authored = .ok j ∧
        (CodecPlan.ofSchema .reject Pages.resolved).encode "Page" Pages.dotted = .ok j := by
  have hv : ¬(Pages.plan .reject).Agrees "Page" Pages.authored := fun hv =>
    hv.not_excess (grounded_ofSchema .reject Pages.ofSchema_schema) (Pages.excess_authored .reject)
  refine ⟨Pages.ofSchema_schema, Pages.ordered_authored, hv, ?_, _, rfl, rfl⟩
  intro h
  exact hv (h ▸ Pages.agrees_dotted .reject)

end TaggedSum
