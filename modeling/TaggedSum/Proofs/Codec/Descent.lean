import TaggedSum.Proofs.Codec.Failure
import TaggedSum.Proofs.Codec.Lookup
import TaggedSum.Proofs.Codec.RoundTrip

namespace TaggedSum

open Outcome

/-- How many references the place goes through. -/
def Location.nestings : Location → Nat
  | payload => 0
  | index _ => 0
  | name _ => 0
  | element field _ => field.nestings
  | entry field _ => field.nestings
  | nested field inner => field.nestings + inner.nestings + 1

def DecodeError.nestings : DecodeError → Nat
  | typeMismatch place _ => place.nestings
  | _ => 0

theorem DecodeError.nestings_within (place : Location) (e : DecodeError) :
    (e.within place).nestings ≤ place.nestings + e.nestings + 1 := by
  cases e with
  | typeMismatch inner expected => exact Nat.le_refl _
  | _ => exact Nat.zero_le _

namespace CodecPlan

variable {p : CodecPlan}

/-- The second codec refers to the first one. -/
def Follows (p : CodecPlan) (d c : Codec) : Prop := ∃ r ∈ c.references, p.get? r = some d

/-- Reading by look-up in the whole plan, with only so many calls within calls; `stop` is called in
the place of what would go deeper. -/
def unrolled (p : CodecPlan) (stop : Decoder) : Nat → String → Option Decoder
  | 0, name => (p.get? name).map fun _ => stop
  | depth + 1, name => (p.get? name).map (Decode.definition (p.unrolled stop depth) p.extraKeys)

/-- Reading goes down the plan, and comes to an end on every document. -/
structure Descends (p : CodecPlan) : Prop where
  /-- References lead to earlier positions or nowhere. -/
  below : ∀ (i : Nat) (c : Codec), p.codecs[i]? = some c → ∀ r ∈ c.references, p.get? r = none ∨
    ∃ k d, k < i ∧ p.codecs[k]? = some d ∧ p.get? r = some d
  /-- A codec reads the same with whatever reads the codecs at its own and later positions. -/
  reads : ∀ (i : Nat) (c : Codec), p.codecs[i]? = some c → ∀ f : String → Option Decoder,
    (∀ r, (∀ d, p.get? r = some d → ∃ k < i, p.codecs[k]? = some d) → f r = p.decoder r) →
      Decode.definition f p.extraKeys c = Decode.definition p.decoder p.extraKeys c
  /-- There is no endless chain of references. -/
  wellFounded : WellFounded p.Follows
  /-- No more calls within calls than codecs are made, so none of them is to `stop`. -/
  decode : ∀ stop depth, p.codecs.length ≤ depth → ∀ name j,
    p.decode? name j = (p.unrolled stop depth name).map (· j)
  decodeChoice : ∀ stop depth, p.codecs.length ≤ depth → ∀ name j,
    p.decodeChoice? name j = match p.get? name with
      | some (.enum e) => some (Decode.choice (p.unrolled stop depth) p.extraKeys e j)
      | _ => none
  /-- A reported place goes through no more references than there are codecs before the one read. -/
  nestings : ∀ name j place expected,
    p.decode? name j = some (.error (.typeMismatch place expected)) ∨
      p.decodeChoice? name j = some (.error (.typeMismatch place expected)) →
    ∃ i c, p.codecs[i]? = some c ∧ c.name = name ∧ place.nestings ≤ i

/-- A position is that of the codec found there. -/
theorem Grounded.rank_eq (hg : p.Grounded) {i : Nat} {c : Codec} (h : p.codecs[i]? = some c) :
    p.rank c = i := by
  obtain ⟨hi, rfl⟩ := List.getElem?_eq_some_iff.mp h
  exact (List.Nodup.of_map _ hg.names_nodup).idxOf_getElem i hi

theorem getElem?_rank {c : Codec} (hc : c ∈ p.codecs) : p.codecs[p.rank c]? = some c :=
  List.getElem?_eq_some_iff.mpr ⟨rank_lt_length hc, List.getElem_idxOf _⟩

theorem Grounded.rank_lt_of_follows (hg : p.Grounded) {c d : Codec} (h : p.Follows d c) :
    p.rank d < p.rank c := by
  obtain ⟨r, hr, hd⟩ := h
  obtain ⟨hmem, rfl⟩ := (get?_eq_some_iff hg).mp hd
  by_cases hc : c ∈ p.codecs
  · exact hg.rank_lt hc hmem hr
  · have : p.rank c = p.codecs.length := List.idxOf_eq_length_iff.mpr hc
    exact this ▸ rank_lt_length hmem

/-- Deep enough for a codec's position is deep enough for the codec: what it refers to is at an
earlier position, and is called with one call less left. -/
theorem Grounded.definition_unrolled (hg : p.Grounded) (stop : Decoder) : ∀ c ∈ p.codecs,
    ∀ depth, p.rank c ≤ depth → Decode.definition (p.unrolled stop depth) p.extraKeys c =
      Decode.definition p.decoder p.extraKeys c := by
  refine hg.induction fun c hc ih depth hdepth => Decode.definition_congr fun r hr => ?_
  cases hd : p.get? r with
  | none =>
    rw [decoder_eq_none hg hd]
    cases depth <;> simp only [unrolled, hd, Option.map_none]
  | some d =>
    have hlt := hg.rank_lt_of_follows ⟨r, hr, hd⟩
    obtain ⟨hmem, rfl⟩ := (get?_eq_some_iff hg).mp hd
    cases depth with
    | zero => exact absurd hlt (Nat.le_zero.mp hdepth ▸ Nat.not_lt_zero _)
    | succ depth =>
      rw [decoder_of_get? hg hd, unrolled, hd, Option.map_some,
        ih d hmem hr depth (Nat.le_of_lt_succ (Nat.lt_of_lt_of_le hlt hdepth))]

theorem Grounded.unrolled_eq (hg : p.Grounded) (stop : Decoder) {depth : Nat}
    (h : p.codecs.length ≤ depth) : p.unrolled stop depth = p.decoder := by
  funext name
  rw [decoder_eq hg]
  cases hc : p.get? name with
  | none => cases depth <;> simp only [unrolled, hc, Option.map_none]
  | some c =>
    have hlt := Nat.lt_of_lt_of_le (rank_lt_length ((get?_eq_some_iff hg).mp hc).1) h
    cases depth with
    | zero => cases hlt
    | succ depth =>
      rw [unrolled, hc, Option.map_some, Option.map_some, hg.definition_unrolled stop c
        ((get?_eq_some_iff hg).mp hc).1 depth (Nat.le_of_lt_succ hlt)]

end CodecPlan

section Nestings

variable {f : String → Option Decoder} {ek : ExtraKeys} {n : Nat} {t : FieldType} {l : Layout}
  {e : DecodeError} {j : Json} {here : Location}

/-- What the slot refers to reports places that go through fewer references. -/
def ReferencesNest (f : String → Option Decoder) (n : Nat) (t : FieldType) : Prop :=
  ∀ r, t.reference? = some r → ∀ g, f r = some g → ∀ j e, g j = .error e → e.nestings < n

theorem nestings_slot (hr : ReferencesNest f n t) (h : Decode.SlotFails f t j here e) :
    e.nestings ≤ here.nestings + n := by
  induction h with
  | refused => exact Nat.le_add_right _ _
  | unresolved => exact Nat.zero_le _
  | @within name g j here e hg he =>
    have hn := hr name rfl g hg j e he
    calc (e.within here).nestings ≤ here.nestings + e.nestings + 1 := e.nestings_within here
      _ ≤ here.nestings + n := Nat.add_lt_add_left hn _
  | element _ _ ih => exact ih hr
  | entry _ _ ih => exact ih hr

theorem nestings_payload (hr : ∀ t ∈ l.types, ReferencesNest f n t)
    (h : Decode.PayloadFails f l j e) : e.nestings ≤ n := by
  have hslot : ∀ t ∈ l.types, ∀ {k here}, here.nestings = 0 → Decode.SlotFails f t k here e →
      e.nestings ≤ n := by
    intro t ht k here hz hk
    simpa [hz] using nestings_slot (hr t ht) hk
  cases h with
  | refused => exact Nat.zero_le _
  | arity => exact Nat.zero_le _
  | missing => exact Nat.zero_le _
  | newtype h => exact hslot _ List.mem_cons_self rfl h
  | element ht _ h => exact hslot _ (List.mem_of_getElem? ht) rfl h
  | member ht _ h => exact hslot _ (List.mem_map_of_mem ht) rfl h

theorem nestings_choice {c : EnumCodec}
    (hr : ∀ v ∈ c.variants, ∀ t ∈ v.layout.types, ReferencesNest f n t)
    (h : Decode.choice f ek c j = .error e) : e.nestings ≤ n := by
  cases e with
  | typeMismatch place expected =>
    obtain ⟨ms, v, k, -, hv, -, hk⟩ := Decode.choice_eq_typeMismatch h
    have hv := hr v (List.mem_of_find?_eq_some hv)
    exact nestings_payload hv (Decode.payloadFails_of_eq_error hk)
  | _ => exact Nat.zero_le _

theorem nestings_definition {c : Codec} (hr : ∀ l ∈ c.layouts, ∀ t ∈ l.types, ReferencesNest f n t)
    (h : Decode.definition f ek c j = .error e) : e.nestings ≤ n := by
  cases c with
  | enum c =>
    exact nestings_choice (fun v hv => hr v.layout (List.mem_map_of_mem hv)) (map_eq_error.mp h)
  | record r =>
    have hp := Decode.payloadFails_of_eq_error (map_eq_error.mp h)
    exact nestings_payload (hr r.layout List.mem_cons_self) hp

end Nestings

namespace CodecPlan

variable {p : CodecPlan}

/-- The places that a codec reports go through codecs at ever earlier positions. -/
theorem Grounded.nestings_le (hg : p.Grounded) : ∀ c ∈ p.codecs, ∀ j e,
    Decode.definition p.decoder p.extraKeys c j = .error e → e.nestings ≤ p.rank c := by
  refine hg.induction fun c hc ih j e h => nestings_definition ?_ h
  intro l hl t ht r hr g hdec k e he
  have href := Codec.mem_references hl ht hr
  cases hd : p.get? r with
  | none => rw [decoder_eq_none hg hd] at hdec; cases hdec
  | some d =>
    rw [decoder_of_get? hg hd] at hdec
    cases hdec
    have hlt := hg.rank_lt_of_follows ⟨r, href, hd⟩
    obtain ⟨hmem, rfl⟩ := (get?_eq_some_iff hg).mp hd
    exact Nat.lt_of_le_of_lt (ih d hmem href k e he) hlt

theorem Grounded.descends (hg : p.Grounded) : p.Descends where
  below i c hc r hr := by
    cases hd : p.get? r with
    | none => exact .inl rfl
    | some d =>
      -- the rank of a codec is its index, and what it refers to ranks lower
      have hmem := ((get?_eq_some_iff hg).mp hd).1
      exact .inr ⟨p.rank d, d, hg.rank_eq hc ▸ hg.rank_lt_of_follows ⟨r, hr, hd⟩,
        getElem?_rank hmem, rfl⟩
  reads i c hc f hf := by
    refine Decode.definition_congr fun r hr => hf r fun d hd => ?_
    have hmem := ((get?_eq_some_iff hg).mp hd).1
    exact ⟨p.rank d, hg.rank_eq hc ▸ hg.rank_lt_of_follows ⟨r, hr, hd⟩, getElem?_rank hmem⟩
  wellFounded := Subrelation.wf hg.rank_lt_of_follows (measure p.rank).wf
  decode stop depth h name j := by rw [hg.unrolled_eq stop h, decoder, decode?]
  decodeChoice stop depth h name j := by
    rw [hg.unrolled_eq stop h]
    refine (decodeChoice?_eq hg name j).trans ?_
    rcases p.get? name with _ | _ | _ <;> rfl
  nestings name j place expected h := by
    have hread : ∃ c, p.get? name = some c ∧
        Decode.definition p.decoder p.extraKeys c j = .error (.typeMismatch place expected) := by
      rcases h with h | h
      · rw [decode?_eq hg] at h
        exact Option.map_eq_some_iff.mp h
      · rw [decodeChoice?_eq hg] at h
        split at h
        · next e he => exact ⟨.enum e, he, map_eq_error.mpr (Option.some.inj h)⟩
        · cases h
    obtain ⟨c, hc, hj⟩ := hread
    obtain ⟨hmem, hn⟩ := (get?_eq_some_iff hg).mp hc
    exact ⟨p.rank c, c, getElem?_rank hmem, hn, hg.nestings_le c hmem j _ hj⟩

/-- The plan of an accepted schema descends, and still does so where definitions were dropped. -/
theorem descends_of_ofSchema {s : Schema} {ir : Resolved.Schema} {kept : List Resolved.Definition}
    (ek : ExtraKeys) (h : Resolved.Schema.ofSchema s = .ok ir) (hk : kept.Sublist ir.definitions) :
    (ofSchema ek { ir with definitions := kept }).Descends :=
  ((grounded_ofSchema ek h).of_sublist (hk.map Codec.ofDefinition)).descends

/-- Pages without the definition of their marks. -/
theorem descends_unmarked :
    Resolved.Schema.ofSchema Pages.schema = .ok Pages.resolved ∧
      (Pages.resolved.definitions.drop 1).Sublist Pages.resolved.definitions ∧
      (ofSchema .reject { Pages.resolved with
        definitions := Pages.resolved.definitions.drop 1 }).Descends :=
  ⟨Pages.ofSchema_schema, List.drop_sublist 1 _,
    descends_of_ofSchema .reject Pages.ofSchema_schema (List.drop_sublist 1 _)⟩

end CodecPlan

end TaggedSum
