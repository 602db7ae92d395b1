import TaggedSum.Proofs.Codec.Decode
import TaggedSum.Proofs.Codec.Encode

namespace TaggedSum

namespace CodecPlan

variable {p q : CodecPlan} {name : String} {c : Codec} {cs earlier : List Codec}

/-- What a reference is read by. -/
def decoder (p : CodecPlan) : String → Option Decoder := Decode.among p.extraKeys p.codecs.reverse

/-- What a reference is written by. -/
def encoder (p : CodecPlan) : String → Option Encoder := Encode.among p.codecs.reverse

theorem split?_eq_some (h : split? name cs = some (c, earlier)) :
    c.name = name ∧ ∃ later, cs = later ++ c :: earlier ∧ name ∉ later.map Codec.name := by
  induction cs with
  | nil => cases h
  | cons d cs ih =>
    by_cases hd : d.name = name
    · simp only [split?, if_pos hd, Option.some.injEq, Prod.mk.injEq] at h
      obtain ⟨rfl, rfl⟩ := h
      exact ⟨hd, [], rfl, List.not_mem_nil⟩
    · simp only [split?, if_neg hd] at h
      obtain ⟨hn, later, rfl, hl⟩ := ih h
      refine ⟨hn, d :: later, rfl, ?_⟩
      simp only [List.map_cons, List.mem_cons, not_or]
      exact ⟨Ne.symm hd, hl⟩

theorem split?_eq_none_iff : split? name cs = none ↔ name ∉ cs.map Codec.name := by
  induction cs with
  | nil => simp [split?]
  | cons d cs ih =>
    by_cases hd : d.name = name
    · simp [split?, hd]
    · simp [split?, hd, ih, Ne.symm hd]

/-- A name is looked up before the codecs that do not have it. -/
theorem decode_among_append (ek : ExtraKeys) {later : List Codec} (earlier : List Codec)
    (h : name ∉ later.map Codec.name) :
    Decode.among ek (later ++ earlier) name = Decode.among ek earlier name := by
  induction later with
  | nil => rfl
  | cons d later ih =>
    simp only [List.map_cons, List.mem_cons, not_or] at h
    simp only [List.cons_append, Decode.among, if_neg (Ne.symm h.1), ih h.2]

theorem encode_among_append {later : List Codec} (earlier : List Codec)
    (h : name ∉ later.map Codec.name) :
    Encode.among (later ++ earlier) name = Encode.among earlier name := by
  induction later with
  | nil => rfl
  | cons d later ih =>
    simp only [List.map_cons, List.mem_cons, not_or] at h
    simp only [List.cons_append, Encode.among, if_neg (Ne.symm h.1), ih h.2]

theorem Grounded.of_sublist (hg : p.Grounded) (h : q.codecs.Sublist p.codecs) : q.Grounded where
  names_nodup := hg.names_nodup.sublist (h.map _)
  backward := hg.backward.sublist h
  irreflexive c hc := hg.irreflexive c (h.subset hc)
  distinct c hc := hg.distinct c (h.subset hc)

/-- A codec refers to none of the codecs after it, nor to itself. -/
theorem Grounded.not_mem_later (hg : p.Grounded) {later : List Codec}
    (h : p.codecs.reverse = later ++ c :: earlier) {r : String} (hr : r ∈ c.references) :
    r ∉ (later ++ [c]).map Codec.name := by
  have hp : (later ++ c :: earlier).Pairwise fun d c => d.name ∉ c.references :=
    h ▸ List.pairwise_reverse.mpr hg.backward
  have hc : c ∈ p.codecs := List.mem_reverse.mp (h ▸ by simp)
  intro hm
  obtain ⟨d, hd, rfl⟩ := List.mem_map.mp hm
  rcases List.mem_append.mp hd with hd | hd
  · exact (List.pairwise_append.mp hp).2.2 d hd c List.mem_cons_self hr
  · rw [List.mem_singleton.mp hd] at hr
    exact hg.irreflexive c hc hr

theorem get?_eq_some_iff (hg : p.Grounded) :
    p.get? name = some c ↔ c ∈ p.codecs ∧ c.name = name := by
  constructor
  · intro h
    obtain ⟨⟨d, earlier⟩, hs, rfl⟩ := Option.map_eq_some_iff.mp h
    obtain ⟨hn, later, hl, -⟩ := split?_eq_some hs
    exact ⟨List.mem_reverse.mp (hl ▸ by simp), hn⟩
  · rintro ⟨hc, rfl⟩
    obtain ⟨⟨d, earlier⟩, hs⟩ : ∃ x, p.scope? c.name = some x := by
      apply Option.ne_none_iff_exists'.mp
      intro hnone
      refine split?_eq_none_iff.mp hnone ?_
      exact List.mem_map_of_mem (List.mem_reverse.mpr hc)
    obtain ⟨hn, later, hl, -⟩ := split?_eq_some hs
    have hd : d ∈ p.codecs := List.mem_reverse.mp (hl ▸ by simp)
    rw [get?, hs, Option.map_some, List.inj_on_of_nodup_map hg.names_nodup hd hc hn]

/-- The references of a codec are not among the codecs left out before the earlier ones. -/
theorem decode_among_of_scope? (hg : p.Grounded) (hs : p.scope? name = some (c, earlier)) :
    ∀ r ∈ c.references, Decode.among p.extraKeys earlier r = p.decoder r := by
  obtain ⟨-, later, hl, -⟩ := split?_eq_some hs
  intro r hr
  have := decode_among_append p.extraKeys earlier (hg.not_mem_later hl hr)
  rw [decoder, hl, ← this, List.append_assoc, List.singleton_append]

theorem decoder_eq (hg : p.Grounded) (name : String) :
    p.decoder name = (p.get? name).map (Decode.definition p.decoder p.extraKeys) := by
  cases hs : p.scope? name with
  | none =>
    have := decode_among_append p.extraKeys [] (split?_eq_none_iff.mp hs)
    rw [decoder, get?, hs, ← List.append_nil p.codecs.reverse, this]
    rfl
  | some x =>
    obtain ⟨c, earlier⟩ := x
    obtain ⟨hn, later, hl, hnot⟩ := split?_eq_some hs
    rw [get?, hs, Option.map_some, Option.map_some,
      ← Decode.definition_congr (decode_among_of_scope? hg hs), decoder, hl,
      decode_among_append _ _ hnot, Decode.among, if_pos hn]

theorem encoder_eq (hg : p.Grounded) (name : String) :
    p.encoder name = (p.get? name).map (Encode.definition p.encoder) := by
  cases hs : p.scope? name with
  | none =>
    have := encode_among_append [] (split?_eq_none_iff.mp hs)
    rw [encoder, get?, hs, ← List.append_nil p.codecs.reverse, this]
    rfl
  | some x =>
    obtain ⟨c, earlier⟩ := x
    obtain ⟨hn, later, hl, hnot⟩ := split?_eq_some hs
    have hr : ∀ r ∈ c.references, Encode.among earlier r = p.encoder r := by
      intro r hr
      have := encode_among_append earlier (hg.not_mem_later hl hr)
      rw [encoder, hl, ← this, List.append_assoc, List.singleton_append]
    rw [get?, hs, Option.map_some, Option.map_some, ← Encode.definition_congr hr, encoder, hl,
      encode_among_append _ hnot, Encode.among, if_pos hn]

theorem decoder_eq_none (hg : p.Grounded) (h : p.get? name = none) : p.decoder name = none := by
  rw [decoder_eq hg, h, Option.map_none]

theorem encoder_eq_none (hg : p.Grounded) (h : p.get? name = none) : p.encoder name = none := by
  rw [encoder_eq hg, h, Option.map_none]

theorem decoder_of_get? (hg : p.Grounded) (h : p.get? name = some c) :
    p.decoder name = some (Decode.definition p.decoder p.extraKeys c) := by
  rw [decoder_eq hg, h, Option.map_some]

theorem encoder_of_get? (hg : p.Grounded) (h : p.get? name = some c) :
    p.encoder name = some (Encode.definition p.encoder c) := by
  rw [encoder_eq hg, h, Option.map_some]

theorem decode?_eq (hg : p.Grounded) (name : String) (j : Json) :
    p.decode? name j = (p.get? name).map (Decode.definition p.decoder p.extraKeys · j) := by
  rw [decode?, ← decoder, decoder_eq hg, Option.map_map]
  rfl

theorem decodeChoice?_eq (hg : p.Grounded) (name : String) (j : Json) :
    p.decodeChoice? name j = match p.get? name with
      | some (.enum e) => some (Decode.choice p.decoder p.extraKeys e j)
      | _ => none := by
  cases hs : p.scope? name with
  | none => simp only [decodeChoice?, get?, hs, Option.map_none]
  | some x =>
    obtain ⟨c, earlier⟩ := x
    cases c with
    | enum e =>
      have hr := decode_among_of_scope? hg hs
      have he : Decode.choice (Decode.among p.extraKeys earlier) p.extraKeys e =
          Decode.choice p.decoder p.extraKeys e :=
        Decode.choice_congr fun v hv t ht => Decode.slot_congr fun r htr =>
          hr r (Codec.mem_references (List.mem_map_of_mem hv) ht htr)
      simp only [decodeChoice?, get?, hs, Option.map_some, he]
    | record r => simp only [decodeChoice?, get?, hs, Option.map_some]

theorem encode_eq (hg : p.Grounded) (h : p.get? name = some c) (v : Value) :
    p.encode name v = Encode.definition p.encoder c v .payload := by
  rw [encode, ← encoder, encoder_eq hg, h]
  rfl

/-- The position of a codec in its plan. -/
def rank (p : CodecPlan) (c : Codec) : Nat := p.codecs.idxOf c

theorem rank_lt_length {c : Codec} (hc : c ∈ p.codecs) : p.rank c < p.codecs.length :=
  List.idxOf_lt_length_iff.mpr hc

/-- References lead to earlier positions. -/
theorem Grounded.rank_lt (hg : p.Grounded) {c d : Codec} (hc : c ∈ p.codecs) (hd : d ∈ p.codecs)
    (h : d.name ∈ c.references) : p.rank d < p.rank c := by
  have hcn := rank_lt_length hc
  have hdn := rank_lt_length hd
  have hcg : p.codecs[p.rank c] = c := List.getElem_idxOf hcn
  have hdg : p.codecs[p.rank d] = d := List.getElem_idxOf hdn
  rcases Nat.lt_trichotomy (p.rank d) (p.rank c) with hlt | heq | hgt
  · exact hlt
  · have hdc : d = c := by rw [← hcg, ← hdg]; simp only [heq]
    exact absurd (hdc ▸ h) (hg.irreflexive c hc)
  · have hb := List.pairwise_iff_getElem.mp hg.backward (p.rank c) (p.rank d) hcn hdn hgt
    rw [hcg, hdg] at hb
    exact absurd h hb

/-- What holds of a codec once it holds of the codecs that it refers to holds of every codec. -/
theorem Grounded.induction (hg : p.Grounded) {P : Codec → Prop}
    (step : ∀ c ∈ p.codecs, (∀ d ∈ p.codecs, d.name ∈ c.references → P d) → P c) :
    ∀ c ∈ p.codecs, P c := by
  suffices h : ∀ n, ∀ c ∈ p.codecs, p.rank c = n → P c from fun c hc => h _ c hc rfl
  intro n
  induction n using Nat.strongRecOn with
  | _ n ih =>
    rintro c hc rfl
    exact step c hc fun d hd hr => ih _ (hg.rank_lt hc hd hr) d hd rfl

/-- The same, where a codec refers to others through the slots of its layouts. -/
theorem Grounded.induction_slots (hg : p.Grounded) {P : Codec → Prop}
    (step : ∀ c ∈ p.codecs, (∀ l ∈ c.layouts, ∀ t ∈ l.types, ∀ r, t.reference? = some r →
      ∀ d, p.get? r = some d → P d) → P c) : ∀ c ∈ p.codecs, P c := by
  refine hg.induction fun c hc ih => step c hc fun l hl t ht r hr d hd => ?_
  obtain ⟨hmem, rfl⟩ := (get?_eq_some_iff hg).mp hd
  exact ih d hmem (Codec.mem_references hl ht hr)

/-- What one more level of calls gives holds of each codec from the depth of its position on. -/
theorem Grounded.induction_depth (hg : p.Grounded) (hcl : p.Closed) {P : Nat → Codec → Prop}
    (step : ∀ c ∈ p.codecs, ∀ depth,
      (∀ r ∈ c.references, ∃ d, d.name = r ∧ p.get? r = some d ∧ P depth d) → P (depth + 1) c) :
    ∀ c ∈ p.codecs, ∀ depth, p.rank c < depth → P depth c := by
  refine hg.induction fun c hc ih => ?_
  intro depth hdepth
  cases depth with
  | zero => exact absurd hdepth (Nat.not_lt_zero _)
  | succ depth =>
    refine step c hc depth fun r hr => ?_
    obtain ⟨d, hd, rfl⟩ := List.mem_map.mp (hcl c hc r hr)
    refine ⟨d, rfl, (get?_eq_some_iff hg).mpr ⟨hd, rfl⟩, ih d hd hr depth ?_⟩
    exact Nat.lt_of_lt_of_le (hg.rank_lt hc hd hr) (Nat.le_of_lt_succ hdepth)

end CodecPlan

end TaggedSum
