import TaggedSum.Proofs.Codec.RoundTrip
import TaggedSum.Proofs.Schema.Reference

namespace TaggedSum

namespace CodecPlan

variable {p q : CodecPlan} {name : String} {c : Codec}

/-- Names on which two plans agree, and of which references do not lead out, are read and written
alike. -/
theorem coders_eq (hp : p.Grounded) (hq : q.Grounded) (hek : p.extraKeys = q.extraKeys)
    {names : String → Prop} (hget : ∀ n, names n → p.get? n = q.get? n)
    (hclosed : ∀ n c, names n → p.get? n = some c → ∀ r ∈ c.references, names r) :
    ∀ n, names n → p.decoder n = q.decoder n ∧ p.encoder n = q.encoder n := by
  have absent : ∀ n, names n → p.get? n = none →
      p.decoder n = q.decoder n ∧ p.encoder n = q.encoder n := by
    intro n hn hnone
    have hnone' : q.get? n = none := hget n hn ▸ hnone
    rw [decoder_eq_none hp hnone, decoder_eq_none hq hnone', encoder_eq_none hp hnone,
      encoder_eq_none hq hnone']
    exact ⟨rfl, rfl⟩
  -- the codecs that a codec refers to stand before it, so what holds of them is known
  have present : ∀ c ∈ p.codecs, names c.name →
      p.decoder c.name = q.decoder c.name ∧ p.encoder c.name = q.encoder c.name := by
    refine hp.induction fun c hc ih hn => ?_
    have hpc : p.get? c.name = some c := (get?_eq_some_iff hp).mpr ⟨hc, rfl⟩
    have hqc : q.get? c.name = some c := hget _ hn ▸ hpc
    have hr : ∀ r ∈ c.references, p.decoder r = q.decoder r ∧ p.encoder r = q.encoder r := by
      intro r hr
      have hrn := hclosed _ c hn hpc r hr
      cases hd : p.get? r with
      | none => exact absent r hrn hd
      | some d =>
        obtain ⟨hmem, rfl⟩ := (get?_eq_some_iff hp).mp hd
        exact ih d hmem hr hrn
    constructor
    · rw [decoder_eq hp, decoder_eq hq, hpc, hqc, Option.map_some, Option.map_some, hek,
        Decode.definition_congr fun r h => (hr r h).1]
    · rw [encoder_eq hp, encoder_eq hq, hpc, hqc, Option.map_some, Option.map_some,
        Encode.definition_congr fun r h => (hr r h).2]
  intro n hn
  cases hd : p.get? n with
  | none => exact absent n hn hd
  | some c =>
    obtain ⟨hc, rfl⟩ := (get?_eq_some_iff hp).mp hd
    exact present c hc hn

section Schema

variable {s : Schema} {ir : Resolved.Schema} {ek : ExtraKeys} {dropped : List String}

theorem grounded_without (ek : ExtraKeys) (dropped : List String)
    (h : Resolved.Schema.ofSchema s = .ok ir) :
    (CodecPlan.ofSchema ek (ir.without dropped)).Grounded :=
  (grounded_ofSchema ek h).of_sublist (List.filter_sublist.map _)

/-- A name that is kept has the codec of the definition that declares it. -/
theorem get?_without_eq_some_iff (h : Resolved.Schema.ofSchema s = .ok ir)
    (hn : name ∉ dropped) :
    (CodecPlan.ofSchema ek (ir.without dropped)).get? name = some c ↔
      ∃ d ∈ s.definitions, d.name = name ∧
        ∃ r, Resolved.Definition.ofDefinition d = .ok r ∧ c = .ofDefinition r := by
  obtain ⟨hv, ds, hds, hres⟩ := Resolved.ofSchema_eq_ok h
  have hmem : ∀ d, d ∈ ds ↔ d ∈ s.definitions := fun d =>
    Schema.mem_dependencyOrder (Schema.linked_of_validate hv) hds
  rw [get?_eq_some_iff (grounded_without ek dropped h)]
  constructor
  · rintro ⟨hc, rfl⟩
    obtain ⟨r, hr, rfl⟩ := List.mem_map.mp hc
    obtain ⟨d, hd, hdr⟩ := Lists.exists_of_mem_right hres (List.mem_of_mem_filter hr)
    exact ⟨d, (hmem d).mp hd, (name_ofDefinition hdr).symm, r, hdr, rfl⟩
  · rintro ⟨d, hd, rfl, r, hdr, rfl⟩
    obtain ⟨r', hr', hdr'⟩ := Lists.exists_of_mem_left hres ((hmem d).mpr hd)
    obtain rfl := Except.ok.inj (hdr.symm.trans hdr')
    refine ⟨List.mem_map_of_mem (List.mem_filter.mpr ⟨hr', ?_⟩), name_ofDefinition hdr⟩
    rw [Resolved.Definition.name_eq hdr]
    simpa using hn

end Schema

/-- Where the definitions that a name needs are the same in two accepted schemas, documents are read
and values written the same under that name, errors included. Neither the other definitions nor the
order matters, nor whether definitions are dropped that the name does not reach. -/
theorem local_of_ofSchema {s s' : Schema} {ir ir' : Resolved.Schema} {ek : ExtraKeys}
    {dropped dropped' : List String} (h : Resolved.Schema.ofSchema s = .ok ir)
    (h' : Resolved.Schema.ofSchema s' = .ok ir') (hsame : ∀ d, s.Needs name d ↔ s'.Needs name d)
    (hd : ∀ n ∈ dropped, ¬s.Reaches name n) (hd' : ∀ n ∈ dropped', ¬s'.Reaches name n) :
    (∀ j, (CodecPlan.ofSchema ek (ir.without dropped)).decode? name j =
      (CodecPlan.ofSchema ek (ir'.without dropped')).decode? name j) ∧
    ∀ v, (CodecPlan.ofSchema ek (ir.without dropped)).encode name v =
      (CodecPlan.ofSchema ek (ir'.without dropped')).encode name v := by
  -- look-ups agree on all that the name reaches, and codecs refer to nothing else from there
  have hreach : ∀ n, s.Reaches name n → s'.Reaches name n := fun n hn =>
    hn.of_needs fun d => (hsame d).mp
  have hget : ∀ n, s.Reaches name n → (CodecPlan.ofSchema ek (ir.without dropped)).get? n =
      (CodecPlan.ofSchema ek (ir'.without dropped')).get? n := by
    intro n hn
    ext c
    rw [get?_without_eq_some_iff h fun hm => hd n hm hn,
      get?_without_eq_some_iff h' fun hm => hd' n hm (hreach n hn)]
    constructor
    · rintro ⟨d, hmem, rfl, hr⟩
      exact ⟨d, ((hsame d).mp ⟨hmem, hn⟩).1, rfl, hr⟩
    · rintro ⟨d, hmem, rfl, hr⟩
      exact ⟨d, ((hsame d).mpr ⟨hmem, hreach _ hn⟩).1, rfl, hr⟩
  have hclosed : ∀ n c, s.Reaches name n →
      (CodecPlan.ofSchema ek (ir.without dropped)).get? n = some c →
      ∀ r ∈ c.references, s.Reaches name r := by
    intro n c hn hc r hr
    obtain ⟨d, hmem, rfl, x, hx, rfl⟩ :=
      (get?_without_eq_some_iff h fun hm => hd n hm hn).mp hc
    rw [references_ofDefinition hx] at hr
    exact hn.tail ⟨d, hmem, rfl, Definition.refersTo_iff.mpr hr⟩
  obtain ⟨hdec, henc⟩ := coders_eq (grounded_without ek dropped h)
    (grounded_without ek dropped' h') rfl hget hclosed name .refl
  constructor
  · intro j
    rw [decode?, decode?, ← decoder, ← decoder, hdec]
  · intro v
    rw [encode, encode, ← encoder, ← encoder, henc]

namespace Books

def book : Definition :=
  .struct ⟨"Book", none, [⟨some "pages", .seq (.reference "Page"), none⟩]⟩

/-- The pages once more, declared after their marks and bound in books. -/
def schema : Schema := ⟨"books", none, [book, Pages.mark, Pages.page], 0⟩

def resolved : Resolved.Schema :=
  .ofDefinitions "books" none (Pages.resolved.definitions ++
    [.struct ⟨"Book", none, .struct, [⟨some "pages", .seq (.reference "Page"), none⟩]⟩])

theorem ofSchema_schema : Resolved.Schema.ofSchema schema = .ok resolved := by
  have hd : schema.dependencyOrder = .ok [Pages.mark, Pages.page, book] := by cbv
  exact Resolved.ofSchema_of_ordered (by decide +kernel) hd (by decide +kernel)

theorem refers_page {s : Schema} (h : Pages.page ∈ s.definitions) : s.Reaches "Page" "Mark" :=
  .single ⟨Pages.page, h, rfl, Definition.refersTo_iff.mpr (by decide)⟩

theorem reaches_books {n : String} (h : schema.Reaches "Page" n) : n ∈ ["Page", "Mark"] :=
  h.mem_of_closed (by decide) (by decide)

theorem needs_iff (d : Definition) : Pages.schema.Needs "Page" d ↔ schema.Needs "Page" d := by
  constructor
  · rintro ⟨hd, -⟩
    rcases List.mem_pair.mp hd with rfl | rfl
    · exact ⟨by decide, .refl⟩
    · exact ⟨by decide, refers_page (by decide)⟩
  · rintro ⟨hd, hr⟩
    rcases List.mem_cons.mp hd with rfl | hd
    · exact absurd (reaches_books hr) (by decide)
    · rcases List.mem_pair.mp hd with rfl | rfl
      · exact ⟨by decide, refers_page (by decide)⟩
      · exact ⟨by decide, .refl⟩

end Books

/-- A book is dropped before it is read, and pages are read as ever. -/
theorem local_books :
    (Resolved.Schema.ofSchema Pages.schema = .ok Pages.resolved ∧
      Resolved.Schema.ofSchema Books.schema = .ok Books.resolved ∧
      (∀ d, Pages.schema.Needs "Page" d ↔ Books.schema.Needs "Page" d) ∧
      ∀ n ∈ ["Book"], ¬Books.schema.Reaches "Page" n) ∧
    (∀ j, (CodecPlan.ofSchema .reject (Pages.resolved.without [])).decode? "Page" j =
      (CodecPlan.ofSchema .reject (Books.resolved.without ["Book"])).decode? "Page" j) ∧
    ∀ v, (CodecPlan.ofSchema .reject (Pages.resolved.without [])).encode "Page" v =
      (CodecPlan.ofSchema .reject (Books.resolved.without ["Book"])).encode "Page" v := by
  have hd : ∀ n ∈ ["Book"], ¬Books.schema.Reaches "Page" n := by
    intro n hn hr
    obtain rfl := List.mem_singleton.mp hn
    exact absurd (Books.reaches_books hr) (by decide)
  refine ⟨⟨Pages.ofSchema_schema, Books.ofSchema_schema, Books.needs_iff, hd⟩, ?_⟩
  exact local_of_ofSchema Pages.ofSchema_schema Books.ofSchema_schema Books.needs_iff
    (fun _ hn => nomatch hn) hd

end CodecPlan

end TaggedSum
