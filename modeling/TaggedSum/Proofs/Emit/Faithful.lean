import TaggedSum.Emit.Source
import TaggedSum.Proofs.Codec.RoundTrip
import TaggedSum.Proofs.Emit.Decoding
import TaggedSum.Proofs.Emit.Writing

namespace TaggedSum.Emit

open Outcome

variable {p : CodecPlan} {call : Datum → Option Json}

theorem ChoiceWriter.run_eq (hg : p.Grounded) (hr : RendersApart p) {e : EnumCodec}
    (he : .enum e ∈ p.codecs) (hc : ∀ r ∈ (TaggedSum.Codec.enum e).references, CallsWrite p call r)
    {v : VariantCodec} {d : Payload Datum} {a : Payload Value} (hv : v ∈ e.variants)
    (hd : PayloadShows p.get? v.layout d a) :
    ∃ j, (ChoiceWriter.ofCodec e).run call (identifier v.name) d = some j ∧
      Encode.choice p.encoder e ⟨v.tag, a⟩ = .ok j := by
  have hdis := hg.distinct _ he
  have hv? := (EnumCodec.variant?_eq_some_iff hdis.tags).mpr ⟨hv, rfl⟩
  have hl : v.layout ∈ (TaggedSum.Codec.enum e).layouts := List.mem_map_of_mem hv
  have harm : (ChoiceWriter.ofCodec e).arms.find? (·.variant = identifier v.name) =
      some (writeArm v) := by
    rw [ChoiceWriter.ofCodec, List.find?_map]
    exact congrArg (Option.map writeArm) (Lists.find?_of_nodup (hr.variants e he) hv)
  obtain ⟨s, j, hs, hj, hw⟩ := writePayload_eq hg v.tag (hdis.members _ hl)
    (fun t ht r href => hc r (Codec.mem_references hl ht href)) hd
  by_cases hu : v.layout = .unit
  · -- the arm of a unit variant writes the bare tag
    have ha : a = .unit := by
      rw [hu] at hd
      cases hd
      rfl
    refine ⟨.string v.tag, ?_, Encode.choice_bare hv? hu ha⟩
    simp only [ChoiceWriter.run, harm, Option.bind_eq_bind, Option.bind_some, writeArm, hs]
    rw [hu]
    rfl
  · refine ⟨.object [(v.tag, j)], ?_, ?_⟩
    · simp only [ChoiceWriter.run, harm, Option.bind_eq_bind, Option.bind_some, writeArm, hs]
      cases hlayout : v.layout with
      | unit => exact absurd hlayout hu
      | _ =>
        rw [hlayout] at hj
        simp only [writePayload] at hj ⊢
        simp only [hj, Option.bind_some]
        rfl
    · rw [Encode.choice_wrapped hv? fun h => hu h.1, hw, map_ok]

theorem writeRecord_eq (hg : p.Grounded) {r : RecordCodec} (hr : .record r ∈ p.codecs)
    (hc : ∀ n ∈ (TaggedSum.Codec.record r).references, CallsWrite p call n) {d : Payload Datum}
    {a : Payload Value} (hd : PayloadShows p.get? r.layout d a) :
    ∃ j, (bind (writePayload r.layout) d).bind (runWritten call · (writePayload r.layout)) =
        some j ∧ Encode.payload p.encoder r.name r.layout a = .ok j := by
  have hl : r.layout ∈ (TaggedSum.Codec.record r).layouts := List.mem_singleton_self _
  obtain ⟨s, j, hs, hj, hw⟩ := writePayload_eq hg r.name ((hg.distinct _ hr).members _ hl)
    (fun t ht n hn => hc n (Codec.mem_references hl ht hn)) hd
  exact ⟨j, by rw [hs, Option.bind_some, hj], hw⟩

/-- Calls that may nest as deep as the position of a codec write its values. -/
theorem Program.toJson_eq (hg : p.Grounded) (hcl : p.Closed) (hr : RendersApart p) :
    ∀ c ∈ p.codecs, ∀ depth, p.rank c < depth → ∀ d v, CodecShows p.get? c d v →
      ∃ j, (Program.ofPlan p).toJson depth d = some j ∧
        ∀ place, Encode.definition p.encoder c v place = .ok j := by
  refine hg.induction_depth hcl fun c hc depth ih d v hd => ?_
  have hcalls : ∀ r ∈ c.references, CallsWrite p ((Program.ofPlan p).toJson depth) r := by
    intro r href
    obtain ⟨d, -, hget, hd⟩ := ih r href
    exact ⟨d, hget, hd⟩
  -- a datum names its type, which finds the codec again
  cases hd with
  | @enum e v d a hv h =>
    have hfind : (Program.ofPlan p).find? (·.type = identifier e.name) = _ :=
      Program.find?_ofPlan hr hc
    obtain ⟨j, hj, hw⟩ := ChoiceWriter.run_eq hg hr hc hcalls hv h
    refine ⟨j, ?_, fun _ => hw⟩
    simp only [Program.toJson, Option.bind_eq_bind, Option.bind_some, hfind]
    exact hj
  | @record r d a h =>
    have hfind : (Program.ofPlan p).find? (·.type = identifier r.name) = _ :=
      Program.find?_ofPlan hr hc
    obtain ⟨j, hj, hw⟩ := writeRecord_eq hg hc hcalls h
    refine ⟨j, ?_, fun _ => hw⟩
    simp only [Program.toJson, Option.bind_eq_bind, Option.bind_some, hfind]
    exact hj

end TaggedSum.Emit
