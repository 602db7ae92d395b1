import TaggedSum.Proofs.Codec.Canonical
import TaggedSum.Proofs.Codec.Replacement

namespace TaggedSum

open Outcome

/-- The first run does not recognize the shape of a document, or both runs end the same. -/
def Comparison.lenient : Comparison where
  rel x y := x = .error .unrecognizedShape ∨ x = y
  refl _ := .inr rfl
  bind {_ _ x _ _ _} h h' := by
    rcases h with rfl | rfl
    · exact .inl rfl
    · cases x with
      | error e => exact .inr rfl
      | ok a => exact h' a
  within place h := by
    rcases h with rfl | rfl
    · exact .inl rfl
    · exact .inr rfl

theorem Tagged.ofJson_lenient (tags : List String) (j : Json) :
    Comparison.lenient.rel (ofJson .reject tags j) (ofJson .ignore tags j) := by
  cases j with
  | object ms =>
    match ms with
    | [] => exact .inl rfl
    | [_] => exact .inr rfl
    | _ :: _ :: _ => exact .inl rfl
  | _ => exact .inr rfl

section Lenient

open Comparison

variable {f g : String → Option Decoder}

theorem slots_lenient {t : FieldType}
    (h : ∀ r, t.reference? = some r → ∀ j, lenient.Slots f g (.reference r) j j) (j : Json) :
    lenient.Slots f g t j j := by
  induction t generalizing j with
  | string => exact fun _ => .inr rfl
  | bool => exact fun _ => .inr rfl
  | signed w => exact fun _ => .inr rfl
  | unsigned w => exact fun _ => .inr rfl
  | reference name => exact h name rfl j
  | seq item ih =>
    cases j with
    | array js => exact slots_seq (List.forall₂_same.mpr fun j _ => ih h j)
    | _ => exact fun _ => .inr rfl
  | map entry ih =>
    cases j with
    | object ms => exact slots_map (List.forall₂_same.mpr fun m _ => ⟨rfl, ih h m.2⟩)
    | _ => exact fun _ => .inr rfl

theorem payloads_lenient {l : Layout} (h : ∀ t ∈ l.types, ∀ j, lenient.Slots f g t j j)
    (j : Json) : lenient.Payloads f g l j j := by
  cases l with
  | unit => exact .inr rfl
  | newtype t => exact payloads_newtype (h t List.mem_cons_self j)
  | tuple ts =>
    cases j with
    | array js =>
      refine payloads_tuple rfl fun n t k k' ht hk hk' => ?_
      cases hk.symm.trans hk'
      exact h t (List.mem_of_getElem? ht) k
    | _ => exact .inr rfl
  | struct fields =>
    cases j with
    | object ms =>
      refine payloads_struct fun name t ht => ?_
      cases hk : Members.get? name ms with
      | none => exact .inl ⟨rfl, rfl⟩
      | some k => exact .inr ⟨k, k, rfl, rfl, h t (List.mem_map_of_mem ht) k⟩
    | _ => exact .inr rfl

theorem choice_lenient {e : EnumCodec}
    (h : ∀ v ∈ e.variants, ∀ j, lenient.Payloads f g v.layout j j) (j : Json) :
    lenient.rel (Decode.choice f .reject e j) (Decode.choice g .ignore e j) := by
  refine lenient.bind (Tagged.ofJson_lenient e.tags j) fun tagged => ?_
  cases tagged with
  | bare tag => exact .inr rfl
  | wrapped tag k =>
    cases hv : e.variant? tag with
    | none => simp only [hv, lenient.refl]
    | some v =>
      simp only [hv]
      exact wrapped (h v (List.mem_of_find?_eq_some hv) k)

/-- A nested enum may be read where it was rejected before, but then all that is around it was
rejected for the same shape. -/
theorem definition_lenient {codecs : List Codec} (hg : (CodecPlan.mk codecs .reject).Grounded) :
    ∀ c ∈ codecs, ∀ j, lenient.rel
      (Decode.definition (CodecPlan.mk codecs .reject).decoder .reject c j)
      (Decode.definition (CodecPlan.mk codecs .ignore).decoder .ignore c j) := by
  have hg' : (CodecPlan.mk codecs .ignore).Grounded := hg.of_sublist (.refl codecs)
  refine hg.induction_slots fun c hc ih => ?_
  have hs : ∀ l ∈ c.layouts, ∀ j, lenient.Payloads (CodecPlan.mk codecs .reject).decoder
      (CodecPlan.mk codecs .ignore).decoder l j j := by
    intro l hl
    refine payloads_lenient fun t ht => slots_lenient fun r hr j => ?_
    exact slots_reference_of_get? hg hg' rfl fun d hd => ih l hl t ht r hr d hd j
  intro j
  cases c with
  | enum e =>
    exact Comparison.map (choice_lenient (fun v hv => hs _ (List.mem_map_of_mem hv)) j) _
  | record r => exact Comparison.map (hs _ List.mem_cons_self j) _

end Lenient

/-- An object of which one key names a variant gives way to the object of that key alone. -/
def Replacement.soleTag : Replacement where
  definition c j j' := ∃ e ms tag k, c = .enum e ∧
    ms.filter (fun m => e.tags.contains m.1) = [(tag, k)] ∧
    j = .object ms ∧ j' = .object [(tag, k)]
  payload _ _ _ := False

theorem Replacement.sound_soleTag {p : CodecPlan} (h : p.extraKeys = .ignore) :
    soleTag.Sound p where
  definition _ hr := by
    obtain ⟨e, ms, tag, k, rfl, hk, rfl, rfl⟩ := hr
    have hms : Tagged.Under .ignore e.tags tag k ms := .inr ⟨rfl, hk⟩
    have hone : Tagged.Under .ignore e.tags tag k [(tag, k)] := .inl rfl
    rw [Decode.definition, Decode.definition, h, Decode.choice_of_under hms,
      Decode.choice_of_under hone]
  payload hr := hr.elim

namespace CodecPlan

/-- Where keys beside the tag are ignored, whatever is read where they are rejected is read the
same, and whatever is refused for anything but its shape is refused the same; and the keys beside
the only declared one make no difference. -/
theorem lenient_of_ofSchema {s : Schema} {ir : Resolved.Schema} (name : String)
    (h : Resolved.Schema.ofSchema s = .ok ir) :
    (∀ j v, (ofSchema .reject ir).decode? name j = some (.ok v) →
      (ofSchema .ignore ir).decode? name j = some (.ok v)) ∧
    (∀ j e, (ofSchema .reject ir).decode? name j = some (.error e) → e ≠ .unrecognizedShape →
      (ofSchema .ignore ir).decode? name j = some (.error e)) ∧
    ∀ j j', (ofSchema .ignore ir).Replaced .soleTag name j j' →
      (ofSchema .ignore ir).decode? name j = (ofSchema .ignore ir).decode? name j' := by
  have hg := grounded_ofSchema .reject h
  have hg' := grounded_ofSchema .ignore h
  have hrun : ∀ j x, (ofSchema .reject ir).decode? name j = some x →
      x = .error .unrecognizedShape ∨ (ofSchema .ignore ir).decode? name j = some x := by
    intro j x hx
    rw [decode?_eq hg] at hx
    obtain ⟨c, hc, rfl⟩ := Option.map_eq_some_iff.mp hx
    have hc' : (ofSchema .ignore ir).get? name = some c := hc
    rw [decode?_eq hg', hc', Option.map_some, Option.some.injEq]
    exact (definition_lenient hg c ((get?_eq_some_iff hg).mp hc).1 j).imp_right Eq.symm
  refine ⟨fun j v hv => ?_, fun j e he hne => ?_, fun j j' hr => ?_⟩
  · exact (hrun j _ hv).resolve_left nofun
  · exact (hrun j _ he).resolve_left fun heq => hne (Except.error.inj heq)
  · exact decode?_replaced hg' (Replacement.sound_soleTag rfl) hr

end CodecPlan

namespace Pages

/-- The stray page without the size of its dot. -/
def unsized : Json :=
  .object [("title", .string "one"), ("author", .null),
    ("marks", .array [.object [("dot", .number (.double ⟨false, 7 * pow2 50, -50⟩))],
      .string "Blank"])]

theorem replaced_stray : (plan .ignore).Replaced .soleTag "Page" stray unsized := by
  have hmark : SlotReplaced (plan .ignore).get? .soleTag (.reference "Mark")
      (.object [("size", .null), ("dot", .number (.double ⟨false, 7 * pow2 50, -50⟩))])
      (.object [("dot", .number (.double ⟨false, 7 * pow2 50, -50⟩))]) :=
    .reference rfl (.here ⟨_, _, "dot", _, rfl, rfl, rfl, rfl⟩)
  have hmarks : ("marks", FieldType.seq (.reference "Mark")) ∈
      [("title", .string), ("marks", FieldType.seq (.reference "Mark"))] := by decide
  exact .single (.reference rfl (.record
    (.struct [("title", .string "one"), ("author", .null)] [] "marks" hmarks (.element [] _ hmark))))

end Pages

/-- The stray page is not read where keys are rejected. Where they are ignored, it reads as it does
without the size, and that is read in either case. -/
theorem CodecPlan.lenient_stray :
    Resolved.Schema.ofSchema Pages.schema = .ok Pages.resolved ∧
      (CodecPlan.ofSchema .ignore Pages.resolved).Replaced .soleTag "Page" Pages.stray
        Pages.unsized ∧
      (CodecPlan.ofSchema .reject Pages.resolved).decode? "Page" Pages.stray =
        some (.error .unrecognizedShape) ∧
      (CodecPlan.ofSchema .ignore Pages.resolved).decode? "Page" Pages.stray =
        some (.ok Pages.dotted) ∧
      (CodecPlan.ofSchema .ignore Pages.resolved).decode? "Page" (.object [("title", .null)]) =
        some (.error (.typeMismatch (.name "title") .string)) := by
  obtain ⟨hok, herror, hsole⟩ := CodecPlan.lenient_of_ofSchema "Page" Pages.ofSchema_schema
  refine ⟨Pages.ofSchema_schema, Pages.replaced_stray, rfl, ?_, ?_⟩
  · rw [hsole _ _ Pages.replaced_stray]
    exact hok Pages.unsized Pages.dotted rfl
  · exact herror _ _ rfl nofun

end TaggedSum
