import Mathlib.Logic.Relation
import TaggedSum.Proofs.Codec.Comparison

namespace TaggedSum

/-- What may stand in the place of a document of a definition, or of a payload. -/
structure Replacement where
  definition : Codec → Json → Json → Prop
  payload : Layout → Json → Json → Prop

mutual

/-- A document in a slot with one replacement in it. -/
inductive SlotReplaced (codecs : String → Option Codec) (r : Replacement) :
    FieldType → Json → Json → Prop
  | reference {name : String} {c : Codec} {j k : Json} (hc : codecs name = some c)
      (h : CodecReplaced codecs r c j k) : SlotReplaced codecs r (.reference name) j k
  | element {t : FieldType} {j k : Json} (js ks : List Json) (h : SlotReplaced codecs r t j k) :
      SlotReplaced codecs r (.seq t) (.array (js ++ j :: ks)) (.array (js ++ k :: ks))
  | entry {t : FieldType} {j k : Json} (ms ns : List (String × Json)) (key : String)
      (h : SlotReplaced codecs r t j k) : SlotReplaced codecs r (.map t)
        (.object (ms ++ (key, j) :: ns)) (.object (ms ++ (key, k) :: ns))

inductive PayloadReplaced (codecs : String → Option Codec) (r : Replacement) :
    Layout → Json → Json → Prop
  | here {l : Layout} {j k : Json} (h : r.payload l j k) : PayloadReplaced codecs r l j k
  | newtype {t : FieldType} {j k : Json} (h : SlotReplaced codecs r t j k) :
      PayloadReplaced codecs r (.newtype t) j k
  | tuple {ts : List FieldType} {t : FieldType} {j k : Json} (js ks : List Json)
      (ht : ts[js.length]? = some t) (h : SlotReplaced codecs r t j k) :
      PayloadReplaced codecs r (.tuple ts) (.array (js ++ j :: ks)) (.array (js ++ k :: ks))
  | struct {fields : List (String × FieldType)} {t : FieldType} {j k : Json}
      (ms ns : List (String × Json)) (name : String) (ht : (name, t) ∈ fields)
      (h : SlotReplaced codecs r t j k) : PayloadReplaced codecs r (.struct fields)
        (.object (ms ++ (name, j) :: ns)) (.object (ms ++ (name, k) :: ns))

inductive CodecReplaced (codecs : String → Option Codec) (r : Replacement) :
    Codec → Json → Json → Prop
  | here {c : Codec} {j k : Json} (h : r.definition c j k) : CodecReplaced codecs r c j k
  | enum {e : EnumCodec} {v : VariantCodec} {j k : Json} (ms ns : List (String × Json))
      (hv : v ∈ e.variants) (h : PayloadReplaced codecs r v.layout j k) :
      CodecReplaced codecs r (.enum e)
        (.object (ms ++ (v.tag, j) :: ns)) (.object (ms ++ (v.tag, k) :: ns))
  | record {c : RecordCodec} {j k : Json} (h : PayloadReplaced codecs r c.layout j k) :
      CodecReplaced codecs r (.record c) j k

end

/-- The second document is the first one with any number of replacements, each of them somewhere in
a document of the named definition. -/
def CodecPlan.Replaced (p : CodecPlan) (r : Replacement) (name : String) : Json → Json → Prop :=
  Relation.ReflTransGen (SlotReplaced p.get? r (.reference name))

/-- What is put in the place of a document reads the same there. -/
structure Replacement.Sound (r : Replacement) (p : CodecPlan) : Prop where
  definition {c : Codec} {j j' : Json} : c ∈ p.codecs → r.definition c j j' →
    Decode.definition p.decoder p.extraKeys c j = Decode.definition p.decoder p.extraKeys c j'
  payload {l : Layout} {j j' : Json} : r.payload l j j' →
    Decode.payload p.decoder l j = Decode.payload p.decoder l j'

section Sound

open Comparison

variable {p : CodecPlan} {r : Replacement}

mutual

theorem slot_replaced (hg : p.Grounded) (hr : r.Sound p) {t : FieldType} {j j' : Json} :
    SlotReplaced p.get? r t j j' → equal.Slots p.decoder p.decoder t j j'
  | .reference hc h => by
    have hmem := ((CodecPlan.get?_eq_some_iff hg).mp hc).1
    have hd := CodecPlan.decoder_of_get? hg hc
    exact slots_reference hd hd (codec_replaced hg hr hmem h)
  | .element js ks h =>
    slots_seq (Lists.forall₂_replace (fun _ _ => rfl) (slot_replaced hg hr h) js ks)
  | .entry ms ns _ h =>
    slots_map (Lists.forall₂_replace (fun _ => ⟨rfl, fun _ => rfl⟩)
      ⟨rfl, slot_replaced hg hr h⟩ ms ns)

theorem payload_replaced (hg : p.Grounded) (hr : r.Sound p) {l : Layout} {j j' : Json}
    (hl : l.names.Nodup) :
    PayloadReplaced p.get? r l j j' → equal.Payloads p.decoder p.decoder l j j'
  | .here h => hr.payload h
  | .newtype h => payloads_newtype (slot_replaced hg hr h)
  | .tuple (j := j) (k := k) js ks ht h => by
    have hs := slot_replaced hg hr h
    refine payloads_tuple (by simp) fun n u i i' hu hi hi' => ?_
    rcases Lists.getElem?_replace n js ks j k with heq | ⟨rfl, hj, hk⟩
    · cases hi.symm.trans (heq.trans hi')
      exact fun _ => rfl
    · cases ht.symm.trans hu
      cases hj.symm.trans hi
      cases hk.symm.trans hi'
      exact hs
  | .struct (j := j) (k := k) ms ns name ht h => by
    have hs := slot_replaced hg hr h
    refine payloads_struct fun key u hu => ?_
    rcases Members.get?_replace key name ms ns j k with heq | ⟨rfl, hj, hk⟩
    · exact member_of_get?_eq heq
    · cases Members.eq_of_mem hl ht hu
      exact .inr ⟨j, k, hj, hk, hs⟩

theorem codec_replaced (hg : p.Grounded) (hr : r.Sound p) {c : Codec} {j j' : Json}
    (hc : c ∈ p.codecs) : CodecReplaced p.get? r c j j' →
    Decode.definition p.decoder p.extraKeys c j = Decode.definition p.decoder p.extraKeys c j'
  | .here h => hr.definition hc h
  | .enum (e := e) (v := v) ms ns hv h => by
    have hdis := hg.distinct _ hc
    have hs := payload_replaced hg hr (hdis.members _ (List.mem_map_of_mem hv)) h
    have ht : v.tag ∈ e.tags := List.mem_map_of_mem hv
    refine congrArg (Except.map Value.variant) (equal.choice (by simp [Members.names]) ?_)
    intro w tag k k' hw hk hk'
    -- of the declared keys, both objects have the tag only
    cases hk.eq_of_mem (List.mem_append_right _ List.mem_cons_self) ht
    cases hk'.eq_of_mem (List.mem_append_right _ List.mem_cons_self) ht
    cases hw.symm.trans ((EnumCodec.variant?_eq_some_iff hdis.tags).mpr ⟨hv, rfl⟩)
    exact hs
  | .record (c := c) h => by
    have hs := payload_replaced hg hr ((hg.distinct _ hc).members _ List.mem_cons_self) h
    exact congrArg (Except.map Value.record) hs

end

theorem CodecPlan.decode?_replaced (hg : p.Grounded) (hr : r.Sound p) {name : String} {j j' : Json}
    (h : p.Replaced r name j j') : p.decode? name j = p.decode? name j' := by
  induction h with
  | refl => rfl
  | tail _ h ih =>
    rw [ih, decode?_eq hg, decode?_eq hg]
    cases h with
    | reference hc h =>
      rw [hc, Option.map_some, Option.map_some,
        codec_replaced hg hr ((get?_eq_some_iff hg).mp hc).1 h]

end Sound

end TaggedSum
