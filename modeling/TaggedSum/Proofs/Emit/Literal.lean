import TaggedSum.Proofs.Emit.Capture
import TaggedSum.Proofs.Emit.Mark

namespace TaggedSum.Emit

variable {head : String} {ms ns : List Mark}

section Expression

variable {j : Operand} {place : PlaceTerm}

theorem holds_call {helper : String} (hh : Holds helper []) (hj : Holds j.text ms)
    (hp : Holds place.text ns) : Holds (ReadExpr.call helper j place) (ms ++ ns) :=
  (hh.behind (by decide)).link hj (by decide) |>.link hp (by decide) |>.seal (by decide)

theorem holds_callEach {helper body : String} (hh : Holds helper []) (hj : Holds j.text ms)
    (hp : Holds place.text ns) (hb : Holds body []) :
    Holds (ReadExpr.callEach helper j place body) (ms ++ ns) :=
  (hh.behind (by decide)).link hj (by decide) |>.link hp (by decide) |>.seal (by decide)
    |>.before hb |>.seal (by decide)

theorem holds_index (i : Nat) : Holds (PlaceTerm.index i).text [] :=
  (holds_number i).behind (by decide) |>.seal (by decide)

theorem holds_read {type : FieldType}
    (ht : ∀ n, type.reference? = some n → IsWord (identifier n)) (hj : Holds j.text ms)
    (hp : Holds place.text ns) : Holds (ReadExpr.ofType type j place).text (ms ++ ns) := by
  have hitem : Holds (Operand.name "item").text [] := holds_text (by decide)
  have hat : Holds (PlaceTerm.name "at").text [] := holds_text (by decide)
  induction type generalizing j place ms ns with
  | string => exact holds_call (holds_text (by decide)) hj hp
  | bool => exact holds_call (holds_text (by decide)) hj hp
  | signed w =>
    exact holds_call ((holds_number _).behind (by decide) |>.seal (by decide)) hj hp
  | unsigned w =>
    exact holds_call ((holds_number _).behind (by decide) |>.seal (by decide)) hj hp
  | reference n =>
    exact (ht n rfl).holds.link hj (by decide) |>.link hp (by decide) |>.seal (by decide)
  | seq t ih => exact holds_callEach (holds_text (by decide)) hj hp (ih ht hitem hat)
  | map t ih => exact holds_callEach (holds_text (by decide)) hj hp (ih ht hitem hat)

theorem holds_write {type : FieldType} {x : String} (hx : Holds x []) :
    Holds (WriteExpr.ofType type x).text [] := by
  have hitem : Holds "item" [] := holds_text (by decide)
  induction type generalizing x with
  | string => exact hx.behind (by decide) |>.seal (by decide)
  | bool => exact hx.behind (by decide) |>.seal (by decide)
  | signed w => exact hx.behind (by decide) |>.seal (by decide)
  | unsigned w => exact hx.behind (by decide) |>.seal (by decide)
  | reference n => exact hx.seal (by decide)
  | seq t ih =>
    exact hx.behind (by decide) |>.seal (by decide) |>.before (ih hitem) |>.seal (by decide)
  | map t ih =>
    exact hx.behind (by decide) |>.seal (by decide) |>.before (ih hitem) |>.seal (by decide)

end Expression

section Codec

variable {Q : String → Prop} {layout : Layout} {v : VariantCodec} {e : EnumCodec}
  {ek : ExtraKeys} {source : String}

theorem holds_slotName (i : Nat) : Holds (slotName i) [] := (isWord_slotName i).holds

theorem holds_slotNames {n : Nat} : ∀ x ∈ slotNames n, Holds x [] :=
  List.forall_mem_map.mpr fun i _ => holds_slotName i

theorem holds_bindingPattern (hl : Fitting Q layout) (hh : Holds head []) :
    Holds (Codec.bindingPattern head (writePayload layout)) [] := by
  cases layout with
  | unit => exact hh
  | newtype t => exact hh.link (holds_slotName 0) (by decide) |>.seal (by decide)
  | tuple ts =>
    exact hh.link (holds_commaList holds_slotNames) (by decide) |>.seal (by decide)
  | struct fields =>
    have hslots : ∀ x ∈ slotNames fields.length, Holds x [] := holds_slotNames
    have hb := holds_commaList (Lists.forall_zipWith fun n hn x hx =>
      (hl.names n hn).1.holds.link (a := [':', ' ']) (hslots x hx) (by decide))
    rw [bindingPattern_struct]
    exact hh.link (hb.behind (by decide) |>.seal (by decide)) (by decide)

theorem holds_wildcardPattern {α : Type} (p : Payload α) (hh : Holds head []) :
    Holds (Codec.wildcardPattern head p) [] := by
  cases p with
  | unit => exact hh
  | newtype => exact hh.seal (by decide)
  | tuple => exact hh.seal (by decide)
  | struct =>
    have hrest : Holds ".." [] := holds_text (by decide)
    exact hh.link (hrest.behind (by decide) |>.seal (by decide)) (by decide)

/-- Of a payload that is written, the keys of its fields are read. -/
theorem holds_written (layout : Layout) :
    Holds (Codec.written (writePayload layout)) (layout.names.map .literal) := by
  cases layout with
  | unit => exact holds_text (by decide)
  | newtype t => exact holds_write (holds_slotName 0)
  | tuple ts =>
    have he : ∀ e ∈ (ts.zipIdx.map fun x => WriteExpr.ofType x.1 (slotName x.2)).map
        WriteExpr.text, Holds e [] := by
      simp only [List.forall_mem_map]
      exact fun x _ => holds_write (holds_slotName x.2)
    exact (holds_commaList he).behind (by decide) |>.seal (by decide)
  | struct fields =>
    have hkeys : (fields.zipIdx.map fun x => (x.1.1, WriteExpr.ofType x.1.2 (slotName x.2))).flatMap
        (fun x => [Mark.literal x.1]) = (Layout.names (.struct fields)).map .literal := by
      rw [← List.map_eq_flatMap, List.map_map, Layout.names, Members.names, List.map_map]
      conv_rhs => rw [← List.zipIdx_map_fst 0 fields, List.map_map]
      rfl
    have he : ∀ x ∈ fields.zipIdx.map fun x => (x.1.1, WriteExpr.ofType x.1.2 (slotName x.2)),
        Holds ("(" ++ Text.quoted x.1 ++ ".to_string(), " ++ x.2.text ++ ")") [.literal x.1] := by
      simp only [List.forall_mem_map]
      exact fun x _ => (holds_quoted x.1.1).behind (by decide) |>.seal (by decide)
        |>.before (holds_write (holds_slotName x.2)) |>.seal (by decide)
    rw [← hkeys]
    exact (Holds.commaList he).behind (by decide) |>.seal (by decide)

theorem carries_matchSelf {α : Type} {f : α → String} {first : α → Mark} {rest : α → List Mark}
    {as : List α} (h : ∀ x ∈ as, Holds (f x) (first x :: rest x)) :
    Carries (Codec.matchSelf (as.map f)) (as.map fun x => first x :: rest x) := by
  rw [Codec.matchSelf]
  split
  · next he =>
    obtain rfl := List.map_eq_nil_iff.mp (List.isEmpty_iff.mp he)
    exact .skip (holds_text (by decide)) .nil
  · exact .block (holds_text (by decide)) (.map h)

theorem holds_tagArm (hw : IsWord (identifier v.name)) :
    Holds (Codec.tagArm (writeArm v)) [.arrow, .literal v.tag] := by
  have hp : Holds (Codec.wildcardPattern (writeArm v).head (writeArm v).payload) [] :=
    holds_wildcardPattern _ (hw.holds.behind (by decide))
  exact hp.arm (holds_quoted v.tag) (by decide) |>.seal (by decide)

/-- The tag of a variant that is written, and the keys of its fields -/
def writeMarks (v : VariantCodec) : List Mark :=
  .arrow :: .literal v.tag :: v.layout.names.map .literal

theorem holds_writeArm (hv : VariantFits Q v) :
    Holds (Codec.writeArm (writeArm v)) (writeMarks v) := by
  have hp : Holds (Codec.bindingPattern (writeArm v).head (writePayload v.layout)) [] :=
    holds_bindingPattern hv.layout (hv.name.holds.behind (by decide))
  have htag : Holds (Text.quoted (writeArm v).tag) [.literal v.tag] := holds_quoted v.tag
  have hd : Holds (Codec.written (writePayload v.layout)) (v.layout.names.map .literal) :=
    holds_written v.layout
  rw [Codec.writeArm]
  refine hp.arm (?_ : Holds _ (.literal v.tag :: v.layout.names.map .literal)) (by decide)
  split
  · next h =>
    have hn : v.layout.names = [] := by
      change writePayload v.layout = .unit at h
      cases hl : v.layout <;> rw [hl] at h <;> cases h
      rfl
    rw [hn]
    exact htag.behind (by decide) |>.seal (by decide)
  · exact (htag.behind (by decide)).link hd (by decide) |>.seal (by decide)

/-- The tag of a variant that is read, and the key of each field, by which it is found and placed. -/
def readMarks (v : VariantCodec) : List (List Mark) :=
  [.literal v.tag, .arrow] :: v.layout.names.map fun n => [.literal n, .literal n]

theorem carries_readLines (hl : Fitting Q layout) (hh : Holds head []) (hs : Holds source []) :
    Carries (Codec.readLines head source (readPayload source layout))
      (layout.names.map fun n => [.literal n, .literal n]) := by
  cases layout with
  | unit => exact .skip (hh.behind (by decide) |>.seal (by decide)) .nil
  | newtype t =>
    have he := holds_read (fun n hn => (hl.types t (List.mem_singleton_self t) n hn).1)
      (j := .name source) hs (holds_index 0)
    exact .skip (hh.behind (by decide) |>.seal (by decide) |>.before he |>.seal (by decide)) .nil
  | tuple ts =>
    -- the elements stand behind the line that opens the array and the head of what is built
    have he : ∀ e ∈ (ts.zipIdx.map fun x =>
        ReadExpr.ofType x.1 (.element x.2) (.index x.2)).map fun e => e.text ++ "?,",
        Holds e [] := by
      simp only [List.forall_mem_map]
      rintro ⟨t, i⟩ hm
      have hj : Holds (Operand.element i).text [] :=
        (holds_number i).behind (by decide) |>.seal (by decide)
      have ht := fun n hn => (hl.types t (List.fst_mem_of_mem_zipIdx hm) n hn).1
      exact (holds_read ht hj (holds_index i)).seal (by decide)
    have hopen : ∀ n : Nat, Holds ("let items = wire::expect_array(" ++ source ++ ", " ++
        toString n ++ ")?;") [] := fun n =>
      (hs.behind (by decide)).link (holds_number n) (by decide) |>.seal (by decide)
    have hbuild : Holds ("Ok(" ++ head ++ "(") [] := hh.behind (by decide) |>.seal (by decide)
    exact (Carries.skip (hopen _) (.skip hbuild .nil)).append (carries_nothing he).indented
      |>.before (.skip (holds_text (by decide)) .nil)
  | struct fields =>
    -- the line of a field has its key twice: where it is read and in the place it reports
    have he : ∀ x ∈ fields.map fun x =>
        (x.1, ReadExpr.ofType x.2 (.member x.1) (.field x.1)),
        Holds (identifier x.1 ++ ": " ++ x.2.text ++ "?,") [.literal x.1, .literal x.1] := by
      simp only [List.forall_mem_map]
      rintro ⟨name, t⟩ hm
      have hj : Holds (Operand.member name).text [.literal name] :=
        (holds_quoted name).behind (by decide) |>.seal (by decide)
      have hp : Holds (PlaceTerm.field name).text [.literal name] :=
        (holds_quoted name).behind (by decide) |>.seal (by decide)
      have hn : Holds (identifier name) [] := (hl.names _ (List.mem_map_of_mem hm)).1.holds
      have ht := fun n hn => (hl.types t (List.mem_map_of_mem hm) n hn).1
      exact hn.link (holds_read ht hj hp) (by decide) |>.seal (by decide)
    have hopen : Holds ("let object = wire::expect_object(" ++ source ++ ")?;") [] :=
      hs.behind (by decide) |>.seal (by decide)
    have hbuild : Holds ("Ok(" ++ head ++ " \x7b") [] :=
      hh.behind (by decide) |>.seal (by decide)
    have hkeys : (Layout.names (.struct fields)).map (fun n => [Mark.literal n, .literal n]) =
        (fields.map fun x => (x.1, ReadExpr.ofType x.2 (.member x.1) (.field x.1))).map fun x =>
          [.literal x.1, .literal x.1] := by
      rw [Layout.names, Members.names, List.map_map, List.map_map]
      rfl
    rw [hkeys]
    exact (Carries.skip hopen (.skip hbuild .nil)).append (Carries.map he).indented
      |>.before (.skip (holds_text (by decide)) .nil)

theorem carries_wrappedArm (hv : VariantFits Q v) :
    Carries (Codec.wrappedArm (readArm v)) (readMarks v) := by
  have hh : Holds (readArm v).head [] := hv.name.holds.behind (by decide)
  have hpayload : Holds "payload" [] := holds_text (by decide)
  have htag : Holds (Text.quoted (readArm v).tag) [.literal v.tag] := holds_quoted v.tag
  have hlines := carries_readLines hv.layout hh hpayload
  unfold Codec.wrappedArm
  split
  · next l h =>
    change Codec.readLines _ _ (readPayload "payload" v.layout) = [l] at h
    have hn : v.layout.names = [] := by
      cases hl : v.layout with
      | unit => rfl
      | newtype t => rfl
      | tuple ts => rw [hl] at h; cases h
      | struct fields => rw [hl] at h; cases h
    rw [h, hn] at hlines
    rw [readMarks, hn]
    exact .cons (htag.arm hlines.holds (by decide) |>.seal (by decide)) .nil
  · have hhead : Holds (Text.quoted (readArm v).tag ++ " =>") ([.literal v.tag] ++ [.arrow]) :=
      htag.append (holds_text (by decide))
    exact .block_arm hhead hlines

theorem carries_refusedArm (r : ChoiceReader) : Carries (Codec.refusedArm r)
    (if r.refused.isEmpty then [] else [r.refused.map .literal ++ [.arrow]]) := by
  rw [Codec.refusedArm]
  split
  · exact .nil
  · next h =>
    have htags : Holds (String.intercalate " | " (r.refused.map Text.quoted))
        (r.refused.map .literal) := by
      rw [List.map_eq_flatMap (f := Mark.literal)]
      exact .intercalate (holds_text (by decide)) fun t _ => holds_quoted t
    have hline : Holds (String.intercalate " | " (r.refused.map Text.quoted) ++
        " => Err(DecodeError::UnrecognizedShape),") (r.refused.map .literal ++ [.arrow]) :=
      htags.append (holds_text (by decide))
    obtain ⟨t, ts, ht⟩ := List.exists_cons_of_ne_nil (mt List.isEmpty_iff.mpr h)
    rw [ht] at hline ⊢
    exact .cons hline .nil

/-- The tags that travel bare, each as a pattern, between a pattern for all bare tags and one for
those that are left. -/
def bareMarks (e : EnumCodec) : List (List Mark) :=
  if e.units.isEmpty then [[.arrow]]
  else [.arrow] :: (e.units.map (fun t => [.literal t, .arrow]) ++ [[.arrow]])

theorem carries_bareArms (he : ∀ v ∈ e.variants, VariantFits Q v) :
    Carries (Codec.bareArms (.ofCodec ek e)) (bareMarks e) := by
  have hunits : e.units = (ChoiceReader.ofCodec ek e).bare.map (·.tag) := by
    rw [EnumCodec.units, ChoiceReader.ofCodec, List.map_map]
    rfl
  rw [Codec.bareArms, bareMarks, hunits, List.isEmpty_map]
  split
  · exact .cons (holds_text (by decide)) .nil
  · have harms : ∀ a ∈ (ChoiceReader.ofCodec ek e).bare,
        Holds (Text.quoted a.tag ++ " => Ok(" ++ a.head ++ "),") [.literal a.tag, .arrow] := by
      intro a ha
      obtain ⟨v, hv, rfl⟩ := List.mem_map.mp ha
      have hh : Holds (readArm v).head [] :=
        (he v (List.mem_of_mem_filter hv)).name.holds.behind (by decide)
      exact (holds_quoted _).arm hh (by decide) |>.seal (by decide)
    rw [List.map_map]
    exact .block_comma (holds_text (by decide))
      ((Carries.map harms).append (.cons (holds_text (by decide)) .nil))

/-- The tags that travel wrapped, each as a pattern with what reads its payload, and the tags that
are refused there, between two patterns as for the bare ones. -/
def wrappedMarks (e : EnumCodec) : List (List Mark) :=
  [.arrow] :: ((e.variants.filter (!·.isUnit)).flatMap readMarks ++
    (if e.units.isEmpty then [] else [e.units.map .literal ++ [.arrow]]) ++ [[.arrow]])

theorem carries_wrappedArms (he : ∀ v ∈ e.variants, VariantFits Q v) :
    Carries (Codec.wrappedArms (.ofCodec ek e)) (wrappedMarks e) := by
  have harms : Carries ((ChoiceReader.ofCodec ek e).wrapped.flatMap Codec.wrappedArm)
      ((e.variants.filter (!·.isUnit)).flatMap readMarks) := by
    rw [ChoiceReader.ofCodec, List.flatMap_map]
    exact .flatMap fun v hv => carries_wrappedArm (he v (List.mem_of_mem_filter hv))
  have hbinding : Holds (if (ChoiceReader.ofCodec ek e).wrapped.isEmpty then "_" else "payload")
      [] := by split <;> exact holds_text (by decide)
  have hhead : Holds (("wire::Tagged::Wrapped(tag, " ++ if (ChoiceReader.ofCodec ek e).wrapped.isEmpty
      then "_" else "payload") ++ ") => match tag") [.arrow] :=
    (hbinding.behind (by decide)).append (holds_text (by decide))
  exact .block_comma hhead ((harms.append (carries_refusedArm _)).append
    (.cons (holds_text (by decide)) .nil))

theorem carries_readDocs (h : Holds s []) : Carries (Codec.readDocs s) [] :=
  .skip (h.behind (by decide)) (.skip (holds_text (by decide)) (.skip (holds_text (by decide))
    (.skip (holds_text (by decide)) .nil)))

theorem carries_readChoice (he : ∀ v ∈ e.variants, VariantFits Q v) :
    Carries (Codec.readChoice (.ofCodec ek e)) (bareMarks e ++ wrappedMarks e) := by
  have hpolicy : Holds (Codec.policy ek) [] := by cases ek <;> exact holds_text (by decide)
  exact (carries_readDocs (holds_text (by decide))).append (.block (holds_text (by decide))
    (.block (hpolicy.behind (by decide) |>.seal (by decide))
      ((carries_bareArms he).append (carries_wrappedArms he))))

/-- The list of all tags, the tag of each variant, what writes each variant, and what reads them. -/
def enumMarks (e : EnumCodec) : List (List Mark) :=
  (if e.tags.isEmpty then [] else [e.tags.map .literal]) ++
    e.tags.map (fun t => [.arrow, .literal t]) ++ e.variants.map writeMarks ++
    (bareMarks e ++ wrappedMarks e)

theorem carries_wireTags (tags : List String) :
    Carries ["pub const WIRE_TAGS: &'static [&'static str] = &[" ++
      commaList (tags.map Text.quoted) ++ "];"]
      (if tags.isEmpty then [] else [tags.map .literal]) := by
  have htags : Holds (commaList (tags.map Text.quoted)) (tags.map .literal) := by
    rw [List.map_eq_flatMap (f := Mark.literal)]
    exact .commaList fun t _ => holds_quoted t
  have hline : Holds ("pub const WIRE_TAGS: &'static [&'static str] = &[" ++
      commaList (tags.map Text.quoted) ++ "];") (tags.map .literal) :=
    htags.behind (by decide) |>.seal (by decide)
  cases tags with
  | nil => exact .skip hline .nil
  | cons t ts => exact .cons hline .nil

theorem carries_enum {type : String} (ht : IsWord type)
    (he : ∀ v ∈ e.variants, VariantFits Q v) :
    Carries (Codec.enum type (.ofCodec ek e) (.ofCodec e)) (enumMarks e) := by
  have hblank : Carries [""] [] := .skip (holds_text (a := []) (by decide)) .nil
  have hmust : ∀ {docs : String}, Holds docs [] → Carries [docs, "#[must_use]"] [] := fun h =>
    .skip h (.skip (holds_text (by decide)) .nil)
  have htag : Carries (Codec.matchSelf ((ChoiceWriter.ofCodec e).arms.map Codec.tagArm))
      (e.tags.map fun t => [.arrow, .literal t]) := by
    rw [ChoiceWriter.ofCodec, EnumCodec.tags, List.map_map, List.map_map]
    exact carries_matchSelf fun v hv => holds_tagArm (he v hv).name
  have hwrite : Carries (Codec.matchSelf ((ChoiceWriter.ofCodec e).arms.map Codec.writeArm))
      (e.variants.map writeMarks) := by
    rw [ChoiceWriter.ofCodec, List.map_map]
    exact carries_matchSelf fun v hv => holds_writeArm (he v hv)
  have htags : Carries ["/// Wire tags of every variant, in declaration order.",
      "pub const WIRE_TAGS: &'static [&'static str] = &[" ++
        commaList (e.tags.map Text.quoted) ++ "];", ""]
      (if e.tags.isEmpty then [] else [e.tags.map .literal]) :=
    .skip (holds_text (by decide)) ((carries_wireTags e.tags).before hblank)
  refine .before (.block (ht.holds.behind (by decide)) ?_) hblank
  exact htags.before (hmust (holds_text (by decide)))
    |>.append (.block (holds_text (by decide)) htag) |>.before hblank
    |>.before (hmust (holds_text (by decide)))
    |>.append (.block (holds_text (by decide)) hwrite) |>.before hblank
    |>.append (carries_readChoice he)

/-- The variants of an enum of an accepted schema fit what is emitted for them. -/
theorem variantFits_of_ofSchema {s : Schema} {ir : Resolved.Schema} {name : String}
    (h : Resolved.Schema.ofSchema s = .ok ir)
    (he : (CodecPlan.ofSchema ek ir).get? name = some (.enum e)) :
    IsWord (identifier e.name) ∧ ∃ Q, ∀ v ∈ e.variants, VariantFits Q v := by
  have hmem := ((CodecPlan.get?_eq_some_iff (grounded_ofSchema ek h)).mp he).1
  obtain ⟨d, hd, hde⟩ := List.mem_map.mp hmem
  have hw := worded (Resolved.Schema.named_of_ofSchema h) hd
  cases d with
  | struct t => cases hde
  | enum x =>
    obtain rfl := Codec.enum.inj hde
    exact ⟨hw.1.1, _, variantFits_of_worded hw⟩

end Codec

/-- Quoted text is one complete literal of the text, in one line, which is read off whatever code it
is in front of; and the codec that is emitted for an enum, read for its literals and arrows, has the
tags and keys by which its values are decoded and encoded, each where it stands for itself. -/
theorem literals_denote :
    (∀ s, Text.Literal.Denotes (Text.quoted s) s ∧
      (∀ c ∈ (Text.quoted s).toList, c ≠ '\n' ∧ c ≠ '\r') ∧
      ∀ rest, Text.Literal.read? ((Text.quoted s).toList ++ rest) = some (s, rest)) ∧
    Function.Injective Text.quoted ∧
    ∀ s ir, Resolved.Schema.ofSchema s = .ok ir → ∀ c name e,
      (CodecPlan.ofSchema c.extraKeys ir).get? name = some (.enum e) →
      ∃ ls, codecOf c (.ofSchema c.extraKeys ir) name = .ok ls ∧
        marked (joined ls) = some (enumMarks e) := by
  refine ⟨fun s => ?_, Text.Literal.quoted_injective, fun s ir h c name e he => ?_⟩
  · have hs := Text.Literal.denotes_quoted s
    exact ⟨hs, hs.ne_of_mem, hs.read?_append⟩
  · obtain ⟨hn, Q, hv⟩ := variantFits_of_ofSchema h he
    exact ⟨Codec.definition c (.enum e), by rw [codecOf, he], marked_joined (carries_enum hn hv)⟩

namespace Signs

def quote : String := "\"\\"

def feed : String := "\n\x00"

def accent : String := "\u0301\" => "

def sign : Definition :=
  .enum ⟨"Sign", none, [⟨"Quote", some quote, none, []⟩,
    ⟨"Feed", some feed, none, [⟨none, .unsigned .w8, none⟩]⟩,
    ⟨"Accent", some accent, none, [⟨some "grave", .bool, none⟩]⟩]⟩

/-- Tags that would end a literal, break a line or look like an arrow, were they not escaped. -/
def schema : Schema := ⟨"signs", none, [sign], 0⟩

def resolved : Resolved.Schema :=
  .ofDefinitions "signs" none [.enum ⟨"Sign", none, [⟨"Quote", quote, none, .unit, [], "quote"⟩,
    ⟨"Feed", feed, none, .newtype, [⟨none, .unsigned .w8, none⟩], "feed"⟩,
    ⟨"Accent", accent, none, .struct, [⟨some "grave", .bool, none⟩], "accent"⟩]⟩]

theorem ofSchema_schema : Resolved.Schema.ofSchema schema = .ok resolved := by
  have hd : schema.dependencyOrder = .ok [sign] := by cbv
  exact Resolved.ofSchema_of_ordered (by decide +kernel) hd (by decide +kernel)

end Signs

open Signs in
theorem literals_denote_signs : Resolved.Schema.ofSchema schema = .ok resolved ∧
    ∃ ls, codecOf .standard (.ofSchema .reject resolved) "Sign" = .ok ls ∧
      marked (joined ls) = some [
        [.literal quote, .literal feed, .literal accent],
        [.arrow, .literal quote], [.arrow, .literal feed], [.arrow, .literal accent],
        [.arrow, .literal quote], [.arrow, .literal feed],
        [.arrow, .literal accent, .literal "grave"],
        [.arrow], [.literal quote, .arrow], [.arrow],
        [.arrow], [.literal feed, .arrow], [.literal accent, .arrow],
        [.literal "grave", .literal "grave"], [.literal quote, .arrow], [.arrow]] :=
  ⟨ofSchema_schema, literals_denote.2.2 schema resolved ofSchema_schema .standard "Sign" _ rfl⟩

end TaggedSum.Emit
