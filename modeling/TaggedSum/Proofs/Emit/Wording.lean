import TaggedSum.Proofs.Emit.Assembly
import TaggedSum.Proofs.Emit.Unqualified
import TaggedSum.Proofs.Lists

namespace TaggedSum.Emit

/-- Keywords, and lifetimes -/
def grammar : List String := [
  "pub", "enum", "struct", "impl", "fn", "let", "match", "mut", "const", "self", "Self", "use",
  "for", "dyn", "'static", "'h", "'_", "_"]

/-- What the emitters bind in patterns, parameters and closures. -/
def locals : List String := [
  "value", "tag", "payload", "items", "object", "other", "item", "key", "at", "error", "handler",
  "handlers", "_handlers"]

/-- What the emitters declare within a type. -/
def items : List String := [
  "to_json", "from_json", "apply", "new", "default", "WIRE_TAGS", "_marker"]

def ownWords : List String := grammar ++ Schema.reservedNames ++ locals ++ items

/-- The letters of these words. To compare letters is cheap, but strings are encoded first. -/
def ownLetters : {ws : List (List Char) //
    List.Forall₂ (fun word letters => String.ofList letters = word) ownWords ws} :=
  ⟨_, by repeat' constructor⟩

/-- A word of the emitters, or one of `Q` -/
def Own (Q : String → Prop) (word : String) : Prop := word ∈ ownWords ∨ Q word

variable {Q : String → Prop} {s t w source head : String}

-- A text of the emitters is given by its characters, as it is them that are checked.
section Text

variable {a b : List Char}

theorem own_of_letters : ∀ x ∈ ownLetters.1, Own Q (.ofList x) := by
  intro x hx
  obtain ⟨i, hi, rfl⟩ := List.getElem_of_mem hx
  have hlen := ownLetters.2.length_eq
  have hword := ownLetters.2.get (hlen ▸ hi) hi
  exact .inl (hword ▸ List.get_mem ownWords ⟨i, hlen ▸ hi⟩)

theorem Plain.own (h : leads ownLetters.1 .start a) : Plain (Own Q) (.ofList a) :=
  .text own_of_letters h

theorem Fits.own (h : leads ownLetters.1 .start (a ++ [' '])) : Fits (Own Q) (.ofList a) :=
  .text own_of_letters h

/-- A text in two pieces, none of which need fit on its own -/
theorem Fits.joined (h : leads ownLetters.1 .start (a ++ b ++ [' '])) :
    Fits (Own Q) (.ofList a ++ .ofList b) := by
  rw [← String.ofList_append]
  exact .own h

theorem Keeps.own (h : leads ownLetters.1 .start (a ++ [' '])) : Keeps (Own Q) [.ofList a] :=
  (Fits.own h).keeps

theorem Fits.seal (hs : Fits (Own Q) s) (h : Opens a ∧ leads ownLetters.1 .start a) :
    Plain (Own Q) (s ++ .ofList a) :=
  hs.plain (String.toList_ofList ▸ h.1) (.own h.2)

theorem Fits.close (hs : Fits (Own Q) s) (h : Opens a ∧ leads ownLetters.1 .start (a ++ [' '])) :
    Fits (Own Q) (s ++ .ofList a) :=
  hs.then (String.toList_ofList ▸ h.1) (.own h.2)

theorem Fits.behind (ht : Fits (Own Q) t) (h : leads ownLetters.1 .start a) :
    Fits (Own Q) (.ofList a ++ t) := (Plain.own h).then ht

theorem Fits.link (hs : Fits (Own Q) s) (ht : Fits (Own Q) t)
    (h : Opens a ∧ leads ownLetters.1 .start a) : Fits (Own Q) (s ++ .ofList a ++ t) :=
  (hs.seal h).then ht

theorem Plain.seal (hs : Plain (Own Q) s) (h : leads ownLetters.1 .start a) :
    Plain (Own Q) (s ++ .ofList a) := hs.append (.own h)

theorem IsWord.path (hw : IsWord w) (h : leads ownLetters.1 (.code true []) a) :
    Fits (Own Q) (.ofList a ++ w) := hw.fits_path own_of_letters h

theorem Spells.own (h : Spells Q s) : Fits (Own Q) s :=
  Spells.fits ⟨h.1, fun hd => .inr (h.2 hd)⟩

end Text

theorem isWord_slotName (i : Nat) : IsWord (slotName i) :=
  isWord_of_continues (Text.continues_of_isMemberName (Text.isMemberName_numbered i))

/-- The names of a payload are words of `Q`, and so are the slots of its fields. -/
structure Suits (Q : String → Prop) (fields : List Field) : Prop where
  types : ∀ f ∈ fields, ∀ n, f.type.reference? = some n →
    Spells Q n ∧ Spells Q (identifier n)
  names : ∀ n ∈ Resolved.bindings fields, Spells Q (identifier n)
  slots : ∀ i < fields.length, Q (slotName i)

theorem fits_typeName {t : FieldType} (h : ∀ n, t.reference? = some n → Spells Q n) :
    Fits (Own Q) (typeName t) := by
  induction t with
  | string => exact .own (by decide)
  | bool => exact .own (by decide)
  | signed w => cases w <;> exact .joined (by decide)
  | unsigned w => cases w <;> exact .joined (by decide)
  | reference n => exact (h n rfl).own
  | seq t ih => exact (ih h).behind (by decide) |>.close (by decide)
  | map t ih => exact (ih h).behind (by decide) |>.close (by decide)

section Expression

variable {j : Operand} {place : PlaceTerm}

theorem plain_call {helper : String} (hh : Fits (Own Q) ("wire::" ++ helper))
    (hj : Fits (Own Q) j.text) (hp : Fits (Own Q) place.text) :
    Plain (Own Q) (ReadExpr.call helper j place) :=
  hh.link hj (by decide) |>.link hp (by decide) |>.seal (by decide)

theorem plain_callEach {helper body : String} (hh : Fits (Own Q) ("wire::" ++ helper))
    (hj : Fits (Own Q) j.text) (hp : Fits (Own Q) place.text) (hb : Plain (Own Q) body) :
    Plain (Own Q) (ReadExpr.callEach helper j place body) :=
  hh.link hj (by decide) |>.link hp (by decide) |>.seal (by decide) |>.append hb
    |>.seal (by decide)

theorem fits_decodeInt {a b c : List Char}
    (h : leads ownLetters.1 .start ("wire::".toList ++ (a ++ b ++ c) ++ [' '])) :
    Fits (Own Q) ("wire::" ++ (.ofList a ++ .ofList b ++ .ofList c)) := by
  rw [← String.ofList_append, ← String.ofList_append, ← @String.ofList_toList "wire::"]
  exact .joined h

theorem plain_read {t : FieldType}
    (ht : ∀ n, t.reference? = some n → Spells Q (identifier n)) (hj : Fits (Own Q) j.text)
    (hp : Fits (Own Q) place.text) : Plain (Own Q) (ReadExpr.ofType t j place).text := by
  have hitem : Fits (Own Q) (Operand.name "item").text := .own (by decide)
  have hat : Fits (Own Q) (PlaceTerm.name "at").text := .own (by decide)
  induction t generalizing j place with
  | string => exact plain_call (.joined (by decide)) hj hp
  | bool => exact plain_call (.joined (by decide)) hj hp
  | signed w => cases w <;> exact plain_call (fits_decodeInt (by decide)) hj hp
  | unsigned w => cases w <;> exact plain_call (fits_decodeInt (by decide)) hj hp
  | reference n =>
    exact (ht n rfl).own.link hj (by decide) |>.link hp (by decide) |>.seal (by decide)
  | seq t ih => exact plain_callEach (.joined (by decide)) hj hp (ih ht hitem hat)
  | map t ih => exact plain_callEach (.joined (by decide)) hj hp (ih ht hitem hat)

theorem plain_write {t : FieldType} {x : String} (hx : Fits (Own Q) x) :
    Plain (Own Q) (WriteExpr.ofType t x).text := by
  have hitem : Fits (Own Q) "item" := .own (by decide)
  induction t generalizing x with
  | string => exact hx.behind (by decide) |>.seal (by decide)
  | bool => exact hx.behind (by decide) |>.seal (by decide)
  | signed w => exact hx.behind (by decide) |>.seal (by decide)
  | unsigned w => exact hx.behind (by decide) |>.seal (by decide)
  | reference n => exact hx.seal (by decide)
  | seq t ih =>
    exact hx.behind (by decide) |>.seal (by decide) |>.append (ih hitem) |>.seal (by decide)
  | map t ih =>
    exact hx.behind (by decide) |>.seal (by decide) |>.append (ih hitem) |>.seal (by decide)

end Expression

section Codec

/-- The names and the slots of a payload, as it is laid out. -/
structure Fitting (Q : String → Prop) (l : Layout) : Prop where
  types : ∀ t ∈ l.types, ∀ n, t.reference? = some n → Spells Q (identifier n)
  names : ∀ n ∈ l.names, Spells Q (identifier n)
  slots : ∀ i < l.types.length, Q (slotName i)

theorem types_ofFields_sublist (shape : Shape) (fields : List Field) :
    (Layout.ofFields shape fields).types.Sublist (fields.map (·.type)) := by
  cases shape with
  | unit => exact List.nil_sublist _
  | newtype =>
    cases fields with
    | nil => exact .slnil
    | cons f fields => exact .cons_cons f.type (List.nil_sublist _)
  | tuple => exact List.Sublist.refl _
  | struct =>
    have ht : (Layout.ofFields .struct fields).types = fields.map (·.type) :=
      List.map_snd_zip (by simp [length_bindings])
    exact ht ▸ List.Sublist.refl _

theorem Suits.fitting {fields : List Field} (h : Suits Q fields) (shape : Shape) :
    Fitting Q (.ofFields shape fields) := by
  have hsub := types_ofFields_sublist shape fields
  refine ⟨?_, fun n hn => h.names n (names_ofFields_subset shape fields hn), ?_⟩
  · intro t ht n hn
    obtain ⟨f, hf, rfl⟩ := List.mem_map.mp (hsub.subset ht)
    exact (h.types f hf n hn).2
  · intro i hi
    have hl := hsub.length_le
    rw [List.length_map] at hl
    exact h.slots i (Nat.lt_of_lt_of_le hi hl)

variable {l : Layout}

theorem mem_slotNames {i n : Nat} (h : i < n) : slotName i ∈ slotNames n :=
  List.mem_map_of_mem (List.mem_range.mpr h)

theorem fits_slotNames {n : Nat} (h : ∀ i < n, Q (slotName i)) :
    ∀ x ∈ slotNames n, Fits (Own Q) x := by
  intro x hx
  obtain ⟨i, hi, rfl⟩ := List.mem_map.mp hx
  exact ((isWord_slotName i).spells (h i (List.mem_range.mp hi))).own

theorem bindingPattern_struct (head : String) (fields : List (String × FieldType)) :
    Codec.bindingPattern head (writePayload (.struct fields)) =
      head ++ " " ++ Codec.braced (commaList (List.zipWith
        (fun name slot => identifier name ++ ": " ++ slot) (fields.map Prod.fst)
        (slotNames fields.length))) := by
  have hnames : (fields.zipIdx.map fun x =>
      (x.1.1, WriteExpr.ofType x.1.2 (slotName x.2))).map Prod.fst = fields.map Prod.fst := by
    rw [List.map_map, ← List.zipIdx_map_fst 0 fields, List.map_map, List.zipIdx_map_fst]
    rfl
  change Codec.bindingPattern head (.struct (fields.zipIdx.map fun x =>
    (x.1.1, WriteExpr.ofType x.1.2 (slotName x.2)))) = _
  rw [Codec.bindingPattern, hnames, List.length_map, List.length_zipIdx]

theorem fits_bindingPattern (hl : Fitting Q l) (hh : Fits (Own Q) head) :
    Fits (Own Q) (Codec.bindingPattern head (writePayload l)) := by
  have hslots := fits_slotNames hl.slots
  cases l with
  | unit => exact hh
  | newtype t =>
    have hslot := hslots (slotName 0) (mem_slotNames Nat.zero_lt_one)
    exact hh.link hslot (by decide) |>.close (by decide)
  | tuple ts =>
    simp only [Codec.bindingPattern, writePayload, List.length_map, List.length_zipIdx]
    exact hh.link (.commaList hslots) (by decide) |>.close (by decide)
  | struct fields =>
    rw [Layout.types, List.length_map] at hslots
    have hb := Fits.commaList (Lists.forall_zipWith fun n hn x hx =>
      (hl.names n hn).own.link (a := [':', ' ']) (hslots x hx) (by decide))
    rw [bindingPattern_struct]
    exact hh.link (hb.behind (by decide) |>.close (by decide)) (by decide)

theorem fits_wildcardPattern {α : Type} (p : Payload α) (hh : Fits (Own Q) head) :
    Fits (Own Q) (Codec.wildcardPattern head p) := by
  cases p with
  | unit => exact hh
  | newtype => exact hh.close (by decide)
  | tuple => exact hh.close (by decide)
  | struct =>
    have hrest : Fits (Own Q) ".." := .own (by decide)
    exact hh.link (hrest.behind (by decide) |>.close (by decide)) (by decide)

theorem fits_written (hl : Fitting Q l) : Fits (Own Q) (Codec.written (writePayload l)) := by
  have hslots := fits_slotNames hl.slots
  cases l with
  | unit => exact .own (by decide)
  | newtype t =>
    exact (plain_write (hslots (slotName 0) (mem_slotNames Nat.zero_lt_one))).fits
  | tuple ts =>
    have he : ∀ e ∈ (ts.zipIdx.map fun x => WriteExpr.ofType x.1 (slotName x.2)).map
        WriteExpr.text, Fits (Own Q) e := by
      simp only [List.forall_mem_map]
      rintro ⟨t, i⟩ hm
      have hi : i < ts.length := (List.mem_zipIdx' hm).1
      exact (plain_write (hslots (slotName i) (mem_slotNames hi))).fits
    exact (Fits.commaList he).behind (by decide) |>.close (by decide)
  | struct fields =>
    have he : ∀ e ∈ (fields.zipIdx.map fun x =>
        (x.1.1, WriteExpr.ofType x.1.2 (slotName x.2))).map fun x =>
        "(" ++ Text.quoted x.1 ++ ".to_string(), " ++ x.2.text ++ ")", Fits (Own Q) e := by
      simp only [List.forall_mem_map]
      rintro ⟨⟨name, t⟩, i⟩ hm
      have hi : i < (fields.map Prod.snd).length := by
        rw [List.length_map]
        exact (List.mem_zipIdx' hm).1
      have hx := hslots (slotName i) (mem_slotNames hi)
      exact (Plain.quoted name).fits.behind (by decide) |>.seal (by decide)
        |>.append (plain_write hx) |>.seal (by decide) |>.fits
    exact (Fits.commaList he).behind (by decide) |>.close (by decide)

theorem keeps_matchSelf {arms : List String} (h : ∀ l ∈ arms, Fits (Own Q) l) :
    Keeps (Own Q) (Codec.matchSelf arms) := by
  rw [Codec.matchSelf]
  split
  · exact .own (by decide)
  · exact .block (.own (by decide)) (.lines h)

theorem fits_tagArm {α : Type} (tag : String) (p : Payload α) (hw : IsWord w) :
    Fits (Own Q) (Codec.wildcardPattern ("Self::" ++ w) p ++ " => " ++ Text.quoted tag ++ ",") :=
  (fits_wildcardPattern p (hw.path (by decide))).seal (by decide) |>.append (.quoted tag)
    |>.seal (by decide) |>.fits

theorem fits_writeArm {v : VariantCodec} (hw : IsWord (identifier v.name))
    (hl : Fitting Q v.layout) : Fits (Own Q) (Codec.writeArm (writeArm v)) := by
  have hp : Fits (Own Q) (Codec.bindingPattern (writeArm v).head (writePayload v.layout)) :=
    fits_bindingPattern hl (hw.path (by decide))
  have hd : Fits (Own Q) (Codec.written (writePayload v.layout)) := fits_written hl
  rw [Codec.writeArm]
  refine hp.seal (by decide) |>.append ?_ |>.fits
  have htag := (Plain.quoted (P := Own Q) (writeArm v).tag).fits
  split
  · exact htag.behind (by decide) |>.seal (by decide)
  · exact htag.behind (by decide) |>.link hd (by decide) |>.seal (by decide)

/-- What builds a payload in one line, if it does, goes on with no word behind it. -/
theorem plain_readLine (hl : Fitting Q l) (hh : Fits (Own Q) head) (hs : Fits (Own Q) source)
    {line : String} (h : Codec.readLines head source (readPayload source l) = [line]) :
    Plain (Own Q) line := by
  have hj : Fits (Own Q) (Operand.name source).text := hs
  have hp : Fits (Own Q) (PlaceTerm.index 0).text :=
    (Spells.number 0).fits.behind (by decide) |>.close (by decide)
  cases l with
  | unit =>
    cases h
    exact hh.behind (by decide) |>.seal (by decide)
  | newtype t =>
    cases h
    exact hh.behind (by decide) |>.seal (by decide)
      |>.append (plain_read (hl.types t (List.mem_singleton_self t)) hj hp) |>.seal (by decide)
  | tuple ts => cases h
  | struct fields => cases h

theorem keeps_readLines (hl : Fitting Q l) (hh : Fits (Own Q) head) (hs : Fits (Own Q) source) :
    Keeps (Own Q) (Codec.readLines head source (readPayload source l)) := by
  cases l with
  | unit => exact (plain_readLine hl hh hs rfl).fits.keeps
  | newtype t => exact (plain_readLine hl hh hs rfl).fits.keeps
  | tuple ts =>
    have he : ∀ e ∈ (ts.zipIdx.map fun x =>
        ReadExpr.ofType x.1 (.element x.2) (.index x.2)).map fun e => e.text ++ "?,",
        Fits (Own Q) e := by
      simp only [List.forall_mem_map]
      rintro ⟨t, i⟩ hm
      have hj : Fits (Own Q) (Operand.element i).text :=
        (Spells.number i).fits.behind (by decide) |>.close (by decide)
      have hp : Fits (Own Q) (PlaceTerm.index i).text :=
        (Spells.number i).fits.behind (by decide) |>.close (by decide)
      have ht := hl.types t (List.fst_mem_of_mem_zipIdx hm)
      exact (plain_read ht hj hp).seal (by decide) |>.fits
    have hopen : Fits (Own Q) ("let items = wire::expect_array(" ++ source ++ ", " ++
        toString ts.length ++ ")?;") :=
      hs.behind (by decide) |>.link (Spells.number _).fits (by decide) |>.close (by decide)
    have hbuild : Fits (Own Q) ("Ok(" ++ head ++ "(") :=
      hh.behind (by decide) |>.close (by decide)
    simp only [Codec.readLines, readPayload, List.length_map, List.length_zipIdx]
    exact (Keeps.cons hopen hbuild.keeps).append (Keeps.lines he).indented
      |>.append (.own (by decide))
  | struct fields =>
    have he : ∀ e ∈ (fields.map fun x =>
        (x.1, ReadExpr.ofType x.2 (.member x.1) (.field x.1))).map fun x =>
        identifier x.1 ++ ": " ++ x.2.text ++ "?,", Fits (Own Q) e := by
      simp only [List.forall_mem_map]
      rintro ⟨name, t⟩ hm
      have hj : Fits (Own Q) (Operand.member name).text :=
        (Plain.quoted name).fits.behind (by decide) |>.close (by decide)
      have hp : Fits (Own Q) (PlaceTerm.field name).text :=
        (Plain.quoted name).fits.behind (by decide) |>.close (by decide)
      have hn : Fits (Own Q) (identifier name) := (hl.names _ (List.mem_map_of_mem hm)).own
      have ht := hl.types t (List.mem_map_of_mem hm)
      exact hn.seal (by decide) |>.append (plain_read ht hj hp) |>.seal (by decide) |>.fits
    have hopen : Fits (Own Q) ("let object = wire::expect_object(" ++ source ++ ")?;") :=
      hs.behind (by decide) |>.close (by decide)
    have hbuild : Fits (Own Q) ("Ok(" ++ head ++ " \x7b") :=
      hh.behind (by decide) |>.close (by decide)
    exact (Keeps.cons hopen hbuild.keeps).append (Keeps.lines he).indented
      |>.append (.own (by decide))

/-- A variant under its name -/
structure VariantFits (Q : String → Prop) (v : VariantCodec) : Prop where
  name : IsWord (identifier v.name)
  layout : Fitting Q v.layout

variable {v : VariantCodec} {e : EnumCodec} {ek : ExtraKeys}

theorem keeps_wrappedArm (hv : VariantFits Q v) : Keeps (Own Q) (Codec.wrappedArm (readArm v)) := by
  have hh : Fits (Own Q) (readArm v).head := hv.name.path (by decide)
  have hpayload : Fits (Own Q) "payload" := .own (by decide)
  have htag : Fits (Own Q) (Text.quoted (readArm v).tag) := (Plain.quoted _).fits
  unfold Codec.wrappedArm
  split
  · next h =>
    have hline := plain_readLine hv.layout hh hpayload h
    exact (htag.seal (by decide) |>.append hline |>.seal (by decide)).fits.keeps
  · exact .block (htag.close (by decide)) (keeps_readLines hv.layout hh hpayload)

theorem keeps_refusedArm (r : ChoiceReader) : Keeps (Own Q) (Codec.refusedArm r) := by
  rw [Codec.refusedArm]
  split
  · exact .nil
  · have hq : ∀ x ∈ r.refused.map Text.quoted, Fits (Own Q) x :=
      List.forall_mem_map.mpr fun tag _ => (Plain.quoted tag).fits
    have htags : Fits (Own Q) (String.intercalate " | " (r.refused.map Text.quoted)) :=
      .intercalate (.own (by decide)) (by decide) hq
    exact (htags.seal (by decide)).fits.keeps

theorem keeps_wrappedArms (he : ∀ v ∈ e.variants, VariantFits Q v) :
    Keeps (Own Q) (Codec.wrappedArms (.ofCodec ek e)) := by
  have harms : ∀ a ∈ (ChoiceReader.ofCodec ek e).wrapped, Keeps (Own Q) (Codec.wrappedArm a) := by
    intro a ha
    obtain ⟨v, hv, rfl⟩ := List.mem_map.mp ha
    exact keeps_wrappedArm (he v (List.mem_of_mem_filter hv))
  have hbinding : Fits (Own Q) (if (ChoiceReader.ofCodec ek e).wrapped.isEmpty then "_"
      else "payload") := by split <;> exact .own (by decide)
  exact .block_comma (hbinding.behind (by decide) |>.close (by decide))
    (((Keeps.flatMap harms).append (keeps_refusedArm _)).append (.own (by decide)))

theorem keeps_bareArms (he : ∀ v ∈ e.variants, VariantFits Q v) :
    Keeps (Own Q) (Codec.bareArms (.ofCodec ek e)) := by
  rw [Codec.bareArms]
  split
  · exact .own (by decide)
  · have harms : ∀ l ∈ (ChoiceReader.ofCodec ek e).bare.map fun a =>
        Text.quoted a.tag ++ " => Ok(" ++ a.head ++ "),", Fits (Own Q) l := by
      simp only [List.forall_mem_map]
      intro a ha
      obtain ⟨v, hv, rfl⟩ := List.mem_map.mp ha
      have hh : Fits (Own Q) (readArm v).head :=
        (he v (List.mem_of_mem_filter hv)).name.path (by decide)
      exact (Plain.quoted _).fits.link hh (by decide) |>.close (by decide)
    exact .block_comma (.own (by decide)) ((Keeps.lines harms).append (.own (by decide)))

theorem keeps_readDocs (what : String) : Keeps (Own Q) (Codec.readDocs what) :=
  .skip (isRemark_append (isRemark_text rfl) what) (.skip (isRemark_text rfl)
    (.skip (isRemark_text rfl) (.skip (isRemark_text rfl) .nil)))

theorem keeps_readChoice (he : ∀ v ∈ e.variants, VariantFits Q v) :
    Keeps (Own Q) (Codec.readChoice (.ofCodec ek e)) := by
  have hpolicy : Fits (Own Q) (Codec.policy ek) := by cases ek <;> exact .own (by decide)
  exact (keeps_readDocs _).append (.block (.own (by decide))
    (.block (hpolicy.behind (by decide) |>.close (by decide))
      ((keeps_bareArms he).append (keeps_wrappedArms he))))

theorem keeps_attribute {docs : String} (hd : isRemark docs) :
    Keeps (Own Q) [docs, "#[must_use]"] :=
  .skip hd (.skip (isRemark_text rfl) .nil)

theorem keeps_enumCodec {type : String} (ht : Fits (Own Q) type)
    (he : ∀ v ∈ e.variants, VariantFits Q v) :
    Keeps (Own Q) (Codec.enum type (.ofCodec ek e) (.ofCodec e)) := by
  have htags : Keeps (Own Q) ["/// Wire tags of every variant, in declaration order.",
      "pub const WIRE_TAGS: &'static [&'static str] = &[" ++
        commaList (e.tags.map Text.quoted) ++ "];", ""] := by
    have hq : ∀ x ∈ e.tags.map Text.quoted, Fits (Own Q) x :=
      List.forall_mem_map.mpr fun tag _ => (Plain.quoted tag).fits
    exact .skip (isRemark_text rfl) (.cons
      ((Fits.commaList hq).behind (by decide) |>.close (by decide)) (.own (by decide)))
  have htag : Keeps (Own Q) (Codec.matchSelf ((ChoiceWriter.ofCodec e).arms.map Codec.tagArm)) := by
    refine keeps_matchSelf ?_
    simp only [ChoiceWriter.ofCodec, List.forall_mem_map]
    exact fun v hv => fits_tagArm _ _ (he v hv).name
  have hwrite : Keeps (Own Q)
      (Codec.matchSelf ((ChoiceWriter.ofCodec e).arms.map Codec.writeArm)) := by
    refine keeps_matchSelf ?_
    simp only [ChoiceWriter.ofCodec, List.forall_mem_map]
    exact fun v hv => fits_writeArm (he v hv).name (he v hv).layout
  refine .append (.block (ht.behind (by decide)) ?_) .blank
  exact htags.append (keeps_attribute (isRemark_text rfl))
    |>.append (.block (.own (by decide)) htag) |>.append .blank
    |>.append (keeps_attribute (isRemark_text rfl))
    |>.append (.block (.own (by decide)) hwrite) |>.append .blank
    |>.append (keeps_readChoice he)

theorem keeps_writeRecord (hl : Fitting Q l) :
    Keeps (Own Q) (Codec.writeRecord (writePayload l)) := by
  have hw := (fits_written hl).keeps
  have hb : Fits (Own Q) ("let " ++ Codec.bindingPattern "Self" (writePayload l) ++ " = self;") :=
    (fits_bindingPattern hl (.own (by decide))).behind (by decide) |>.close (by decide)
  unfold Codec.writeRecord
  split
  · next h => rwa [h] at hw
  · exact .cons hb hw

theorem keeps_readRecord (hl : Fitting Q l) :
    Keeps (Own Q) (Codec.readRecord (readPayload "value" l)) := by
  unfold Codec.readRecord
  split
  · exact .cons (.own (by decide)) (.own (by decide))
  · exact keeps_readLines hl (.own (by decide)) (.own (by decide))

theorem keeps_record {type : String} (ht : Fits (Own Q) type) (hl : Fitting Q l) :
    Keeps (Own Q) (Codec.record type (readPayload "value" l) (writePayload l)) := by
  refine .append (.block (ht.behind (by decide)) ?_) .blank
  exact (keeps_attribute (isRemark_text rfl)).append
      (.block (.own (by decide)) (keeps_writeRecord hl))
    |>.append .blank
    |>.append (keeps_readDocs _)
    |>.append (.block (.own (by decide)) (keeps_readRecord hl))

end Codec

section Types

variable {c : Config} {fields : List Field}

theorem keeps_docLines (docs : Option String) : Keeps (Own Q) (c.docLines docs) :=
  .remarks (isRemark_docLines c docs)

theorem keeps_derives : Keeps (Own Q) (Types.derives c) := .remarks (isRemark_derives c)

theorem Suits.fits_type (h : Suits Q fields) {f : Field} (hf : f ∈ fields) :
    Fits (Own Q) (typeName f.type) := fits_typeName fun n hn => (h.types f hf n hn).1

theorem keeps_positional {visibility close : String} (h : Suits Q fields) (hh : Fits (Own Q) head)
    (hv : Plain (Own Q) visibility) (hc : Plain (Own Q) close) :
    Keeps (Own Q) (Types.positional c head visibility close fields) := by
  have ht : ∀ f ∈ fields, Fits (Own Q) (visibility ++ typeName f.type) := fun f hf =>
    hv.then (h.fits_type hf)
  unfold Types.positional
  split
  · have hfields := Keeps.flatMap fun f hf =>
      (keeps_docLines (c := c) f.docs).append ((ht f hf).close (a := [',']) (by decide)).keeps
    exact (Keeps.cons (hh.close (by decide)) hfields.indented).append
      (hc.fits.behind (by decide)).keeps
  · have hfields := Fits.commaList (List.forall_mem_map.mpr ht)
    exact (hh.link hfields (by decide) |>.seal (by decide) |>.append hc).fits.keeps

theorem keeps_named {visibility : String} (h : Suits Q fields) (hv : Plain (Own Q) visibility) :
    Keeps (Own Q) (Types.named c visibility fields) := by
  refine .flatMap ?_
  rintro ⟨name, f⟩ hm
  obtain ⟨hn, hf⟩ := List.of_mem_zip hm
  have hname : Fits (Own Q) (visibility ++ identifier name) := hv.then (h.names name hn).own
  have hline := hname.link (a := [':', ' ']) (h.fits_type hf) (by decide)
  exact (keeps_docLines f.docs).append (hline.close (by decide)).keeps

/-- A variant under its name, with a constructor function, a setter and a slot for its handler. -/
structure VariantSuits (Q : String → Prop) (v : Resolved.Variant) : Prop where
  name : Spells Q (identifier v.name)
  slot : Spells Q (identifier v.handler)
  constructor : Spells Q (Types.constructorName v)
  setter : Spells Q ("on_" ++ v.handler)
  fields : Suits Q v.fields

variable {v : Resolved.Variant} {e : Resolved.Enum}

theorem keeps_variant (h : VariantSuits Q v) : Keeps (Own Q) (Types.variant c v) := by
  refine (keeps_docLines v.docs).append ?_
  split
  · exact (h.name.own.close (by decide)).keeps
  · exact keeps_positional h.fields h.name.own (.own (by decide)) (.own (by decide))
  · exact keeps_positional h.fields h.name.own (.own (by decide)) (.own (by decide))
  · exact .block_comma h.name.own (keeps_named h.fields (.own (by decide)))

theorem keeps_enumType (hn : Fits (Own Q) (identifier e.name))
    (he : ∀ v ∈ e.variants, VariantSuits Q v) : Keeps (Own Q) (Types.enum c e) :=
  (keeps_docLines e.docs).append keeps_derives |>.append
    (.block (hn.behind (by decide)) (.flatMap fun v hv => keeps_variant (he v hv)))
    |>.append .blank

theorem fits_params (h : Suits Q fields) : ∀ x ∈ Types.params fields, Fits (Own Q) x := by
  rw [Types.params, List.forall_mem_map]
  rintro ⟨name, f⟩ hm
  obtain ⟨hn, hf⟩ := List.of_mem_zip hm
  exact (h.names name hn).own.link (h.fits_type hf) (by decide)

theorem fits_constructed (h : VariantSuits Q v) : Fits (Own Q) (Types.constructed v) := by
  have hh : Fits (Own Q) ("Self::" ++ identifier v.name) := h.name.1.path (by decide)
  have ha : Fits (Own Q) (commaList ((Resolved.bindings v.fields).map identifier)) :=
    .commaList (List.forall_mem_map.mpr fun n hn => (h.fields.names n hn).own)
  unfold Types.constructed
  split
  · exact hh
  · exact hh.link ha (by decide) |>.close (by decide)
  · exact hh.link ha (by decide) |>.close (by decide)
  · exact hh.link ha (by decide) |>.close (by decide)

theorem keeps_constructorLines (h : VariantSuits Q v) :
    Keeps (Own Q) (Types.constructorLines v) := by
  have hremarks : Keeps (Own Q) ["/// Creates a `" ++ v.name ++ "` value.", "#[must_use]"] :=
    keeps_attribute (isRemark_append (isRemark_append (isRemark_text rfl) _) _)
  have hhead : Fits (Own Q) ("pub fn " ++ Types.constructorName v ++ "(" ++
      commaList (Types.params v.fields) ++ ") -> Self") :=
    h.constructor.own.behind (by decide) |>.link (.commaList (fits_params h.fields)) (by decide)
      |>.close (by decide)
  exact hremarks.append (.block hhead (fits_constructed h).keeps)

theorem keeps_spaced {lss : List (List String)} (h : ∀ ls ∈ lss, Keeps (Own Q) ls) :
    Keeps (Own Q) (Types.spaced lss) := by
  induction lss with
  | nil => exact .nil
  | cons ls lss ih =>
    obtain ⟨hls, hlss⟩ := List.forall_mem_cons.mp h
    cases lss with
    | nil => exact hls
    | cons => exact hls.append (.cons (.own (by decide)) (ih hlss))

theorem keeps_constructors (hn : Fits (Own Q) (identifier e.name))
    (he : ∀ v ∈ e.variants, VariantSuits Q v) : Keeps (Own Q) (Types.constructors e) :=
  (Keeps.block (hn.behind (by decide)) (keeps_spaced (List.forall_mem_map.mpr fun v hv =>
    keeps_constructorLines (he v hv)))).append .blank

theorem keeps_structType {t : Resolved.Struct} (hn : Fits (Own Q) (identifier t.name))
    (h : Suits Q t.fields) : Keeps (Own Q) (Types.struct c t) := by
  have hh : Fits (Own Q) ("pub struct " ++ identifier t.name) := hn.behind (by decide)
  refine ((keeps_docLines t.docs).append keeps_derives).append ?_ |>.append .blank
  split
  · exact (hh.close (by decide)).keeps
  · exact keeps_positional h hh (.own (by decide)) (.own (by decide))
  · exact keeps_positional h hh (.own (by decide)) (.own (by decide))
  · exact .block hh (keeps_named h (.own (by decide)))

end Types

section Dispatch

variable {c : Config} {v : Resolved.Variant} {e : Resolved.Enum} {p : DispatchPlan}

theorem fits_borrowed (h : Suits Q v.fields) :
    Fits (Own Q) (Dispatch.borrowed (DispatchPlan.armOf v)) := by
  refine .commaList (List.forall_mem_map.mpr (Lists.forall_zipWith fun n _ t ht => ?_))
  obtain ⟨f, hf, rfl⟩ := List.mem_map.mp ht
  exact (h.fits_type hf).behind (by decide)

theorem length_params (v : Resolved.Variant) :
    (DispatchPlan.armOf v).params.length = v.fields.length := by
  simp [DispatchPlan.armOf, length_bindings]

theorem keeps_handlersStruct (hp : Fits (Own Q) e.handlersName)
    (he : ∀ v ∈ e.variants, VariantSuits Q v) :
    Keeps (Own Q) (Dispatch.handlersStruct c (.ofEnum e)) := by
  have hslots : ∀ x ∈ (DispatchPlan.ofEnum e).arms.map fun a => identifier a.handler ++
      ": Option<Box<dyn FnOnce(" ++ Dispatch.borrowed a ++ ") -> Result<R, E> + 'h>>,",
      Fits (Own Q) x := by
    simp only [DispatchPlan.ofEnum, List.forall_mem_map]
    intro v hv
    have hs : Fits (Own Q) (identifier (DispatchPlan.armOf v).handler) := (he v hv).slot.own
    exact hs.link (fits_borrowed (he v hv).fields) (by decide) |>.close (by decide)
  refine (Keeps.remarks (isRemark_ite (isRemark_handlersDocs _))).append
    (.skip (isRemark_text rfl) ?_) |>.append .blank
  exact .block (hp.behind (by decide) |>.close (by decide))
    ((Keeps.lines hslots).append (.own (by decide)))

theorem keeps_setterLines (h : VariantSuits Q v) :
    Keeps (Own Q) (Dispatch.setterLines c (DispatchPlan.armOf v)) := by
  have hdocs : Keeps (Own Q) (if c.docs then ["/// Registers the handler for `" ++ v.name ++ "`."]
      else []) :=
    .remarks (isRemark_ite (List.forall_mem_singleton.mpr
      (isRemark_append (isRemark_append (isRemark_text rfl) _) _)))
  have hsetter : Fits (Own Q) (DispatchPlan.armOf v).setter := h.setter.own
  have hslot : Fits (Own Q) ("self." ++ identifier v.handler) := h.slot.1.path (by decide)
  refine hdocs.append (.skip (isRemark_text rfl) (.block ?_
    (.cons (hslot.close (by decide)) (.own (by decide)))))
  exact hsetter.behind (by decide) |>.link (fits_borrowed h.fields) (by decide)
    |>.close (by decide)

theorem keeps_handlersImpl (hp : Fits (Own Q) e.handlersName)
    (he : ∀ v ∈ e.variants, VariantSuits Q v) :
    Keeps (Own Q) (Dispatch.handlersImpl c (.ofEnum e)) := by
  have hslots : ∀ x ∈ (DispatchPlan.ofEnum e).arms.map fun a => identifier a.handler ++ ": None,",
      Fits (Own Q) x := by
    simp only [DispatchPlan.ofEnum, List.forall_mem_map]
    intro v hv
    have hs : Fits (Own Q) (identifier (DispatchPlan.armOf v).handler) := (he v hv).slot.own
    exact hs.close (by decide)
  have hsetters : Keeps (Own Q) ((DispatchPlan.ofEnum e).arms.flatMap fun a =>
      "" :: Dispatch.setterLines c a) := by
    refine .flatMap ?_
    simp only [DispatchPlan.ofEnum, List.forall_mem_map]
    exact fun v hv => .cons (.own (by decide)) (keeps_setterLines (he v hv))
  have hmarker : Keeps (Own Q) ["_marker: std::marker::PhantomData,"] := .own (by decide)
  have hattribute : Keeps (Own Q) ["/// Creates an empty handler set.", "#[must_use]"] :=
    keeps_attribute (isRemark_text rfl)
  have hself : Keeps (Own Q) (block "Self" ((DispatchPlan.ofEnum e).arms.map
      (fun a => identifier a.handler ++ ": None,") ++ ["_marker: std::marker::PhantomData,"])) :=
    .block (.own (by decide)) ((Keeps.lines hslots).append hmarker)
  have hnew : Keeps (Own Q) (block "pub fn new() -> Self" _) := .block (.own (by decide)) hself
  have hdefault : Keeps (Own Q) (block "fn default() -> Self" ["Self::new()"]) :=
    .block (.own (by decide)) (.own (by decide))
  exact Keeps.block (hp.behind (by decide) |>.close (by decide))
      ((hattribute.append hnew).append hsetters)
    |>.append .blank
    |>.append (.block (hp.behind (by decide) |>.close (by decide)) hdefault)
    |>.append .blank

theorem fits_pattern (h : VariantSuits Q v) :
    Fits (Own Q) (Dispatch.pattern (DispatchPlan.armOf v)) := by
  have hh : Fits (Own Q) ("Self::" ++ identifier v.name) := h.name.1.path (by decide)
  have hslots : ∀ x ∈ slotNames (DispatchPlan.armOf v).params.length, Fits (Own Q) x :=
    length_params v ▸ fits_slotNames h.fields.slots
  unfold Dispatch.pattern
  split
  · exact hh
  · exact hh.link (.commaList hslots) (by decide) |>.close (by decide)
  · exact hh.link (.commaList hslots) (by decide) |>.close (by decide)
  · have hparams : ∀ p ∈ (DispatchPlan.armOf v).params, Fits (Own Q) (identifier p.name) :=
      Lists.forall_zipWith fun n hn _ _ => (h.fields.names n hn).own
    have hbindings := Fits.commaList (Lists.forall_zipWith fun p hp x hx =>
      (hparams p hp).link (a := [':', ' ']) (hslots x hx) (by decide))
    exact hh.link hbindings (by decide) |>.close (by decide)

theorem keeps_applyArm (h : VariantSuits Q v) :
    Keeps (Own Q) (Dispatch.applyArm (DispatchPlan.armOf v)) := by
  have hslots : ∀ x ∈ slotNames (DispatchPlan.armOf v).params.length, Fits (Own Q) x :=
    length_params v ▸ fits_slotNames h.fields.slots
  have hhandler : Fits (Own Q) (" => match handlers." ++ identifier v.handler) :=
    h.slot.1.path (by decide)
  have hcall : Fits (Own Q) ("Some(handler) => handler(" ++
      commaList (slotNames (DispatchPlan.armOf v).params.length) ++ "),") :=
    (Fits.commaList hslots).behind (by decide) |>.close (by decide)
  have hhead : Fits (Own Q) (Dispatch.pattern (DispatchPlan.armOf v) ++
      (" => match handlers." ++ identifier v.handler)) :=
    (fits_pattern h).then (String.toList_append ▸ Opens.append (by decide) _) hhandler
  refine .block_comma ?_ (.cons hcall (.own (by decide)))
  rw [@String.append_assoc _ " => match handlers."]
  exact hhead

theorem keeps_apply (hn : Fits (Own Q) (identifier e.name)) (hp : Fits (Own Q) e.handlersName)
    (he : ∀ v ∈ e.variants, VariantSuits Q v) : Keeps (Own Q) (Dispatch.apply (.ofEnum e)) := by
  have hdocs : Keeps (Own Q) ["/// Runs the handler registered for the held variant.", "///",
      "/// # Errors", "/// Returns the error reported by the invoked handler."] :=
    .skip (isRemark_text rfl) (.skip (isRemark_text rfl) (.skip (isRemark_text rfl)
      (.skip (isRemark_text rfl) .nil)))
  have hbody : Keeps (Own Q) (Dispatch.applyBody (.ofEnum e)) := by
    rw [Dispatch.applyBody]
    split
    · exact .own (by decide)
    · refine .block (.own (by decide)) (.flatMap ?_)
      simp only [DispatchPlan.ofEnum, List.forall_mem_map]
      exact fun v hv => keeps_applyArm (he v hv)
  refine .append (.block (hn.behind (by decide)) (hdocs.append (.block ?_ hbody))) .blank
  have hh : Fits (Own Q) (if (DispatchPlan.ofEnum e).arms.isEmpty then "_handlers" else
      "handlers") := by split <;> exact .own (by decide)
  exact hh.behind (by decide) |>.link hp (by decide) |>.close (by decide)

end Dispatch

/-- The names of a definition are words of `Q`, and so are the slots of its payloads. -/
def Worded (Q : String → Prop) : Resolved.Definition → Prop
  | .enum e => Spells Q (identifier e.name) ∧ Spells Q e.handlersName ∧
      ∀ v ∈ e.variants, VariantSuits Q v
  | .struct t => Spells Q (identifier t.name) ∧ Suits Q t.fields

theorem variantFits_of_worded {e : Resolved.Enum} (h : Worded Q (.enum e)) :
    ∀ v ∈ (EnumCodec.ofEnum e).variants, VariantFits Q v := by
  simp only [EnumCodec.ofEnum, List.forall_mem_map]
  exact fun v hv => ⟨(h.2.2 v hv).name.1, (h.2.2 v hv).fields.fitting v.shape⟩

theorem keeps_whole {d : Resolved.Definition} (h : Worded Q d) (c : Config) :
    Keeps (Own Q) (whole c d) := by
  cases d with
  | enum e =>
    have hcodec := variantFits_of_worded h
    obtain ⟨hn, hp, he⟩ := h
    refine ((keeps_enumType hn.own he).append ?_).append (keeps_enumCodec hn.own hcodec)
      |>.append ?_
    · split
      · exact keeps_constructors hn.own he
      · exact .nil
    · rw [handlers]
      split
      · exact ((keeps_handlersStruct hp.own he).append (keeps_handlersImpl hp.own he)).append
          (keeps_apply hn.own hp.own he)
      · exact .nil
  | struct t =>
    obtain ⟨hn, ht⟩ := h
    exact ((keeps_structType hn.own ht).append (keeps_record hn.own (ht.fitting t.shape))).append
      .nil

end TaggedSum.Emit
