import TaggedSum.Emit.Codec
import TaggedSum.Emit.Dispatch
import TaggedSum.Emit.Types
import TaggedSum.Proofs.Emit.Words
import TaggedSum.Proofs.Schema.Named

namespace TaggedSum.Emit

variable {c : Config}

theorem starts_pub (what name : String) : Starts ("pub " ++ what ++ name) :=
  Starts.append (Starts.append ⟨'p', _, rfl, by decide⟩ _) _

theorem isRemark_derives (c : Config) : ∀ l ∈ Types.derives c, isRemark l := by
  intro l hl
  rw [Types.derives] at hl
  split at hl
  · cases hl
  · rw [List.mem_singleton.mp hl]
    simp [isRemark, String.toList_append]

theorem isRemark_handlersDocs (p : DispatchPlan) :
    ∀ l ∈ ["/// Handlers for the variants of [`" ++ identifier p.enum ++ "`].", "///",
      "/// Variants without a handler yield `R::default()`."], isRemark l := by
  simp [isRemark, String.toList_append]

/-- The first line of code is the head and a text behind it that does not go on with its last
word. -/
def OpensWith (head : String) (ls : List String) : Prop :=
  ∃ back d cs, back.toList = d :: cs ∧ inWord d = false ∧ opening ls = [head ++ back]

namespace OpensWith

variable {head : String} {ls : List String}

theorem cons {back : String} {d : Char} {cs : List Char} (hs : Starts head)
    (hb : back.toList = d :: cs) (hd : inWord d = false) (ls : List String) :
    OpensWith head ((head ++ back) :: ls) :=
  ⟨back, d, cs, hb, hd, opening_cons (hs.append back).isRemark ls⟩

theorem behind {remarks : List String} (hr : ∀ l ∈ remarks, isRemark l) (h : OpensWith head ls) :
    OpensWith head (remarks ++ ls) := by
  rwa [OpensWith, opening_append hr]

theorem under {l : String} (hl : isRemark l) (h : OpensWith head ls) : OpensWith head (l :: ls) :=
  behind (List.forall_mem_singleton.mpr hl) h

theorem append (h : OpensWith head ls) (ms : List String) : OpensWith head (ls ++ ms) := by
  obtain ⟨back, d, cs, hb, hd, ho⟩ := h
  refine ⟨back, d, cs, hb, hd, ?_⟩
  have hne : code ls ≠ [] := by
    intro h
    rw [opening, h] at ho
    cases ho
  have hlen : 1 - (code ls).length = 0 :=
    Nat.sub_eq_zero_of_le (List.length_pos_of_ne_nil hne)
  rw [opening, code, List.filter_append, ← code, List.take_append, hlen, List.take_zero,
    List.append_nil, ← opening, ho]

theorem block (hs : Starts head) (body : List String) : OpensWith head (Emit.block head body) :=
  cons hs rfl (by decide) _

theorem positional (hs : Starts head) (visibility close : String) (fields : List Field) :
    OpensWith head (Types.positional c head visibility close fields) := by
  unfold Types.positional
  split
  · exact cons hs rfl (by decide) _
  · rw [String.append_assoc, String.append_assoc, String.append_assoc]
    exact cons hs (String.toList_append ..) (by decide) _

theorem enum (e : Resolved.Enum) :
    OpensWith ("pub enum " ++ identifier e.name) (Types.definition c (.enum e)) := by
  rw [Types.definition, Types.enum, List.append_assoc (c.docLines e.docs)]
  exact append (append (behind (isRemark_docLines c e.docs) (behind (isRemark_derives c)
    (block (starts_pub "enum " _) _))) _) _

theorem struct (t : Resolved.Struct) :
    OpensWith ("pub struct " ++ identifier t.name) (Types.definition c (.struct t)) := by
  have hs : Starts ("pub struct " ++ identifier t.name) := starts_pub "struct " _
  rw [Types.definition, Types.struct, List.append_assoc, List.append_assoc]
  refine behind (isRemark_docLines c t.docs) (behind (isRemark_derives c) (append ?_ _))
  split
  · exact cons hs rfl (by decide) _
  · exact positional hs _ _ _
  · exact positional hs _ _ _
  · exact block hs _

theorem variant {v : Resolved.Variant} (hn : Text.Continues v.name) :
    OpensWith (identifier v.name) (Types.variant c v) := by
  have hs := starts_identifier hn
  refine behind (isRemark_docLines c v.docs) ?_
  split
  · exact cons hs rfl (by decide) _
  · exact positional hs _ _ _
  · exact positional hs _ _ _
  · rw [Emit.block, closedBy_concat]
    exact cons hs rfl (by decide) _

theorem codec (r : Resolved.Definition) :
    OpensWith ("impl " ++ identifier r.name) (Codec.definition c (.ofDefinition r)) := by
  have hs : Starts ("impl " ++ identifier r.name) := Starts.append ⟨'i', _, rfl, by decide⟩ _
  cases r with
  | enum e => exact append (block hs _) _
  | struct t => exact append (block hs _) _

theorem handlersStruct (p : DispatchPlan) :
    OpensWith ("pub struct " ++ p.handlers) (Dispatch.handlersStruct c p) := by
  refine append (behind (isRemark_ite (isRemark_handlersDocs p)) (under (by decide) ?_)) _
  rw [Emit.block, @String.append_assoc _ "<'h, R, E>"]
  exact cons (starts_pub "struct " _) rfl (by decide) _

end OpensWith

theorem opening_constructorLines (v : Resolved.Variant) : opening (Types.constructorLines v) =
    ["pub fn " ++ Types.constructorName v ++ "(" ++ commaList (Types.params v.fields) ++
      ") -> Self \x7b"] := by
  have hs : Starts ("pub fn " ++ Types.constructorName v) := starts_pub "fn " _
  have hremarks : ∀ l ∈ ["/// Creates a `" ++ v.name ++ "` value.", "#[must_use]"], isRemark l := by
    simp [isRemark, String.toList_append]
  rw [Types.constructorLines, opening_append hremarks, block, @String.append_assoc _ ") -> Self",
    List.cons_append]
  exact opening_cons (((hs.append _).append _).append _).isRemark _

theorem opening_setterLines (a : DispatchArm) : opening (Dispatch.setterLines c a) =
    ["pub fn " ++ a.setter ++ "(mut self, handler: impl FnOnce(" ++ Dispatch.borrowed a ++
      ") -> Result<R, E> + 'h) -> Self \x7b"] := by
  have hs : Starts ("pub fn " ++ a.setter) := starts_pub "fn " _
  rw [Dispatch.setterLines, opening_append (isRemark_ite (by simp [isRemark, String.toList_append])),
    opening_remark (by decide), block, @String.append_assoc _ ") -> Result<R, E> + 'h) -> Self",
    List.cons_append]
  exact opening_cons (((hs.append _).append _).append _).isRemark _

theorem OpensWith.name {front w : String} {ls : List String} {index : Nat}
    (h : OpensWith (front ++ w) ls) (hi : (wordsFrom [] front.toList).length = index)
    (hf : Ended front.toList) (hw : IsWord w) :
    readCode (wordAt index) (opening ls) = [w] := by
  obtain ⟨back, d, cs, hb, hd, ho⟩ := h
  rw [readCode_opening ho, String.append_assoc]
  exact wordAt_line hi hf hw hb hd

theorem name_definition {d : Resolved.Definition} (hn : Text.Continues d.name) :
    readCode (wordAt 2) (opening (Types.definition c d)) = [identifier d.name] := by
  have hw := isWord_identifier hn
  cases d with
  | enum e => exact (OpensWith.enum e).name (by decide) (by decide) hw
  | struct t => exact (OpensWith.struct t).name (by decide) (by decide) hw

theorem name_codec {r : Resolved.Definition} (hn : Text.Continues r.name) :
    readCode (wordAt 1) (opening (Codec.definition c (.ofDefinition r))) = [identifier r.name] :=
  (OpensWith.codec r).name (by decide) (by decide) (isWord_identifier hn)

theorem name_variant {v : Resolved.Variant} (hn : Text.Continues v.name) :
    readCode (wordAt 0) (opening (Types.variant c v)) = [identifier v.name] := by
  have h := OpensWith.variant (c := c) hn
  rw [← @String.empty_append (identifier v.name)] at h
  exact h.name (by decide) (by decide) (isWord_identifier hn)

theorem name_handlersStruct {p : DispatchPlan} (hp : IsWord p.handlers) :
    readCode (wordAt 2) (opening (Dispatch.handlersStruct c p)) = [p.handlers] :=
  (OpensWith.handlersStruct p).name (by decide) (by decide) hp

theorem name_setterLines {a : DispatchArm} (ha : Text.Continues a.handler) :
    readCode (wordAt 2) (opening (Dispatch.setterLines c a)) = [a.setter] := by
  have hw : IsWord a.setter := IsWord.append (by decide) (isWord_of_continues ha)
  rw [readCode_opening (opening_setterLines a)]
  simp only [String.append_assoc]
  exact wordAt_line (by decide) (by decide) hw (String.toList_append ..) (by decide)

theorem name_constructorLines {v : Resolved.Variant} (hv : Text.Continues v.handler) :
    readCode (wordAt 2) (opening (Types.constructorLines v)) = [Types.constructorName v] := by
  have hw : IsWord (Types.constructorName v) := IsWord.append (by decide) (isWord_of_continues hv)
  rw [readCode_opening (opening_constructorLines v)]
  simp only [String.append_assoc]
  exact wordAt_line (by decide) (by decide) hw (String.toList_append ..) (by decide)

section Fields

variable {fields : List Field}

theorem map_bindings (fields : List Field) (g : String → String) :
    ((Resolved.bindings fields).zip fields).flatMap (fun x => [g x.1]) =
      (Resolved.bindings fields).map g := by
  have hm : ((Resolved.bindings fields).zip fields).map Prod.fst = Resolved.bindings fields :=
    List.map_fst_zip (by simp [Resolved.bindings])
  rw [← List.map_eq_flatMap]
  exact List.map_map.symm.trans (congrArg (List.map g) hm)

theorem names_params (hb : ∀ n ∈ Resolved.bindings fields, Text.Continues n) :
    (Types.params fields).flatMap (fun p => wordAt 0 (words p)) =
      (Resolved.bindings fields).map identifier := by
  rw [Types.params, List.flatMap_map, ← map_bindings]
  refine List.flatMap_congr fun ⟨n, f⟩ hx => ?_
  have hw := isWord_identifier (hb n (List.of_mem_zip hx).1)
  simp only
  rw [String.append_assoc, ← @String.empty_append (identifier n ++ _)]
  exact wordAt_line (by decide) (by decide) hw (String.toList_append ..) (by decide)

theorem names_named {visibility : String} {index : Nat}
    (hb : ∀ n ∈ Resolved.bindings fields, Text.Continues n)
    (hv : (visibility = "" ∧ index = 0) ∨ (visibility = "pub " ∧ index = 1)) :
    readCode (wordAt index) (Types.named c visibility fields) =
      (Resolved.bindings fields).map identifier := by
  rw [Types.named, readCode_flatMap, ← map_bindings]
  refine List.flatMap_congr fun ⟨n, f⟩ hx => ?_
  have hn := hb n (List.of_mem_zip hx).1
  have hs : Starts (visibility ++ (identifier n ++ (": " ++ typeName f.type ++ ","))) := by
    rcases hv with ⟨rfl, -⟩ | ⟨rfl, -⟩
    · rw [String.empty_append]
      exact (starts_identifier hn).append _
    · exact Starts.append ⟨'p', _, rfl, by decide⟩ _
  have hfront : (wordsFrom [] visibility.toList).length = index ∧ Ended visibility.toList := by
    rcases hv with ⟨rfl, rfl⟩ | ⟨rfl, rfl⟩ <;> decide
  simp only [String.append_assoc] at hs ⊢
  rw [readCode_append, readCode_remarks _ (isRemark_docLines c f.docs), List.nil_append,
    readCode_line _ hs.isRemark]
  exact wordAt_line hfront.1 hfront.2 (isWord_identifier hn) (String.toList_append ..) (by decide)

/-- The lines of a handler set are its head, its slots and the marker behind them. -/
theorem readCode_handlersStruct {read : List (String × Char) → List String} (hr : read [] = [])
    (p : DispatchPlan) : readCode read (Dispatch.handlersStruct c p) =
      readCode read ["pub struct " ++ p.handlers ++ "<'h, R, E>" ++ " \x7b"] ++
        (p.arms.flatMap (fun a => readCode read [identifier a.handler ++
          ": Option<Box<dyn FnOnce(" ++ Dispatch.borrowed a ++ ") -> Result<R, E> + 'h>>,"]) ++
        readCode read ["_marker: std::marker::PhantomData<(&'h (), fn() -> (R, E))>,"]) := by
  have hempty : readCode read [""] = [] := readCode_eq_nil read hr
  have hattribute : isRemark "#[allow(clippy::type_complexity)]" := by decide
  rw [Dispatch.handlersStruct, readCode_append, readCode_append, hempty, List.append_nil,
    readCode_remarks _ (isRemark_ite (isRemark_handlersDocs p)), readCode_cons,
    readCode_remarks _ (List.forall_mem_singleton.mpr hattribute), readCode_block hr,
    readCode_append, readCode_map, List.nil_append, List.nil_append]

theorem names_handlersStruct {p : DispatchPlan} (ha : ∀ a ∈ p.arms, Text.Continues a.handler) :
    readCode (wordAt 0) (Dispatch.handlersStruct c p) =
      "pub" :: ((p.arms.map (·.handler)).map identifier ++ ["_marker"]) := by
  have hhead : readCode (wordAt 0) ["pub struct " ++ p.handlers ++ "<'h, R, E>" ++ " \x7b"] =
      ["pub"] := by
    have hs : Starts ("pub struct " ++ p.handlers) := starts_pub "struct " _
    have hpub : "pub struct " = "" ++ ("pub" ++ " struct ") := rfl
    rw [readCode_line _ ((hs.append _).append _).isRemark, hpub]
    simp only [String.append_assoc]
    exact wordAt_line (by decide) (by decide) (by decide) (String.toList_append ..) (by decide)
  have hslots : p.arms.flatMap (fun a => readCode (wordAt 0) [identifier a.handler ++
      ": Option<Box<dyn FnOnce(" ++ Dispatch.borrowed a ++ ") -> Result<R, E> + 'h>>,"]) =
        (p.arms.map (·.handler)).map identifier := by
    rw [List.map_map, List.map_eq_flatMap]
    refine List.flatMap_congr fun a hm => ?_
    have hs := starts_identifier (ha a hm)
    rw [readCode_line _ (((hs.append _).append _).append _).isRemark,
      ← @String.empty_append (identifier a.handler)]
    simp only [String.append_assoc]
    exact wordAt_line (by decide) (by decide) (isWord_identifier (ha a hm))
      (String.toList_append ..) (by decide)
  have hmarker : readCode (wordAt 0)
      ["_marker: std::marker::PhantomData<(&'h (), fn() -> (R, E))>,"] = ["_marker"] := by decide
  rw [readCode_handlersStruct rfl, hhead, hslots, hmarker]
  rfl

end Fields

end TaggedSum.Emit
