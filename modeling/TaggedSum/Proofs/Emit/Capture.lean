import TaggedSum.Proofs.Emit.Wording

namespace TaggedSum

def FieldType.renamed (r : String → String) : FieldType → FieldType
  | reference name => reference (r name)
  | seq item => seq (item.renamed r)
  | map entry => map (entry.renamed r)
  | t => t

def Field.renamed (r : String → String) (f : Field) : Field := { f with type := f.type.renamed r }

namespace Resolved

def Variant.renamed (r : String → String) (v : Variant) : Variant :=
  { v with fields := v.fields.map (Field.renamed r) }

/-- The definition with definitions under other names; variants and fields keep theirs. -/
def Definition.renamed (r : String → String) : Definition → Definition
  | enum e => enum ⟨r e.name, e.docs, e.variants.map (Variant.renamed r)⟩
  | struct t => struct ⟨r t.name, t.docs, t.shape, t.fields.map (Field.renamed r)⟩

/-- All definitions are called by a number, which is no word. -/
def Definition.anonymous (d : Definition) : Definition := d.renamed fun _ => "0"

end Resolved

theorem FieldType.reference?_renamed (r : String → String) (t : FieldType) :
    (t.renamed r).reference? = t.reference?.map r := by
  induction t with
  | seq t ih => exact ih
  | map t ih => exact ih
  | _ => rfl

theorem FieldType.renamed_id (t : FieldType) : t.renamed id = t := by
  induction t with
  | seq t ih => exact congrArg seq ih
  | map t ih => exact congrArg map ih
  | _ => rfl

theorem Field.renamed_id : Field.renamed id = id :=
  funext fun f => congrArg (fun t => Field.mk f.name t f.docs) f.type.renamed_id

theorem Resolved.Variant.renamed_id : Variant.renamed id = id := by
  funext v
  rw [Variant.renamed, Field.renamed_id, List.map_id]
  rfl

theorem Resolved.Definition.renamed_id (d : Definition) : d.renamed id = d := by
  cases d with
  | enum e => rw [renamed, Variant.renamed_id, List.map_id]; rfl
  | struct t => rw [renamed, Field.renamed_id, List.map_id]; rfl

namespace Emit

/-- The identifiers of the fields that have names. -/
def fieldNames (fields : List Field) : List String := (fields.filterMap (·.name)).map identifier

/-- The slots to which the payloads of a definition are bound. -/
def slots : Resolved.Definition → List String
  | .enum e => e.variants.flatMap fun v => slotNames v.fields.length
  | .struct t => slotNames t.fields.length

/-- What stands within the types of a definition: variants, slots for handlers and functions, or the
fields of a struct. -/
def members : Resolved.Definition → List String
  | .enum e => e.variants.flatMap fun v =>
    [identifier v.name, identifier v.handler, Types.constructorName v, "on_" ++ v.handler]
  | .struct t => fieldNames t.fields

def payloadNames : Resolved.Definition → List String
  | .enum e => e.variants.flatMap fun v => fieldNames v.fields
  | .struct _ => []

/-- The parameters of constructor functions that are called like fields. -/
def params (c : Config) (d : Resolved.Definition) : List String :=
  if c.constructors then payloadNames d else []

/-- What is declared, and is no parameter. -/
def declared (c : Config) (d : Resolved.Definition) : List String :=
  members d ++ if c.constructors then [] else payloadNames d

/-- The types that a definition mentions: its own, and those that its fields refer to. -/
def mentions (d : Resolved.Definition) : List String :=
  identifier d.name :: (d.enum?.map Resolved.Enum.handlersName).toList ++
    (d.fields.filterMap (·.type.reference?)).flatMap fun n => [n, identifier n]

section Words

variable {Q : String → Prop} {r : String → String} {shape : Shape} {fields : List Field}
  {ir : Resolved.Schema} {d : Resolved.Definition} {c : Config}

theorem toList_slotName (i : Nat) : (slotName i).toList = 'f' :: Nat.toDigits 10 i := by
  rw [slotName, String.toList_append]
  exact congrArg ('f' :: ·) Nat.toList_repr

theorem identifier_slotName (i : Nat) : identifier (slotName i) = slotName i := by
  have hdigit : (slotName i).toList.any Char.isDigit := by
    obtain ⟨c, cs, hc⟩ := List.exists_cons_of_ne_nil (Nat.toDigits_ne_nil (n := i) (b := 10))
    have hm : c ∈ Nat.toDigits 10 i := hc ▸ List.mem_cons_self
    rw [toList_slotName, List.any_eq_true]
    exact ⟨c, List.mem_cons_of_mem _ hm, Nat.isDigit_of_mem_toDigits (by decide) (by decide) hm⟩
  have hp : ∀ k ∈ pathKeywords, k.toList.any Char.isDigit = false := by decide
  have hk : ∀ k ∈ keywords, k.toList.any Char.isDigit = false := by decide
  refine identifier_plain (fun hm => ?_) (fun hm => ?_)
  · rw [hp _ hm] at hdigit
    cases hdigit
  · rw [hk _ hm] at hdigit
    cases hdigit

/-- A field is bound to its name or to its slot. -/
theorem mem_bindings {n : String} (h : n ∈ Resolved.bindings fields) :
    (∃ i < fields.length, n = slotName i) ∨ n ∈ fields.filterMap (·.name) := by
  obtain ⟨⟨f, i⟩, hm, rfl⟩ := List.mem_map.mp h
  cases hn : f.name with
  | none => exact .inl ⟨i, (List.mem_zipIdx' hm).1, by simp [hn, slotName]⟩
  | some n =>
    refine .inr (List.mem_filterMap.mpr ⟨f, List.fst_mem_of_mem_zipIdx hm, ?_⟩)
    simp [hn]

theorem suits_of_bound (hb : Resolved.Bound shape fields)
    (hs : ∀ x ∈ slotNames fields.length, Q x) (hn : ∀ x ∈ fieldNames fields, Q x)
    (ht : ∀ f ∈ fields, ∀ n, f.type.reference? = some n →
      Spells Q (r n) ∧ Spells Q (identifier (r n))) : Suits Q (fields.map (Field.renamed r)) := by
  have hbindings : Resolved.bindings (fields.map (Field.renamed r)) = Resolved.bindings fields := by
    simp only [Resolved.bindings, List.zipIdx_map, List.map_map]
    rfl
  constructor
  · intro f hf n hr
    obtain ⟨g, hg, rfl⟩ := List.mem_map.mp hf
    obtain ⟨m, hm, rfl⟩ := Option.map_eq_some_iff.mp
      ((g.type.reference?_renamed r).symm.trans hr)
    exact ht g hg m hm
  · rw [hbindings]
    intro n hm
    refine (isWord_identifier (hb.continues n hm)).spells ?_
    rcases mem_bindings hm with ⟨i, hi, rfl⟩ | hm
    · exact (identifier_slotName i).symm ▸ hs _ (mem_slotNames hi)
    · exact hn _ (List.mem_map_of_mem hm)
  · rw [List.length_map]
    exact fun i hi => hs _ (mem_slotNames hi)

/-- The code of a definition under any name has words of the definition and of the names. -/
theorem worded_renamed (h : ir.Named) (hd : d ∈ ir.definitions)
    (hQ : ∀ x ∈ slots d ++ members d ++ payloadNames d, Q x)
    (hname : Spells Q (identifier (r d.name)))
    (hset : ∀ e ∈ d.enum?, Spells Q (r e.name ++ "Handlers"))
    (ht : ∀ f ∈ d.fields, ∀ n, f.type.reference? = some n →
      Spells Q (r n) ∧ Spells Q (identifier (r n))) : Worded Q (d.renamed r) := by
  simp only [List.forall_mem_append] at hQ
  obtain ⟨⟨hs, hm⟩, hp⟩ := hQ
  cases d with
  | enum e =>
    have he := h.enums e (Resolved.Schema.mem_enums.mpr hd)
    refine ⟨hname, hset e rfl, List.forall_mem_map.mpr fun v hv => ?_⟩
    have hword := isWord_of_continues (he.continues_handler hv)
    have hin : ∀ x ∈ [identifier v.name, identifier v.handler, Types.constructorName v,
        "on_" ++ v.handler], Q x := fun x hx => hm x (List.mem_flatMap.mpr ⟨v, hv, hx⟩)
    simp only [List.forall_mem_cons] at hin
    obtain ⟨hq, hslot, hnew, hon, -⟩ := hin
    refine ⟨(isWord_identifier (he.continues hv)).spells hq,
      (isWord_identifier (he.continues_handler hv)).spells hslot,
      (IsWord.append (by decide) hword).spells hnew,
      (IsWord.append (by decide) hword).spells hon, suits_of_bound (he.bound v hv) ?_ ?_ ?_⟩
    · exact fun x hx => hs x (List.mem_flatMap.mpr ⟨v, hv, hx⟩)
    · exact fun x hx => hp x (List.mem_flatMap.mpr ⟨v, hv, hx⟩)
    · exact fun f hf => ht f (List.mem_flatMap.mpr ⟨v, hv, hf⟩)
  | struct t =>
    have hb := h.structs t (Resolved.Schema.mem_structs.mpr hd)
    exact ⟨hname, suits_of_bound hb hs hm ht⟩

theorem worded (h : ir.Named) (hd : d ∈ ir.definitions) :
    Worded (· ∈ slots d ++ members d ++ payloadNames d ++ mentions d) d := by
  have hword : ∀ n ∈ ir.names, IsWord n ∧ IsWord (identifier n) := fun n hn =>
    ⟨isWord_of_continues (h.continues n hn), isWord_identifier (h.continues n hn)⟩
  have hm : ∀ x ∈ mentions d, x ∈ slots d ++ members d ++ payloadNames d ++ mentions d :=
    fun x hx => List.mem_append_right _ hx
  have hname := hword d.name (List.mem_map_of_mem hd)
  rw [← d.renamed_id]
  refine worded_renamed h hd ?_ ?_ ?_ ?_
  · rw [d.renamed_id]
    exact fun x hx => List.mem_append_left _ hx
  · rw [d.renamed_id]
    exact hname.2.spells (hm _ List.mem_cons_self)
  · intro e he
    have hset : e.handlersName ∈ mentions d :=
      List.mem_cons_of_mem _ (List.mem_append_left _ (by simp [Option.mem_def.mp he]))
    have hen : e.name = d.name := by
      cases d with
      | enum x => rw [← Option.some.inj he]; rfl
      | struct t => cases he
    rw [d.renamed_id]
    exact (IsWord.append (hen ▸ hname.1) (by decide)).spells (hm _ hset)
  · intro f hf n hn
    have hin : ∀ x ∈ [n, identifier n], x ∈ mentions d := fun x hx =>
      List.mem_cons_of_mem _ (List.mem_append_right _ (List.mem_flatMap.mpr
        ⟨n, List.mem_filterMap.mpr ⟨f, hf, hn⟩, hx⟩))
    obtain ⟨hn, hi⟩ := hword n (h.references d hd f hf n hn)
    rw [d.renamed_id]
    exact ⟨hn.spells (hm _ (hin _ (by simp))), hi.spells (hm _ (hin _ (by simp)))⟩

theorem worded_anonymous (h : ir.Named) (hd : d ∈ ir.definitions) :
    Worded (· ∈ slots d ++ members d ++ payloadNames d) d.anonymous := by
  have hnumber : ∀ {s : String}, IsWord s → s.toList.head?.any Char.isDigit →
      Spells (· ∈ slots d ++ members d ++ payloadNames d) s := by
    intro s hs hd
    refine ⟨hs, fun hn => ?_⟩
    rw [hd] at hn
    cases hn
  refine worded_renamed h hd (fun x hx => hx) (hnumber (by decide) (by decide))
    (fun e _ => hnumber (by decide) (by decide)) (fun f _ n _ => ?_)
  exact ⟨hnumber (by decide) (by decide), hnumber (by decide) (by decide)⟩

theorem members_append (d : Resolved.Definition) :
    ∀ x ∈ members d ++ payloadNames d, x ∈ params c d ++ declared c d := by
  intro x hx
  by_cases hc : c.constructors <;> simpa [params, declared, hc, or_comm] using hx

end Words

section Header

/-- The names that the header takes from the runtime path. -/
def runtimeNames (c : Config) : List String :=
  (unqualifiedFrom .start (c.runtimePath ++ "::").toList).map .ofList

variable {c : Config}

theorem after_path (path : String) : Mode.start.after (path ++ "::").toList = .code true [] ∨
    Mode.start.after (path ++ "::").toList = .literal := by
  have hpath : (path ++ "::").toList = path.toList ++ [':', ':'] := String.toList_append
  rw [hpath, Mode.after_append]
  cases Mode.start.after path.toList with
  | code => exact .inl rfl
  | literal => exact .inr rfl
  | escape => exact .inr rfl

theorem keeps_use {P : String → Prop} {rest : String} (huse : P "use")
    (hpath : ∀ x ∈ runtimeNames c, P x)
    (hrest : ∀ m ∈ [Mode.code true [], .literal],
      ∀ x ∈ unqualifiedFrom m (rest.toList ++ ['\n']), P (.ofList x)) :
    Keeps P ["use " ++ c.runtimePath ++ ("::" ++ rest)] := by
  have hremark : isRemark ("use " ++ c.runtimePath ++ ("::" ++ rest)) = false :=
    (Starts.append (Starts.append ⟨'u', _, rfl, by decide⟩ _) _).isRemark
  have hl : ("use " ++ c.runtimePath ++ ("::" ++ rest)).toList =
      "use ".toList ++ ((c.runtimePath ++ "::").toList ++ rest.toList) := by
    simp only [String.toList_append, List.append_assoc]
  have hread : ∀ cs, unqualifiedFrom .start ("use ".toList ++ cs) =
      ['u', 's', 'e'] :: unqualifiedFrom .start cs := fun cs => rfl
  rw [Keeps, unqualified_line hremark, hl, List.append_assoc, hread, List.append_assoc,
    unqualifiedFrom_append, List.forall_mem_map]
  intro x hx
  rcases List.mem_cons.mp hx with rfl | hx
  · exact huse
  · rcases List.mem_append.mp hx with hx | hx
    · exact hpath _ (List.mem_map_of_mem hx)
    · -- the path may leave the reader within a text literal
      refine hrest _ ?_ x hx
      rcases after_path c.runtimePath with hm | hm <;> rw [hm]
      · exact List.mem_cons_self
      · exact List.mem_cons_of_mem _ List.mem_cons_self

theorem keeps_header (c : Config) (package : String) :
    Keeps (· ∈ grammar ++ Schema.reservedNames ++ runtimeNames c) (header c package) := by
  have hown : ∀ x ∈ grammar ++ Schema.reservedNames,
      x ∈ grammar ++ Schema.reservedNames ++ runtimeNames c := fun x => List.mem_append_left _
  have hread : ∀ rest ∈ ["wire::\x7bself, Json, Map\x7d;",
      "\x7bDecodeError, DecodeResult, FieldLocation\x7d;"],
      ∀ m ∈ [Mode.code true [], .literal], ∀ x ∈ unqualifiedFrom m (rest.toList ++ ['\n']),
        .ofList x ∈ grammar ++ Schema.reservedNames := by decide
  have huse : ∀ rest ∈ ["wire::\x7bself, Json, Map\x7d;",
      "\x7bDecodeError, DecodeResult, FieldLocation\x7d;"],
      Keeps (· ∈ grammar ++ Schema.reservedNames ++ runtimeNames c)
        ["use " ++ c.runtimePath ++ ("::" ++ rest)] := fun rest hr =>
    keeps_use (hown _ (by decide)) (fun x => List.mem_append_right _)
      fun m hm x hx => hown _ (hread rest hr m hm x hx)
  have hallow : Keeps (· ∈ grammar ++ Schema.reservedNames ++ runtimeNames c)
      ["#[allow(unused_imports)]"] := .skip (isRemark_text rfl) .nil
  have hpackage : Keeps (· ∈ grammar ++ Schema.reservedNames ++ runtimeNames c)
      ["// Generated by sumgen from package '" ++ package ++ "'. Do not edit."] :=
    .skip (isRemark_append (isRemark_append (isRemark_text rfl) _) _) .nil
  have hwire : "::wire::\x7bself, Json, Map\x7d;" =
      "::" ++ "wire::\x7bself, Json, Map\x7d;" := by decide
  have herror : "::\x7bDecodeError, DecodeResult, FieldLocation\x7d;" =
      "::" ++ "\x7bDecodeError, DecodeResult, FieldLocation\x7d;" := by decide
  rw [header, hwire, herror]
  exact hpackage.append .blank |>.append hallow |>.append (huse _ List.mem_cons_self)
    |>.append hallow |>.append (huse _ (List.mem_cons_of_mem _ List.mem_cons_self))
    |>.append .blank

theorem toList_path (first : String) (segments : List String) :
    (String.intercalate "::" (first :: segments) ++ "::").toList =
      (first :: segments).flatMap fun w => w.toList ++ [':', ':'] := by
  have hsep : "::".toList = [':', ':'] := rfl
  induction segments generalizing first with
  | nil => simp [hsep]
  | cons w ws ih =>
    rw [String.intercalate_cons_cons, String.append_assoc, String.append_assoc,
      String.toList_append, String.toList_append, ih, hsep, ← List.append_assoc]
    rfl

/-- Of a path, the header names the first segment. -/
theorem runtimeNames_eq {first : String} {segments : List String}
    (hp : c.runtimePath = String.intercalate "::" (first :: segments))
    (hs : ∀ w ∈ first :: segments, IsWord w) (hd : first.toList.head?.any Char.isDigit = false) :
    runtimeNames c = [first] := by
  have hrest : ∀ ws : List String, (∀ w ∈ ws, IsWord w) → unqualifiedFrom (.code true [])
      (ws.flatMap fun w => w.toList ++ [':', ':']) = [] := by
    intro ws hws
    induction ws with
    | nil => rfl
    | cons w ws ih =>
      obtain ⟨hw, hws⟩ := List.forall_mem_cons.mp hws
      obtain ⟨ha, hu⟩ := after_word hw.2 true []
      rw [List.flatMap_cons, List.append_assoc, unqualifiedFrom_append, hu, ha]
      exact ih hws
  obtain ⟨hfirst, hs⟩ := List.forall_mem_cons.mp hs
  obtain ⟨ha, hu⟩ := after_word hfirst.2 false []
  have hends : inWord ':' = false := by decide
  rw [runtimeNames, hp, toList_path, List.flatMap_cons, List.append_assoc, Mode.start,
    unqualifiedFrom_append, hu, ha]
  have hended : Mode.ended (.code false first.toList) ':' = [first.toList] := by
    simp [Mode.ended, hends, hfirst.1, hd]
  have hread : unqualifiedFrom (.code false first.toList)
      ([':', ':'] ++ segments.flatMap fun w => w.toList ++ [':', ':']) = [first.toList] :=
    congrArg₂ (· ++ ·) hended (hrest segments hs)
  rw [List.nil_append, List.nil_append, hread, List.map_singleton, String.ofList_toList]

end Header

section Slots

variable {x : String} {a b : List Char} {y d : Char}

/-- The word stands in a text, behind a blank or a bracket and in no text literal. -/
def Stands (x : String) (cs : List Char) : Prop :=
  ∃ a y d b, cs = a ++ y :: (x.toList ++ d :: b) ∧ '"' ∉ a ∧ (y = ' ' ∨ y = '(') ∧
    inWord d = false ∧ d ≠ '!'

theorem Stands.append (h : Stands x a) (b : List Char) : Stands x (a ++ b) := by
  obtain ⟨a, y, d, b', rfl, hrest⟩ := h
  exact ⟨a, y, d, b' ++ b, by simp, hrest⟩

theorem Stands.prepend (h : Stands x a) (hb : '"' ∉ b) : Stands x (b ++ a) := by
  obtain ⟨a, y, d, b', rfl, ha, hrest⟩ := h
  exact ⟨b ++ a, y, d, b', by simp, by simp [hb, ha], hrest⟩

theorem exists_after_code (h : '"' ∉ a) (q : Bool) (w : List Char) :
    ∃ q' w', Mode.after (.code q w) a = .code q' w' := by
  induction a generalizing q w with
  | nil => exact ⟨q, w, rfl⟩
  | cons c a ih =>
    rw [List.mem_cons, not_or] at h
    have hstep : ∃ q' w', Mode.step (.code q w) c = .code q' w' := by
      simp only [Mode.step, Ne.symm h.1, if_false]
      split
      · exact ⟨_, _, rfl⟩
      · exact ⟨_, _, rfl⟩
    obtain ⟨q', w', hs⟩ := hstep
    rw [Mode.after, List.foldl_cons, hs]
    exact ih h.2 q' w'

theorem Stands.mem_unqualified {l : String} (h : Stands x l.toList) (hx : IsWord x)
    (hdigit : x.toList.head?.any Char.isDigit = false) (hl : isRemark l = false) :
    x ∈ unqualified [l] := by
  obtain ⟨a, y, d, b, hs, ha, hy, hd, hbang⟩ := h
  obtain ⟨q, w, hm⟩ := exists_after_code ha false []
  have hstart : Mode.start.after (a ++ [y]) = .start := by
    rw [Mode.after_append, Mode.start, hm]
    rcases hy with rfl | rfl <;> rfl
  obtain ⟨hxa, hxu⟩ := after_word hx.2 false []
  have hended : Mode.ended (.code false x.toList) d = [x.toList] := by
    simp [Mode.ended, hd, hx.1, hdigit, hbang]
  have hline : l.toList ++ ['\n'] = (a ++ [y]) ++ (x.toList ++ d :: (b ++ ['\n'])) := by simp [hs]
  rw [unqualified_line hl, hline, unqualifiedFrom_append .start (a ++ [y]), hstart, Mode.start,
    unqualifiedFrom_append _ x.toList, hxu, hxa, List.nil_append, List.nil_append, unqualifiedFrom,
    hended]
  refine List.mem_map.mpr ⟨x.toList, ?_, String.ofList_toList⟩
  exact List.mem_append_right _ (List.mem_append_left _ (List.mem_singleton_self _))

theorem stands_commaList {xs : List String} (hm : x ∈ xs) (hq : ∀ z ∈ xs, '"' ∉ z.toList)
    (ha : '"' ∉ a) (hy : y = ' ' ∨ y = '(') (hd : inWord d = false) (hbang : d ≠ '!') :
    Stands x (a ++ y :: ((commaList xs).toList ++ d :: b)) := by
  induction xs generalizing a y with
  | nil => cases hm
  | cons z xs ih =>
    obtain ⟨hz, hq⟩ := List.forall_mem_cons.mp hq
    cases xs with
    | nil =>
      rw [List.mem_singleton.mp hm]
      exact ⟨a, y, d, b, by simp [commaList], ha, hy, hd, hbang⟩
    | cons z' xs =>
      have hlist : (commaList (z :: z' :: xs)).toList =
          z.toList ++ ',' :: ' ' :: (commaList (z' :: xs)).toList := by
        simp [commaList, String.intercalate_cons_cons]
      rw [hlist]
      rcases List.mem_cons.mp hm with rfl | hm
      · exact ⟨a, y, ',', ' ' :: ((commaList (z' :: xs)).toList ++ d :: b), by simp, ha, hy,
          by decide, by decide⟩
      · have hfront : '"' ∉ a ++ y :: (z.toList ++ [',']) := by
          rcases hy with rfl | rfl <;> simp [ha, hz]
        have h := ih hm hq hfront (.inl rfl)
        simpa using h

/-- A word behind a name and a colon -/
theorem Stands.behind {n : String} (h : Stands (n ++ ": " ++ x) a) (hn : '"' ∉ n.toList) :
    Stands x a := by
  obtain ⟨a, y, d, b, rfl, ha, hy, hrest⟩ := h
  have hsep : ": ".toList = [':', ' '] := rfl
  refine ⟨a ++ y :: (n.toList ++ [':']), ' ', d, b, by simp [hsep], ?_, .inl rfl, hrest⟩
  rcases hy with rfl | rfl <;> simp [ha, hn]

theorem IsWord.quote_not_mem {w : String} (h : IsWord w) : '"' ∉ w.toList := by
  intro hm
  have hq := h.2 _ hm
  revert hq
  decide

theorem stands_bindingPattern {head : String} {l : Layout} (hh : '"' ∉ head.toList)
    (hn : ∀ n ∈ l.names, IsWord (identifier n)) {i : Nat} (hi : i < l.types.length) :
    Stands (slotName i) (Codec.bindingPattern head (writePayload l)).toList := by
  have hslots : ∀ n, ∀ z ∈ slotNames n, '"' ∉ z.toList := by
    intro n z hz
    obtain ⟨i, -, rfl⟩ := List.mem_map.mp hz
    exact (isWord_slotName i).quote_not_mem
  cases l with
  | unit => cases hi
  | newtype t =>
    obtain rfl : i = 0 := Nat.lt_one_iff.mp hi
    exact ⟨head.toList, '(', ')', [], by simp [writePayload, Codec.bindingPattern], hh, .inr rfl,
      by decide, by decide⟩
  | tuple ts =>
    have h := stands_commaList (b := []) (d := ')') (mem_slotNames hi) (hslots _) hh (.inr rfl)
      (by decide) (by decide)
    simpa [writePayload, Codec.bindingPattern, Layout.types] using h
  | struct fields =>
    have hi : i < fields.length := by rwa [Layout.types, List.length_map] at hi
    have hfield : fields[i].fst ∈ fields.map Prod.fst := List.mem_map_of_mem (List.getElem_mem hi)
    -- behind the name of a field stands its slot
    have hz : identifier fields[i].fst ++ ": " ++ slotName i ∈ List.zipWith
        (fun name slot => identifier name ++ ": " ++ slot) (fields.map Prod.fst)
        (slotNames fields.length) := by
      refine List.mem_of_getElem? (i := i) ?_
      simp [slotNames, hi]
    have hq : ∀ z ∈ List.zipWith (fun name slot => identifier name ++ ": " ++ slot)
        (fields.map Prod.fst) (slotNames fields.length), '"' ∉ z.toList :=
      Lists.forall_zipWith fun n hm x hx => by
        simp [String.toList_append, (hn n hm).quote_not_mem, hslots _ x hx]
    have h := stands_commaList (a := head.toList ++ [' ', '\x7b']) (b := ['\x7d']) (d := ' ') hz hq
      (by simp [hh]) (.inl rfl) (by decide) (by decide)
    rw [bindingPattern_struct]
    simpa [Codec.braced] using h.behind (hn _ hfield).quote_not_mem

theorem mem_unqualified_of_mem {l : String} {ls : List String} (hl : l ∈ ls)
    (hx : x ∈ unqualified [l]) : x ∈ unqualified ls := by
  obtain ⟨front, back, rfl⟩ := List.append_of_mem hl
  rw [List.append_cons, unqualified_append, unqualified_append]
  exact List.mem_append_left _ (List.mem_append_right _ hx)

theorem mem_unqualified_block {head : String} {body : List String} (hx : x ∈ unqualified body) :
    x ∈ unqualified (block head body) := by
  rw [block, unqualified_append, ← List.singleton_append, unqualified_append, unqualified_indented]
  exact List.mem_append_left _ (List.mem_append_right _ hx)

variable {l : Layout} {i : Nat}

theorem slot_mem_line {line : String} (h : Stands (slotName i) line.toList) (hs : Starts line) :
    slotName i ∈ unqualified [line] := by
  have hdigit : (slotName i).toList.head?.any Char.isDigit = false := by
    rw [toList_slotName]
    rfl
  exact h.mem_unqualified (isWord_slotName i) hdigit hs.isRemark

theorem starts_bindingPattern {α : Type} {head : String} (h : Starts head) (p : Payload α) :
    Starts (Codec.bindingPattern head p) := by
  cases p with
  | unit => exact h
  | newtype => exact ((h.append _).append _).append _
  | tuple => exact ((h.append _).append _).append _
  | struct => exact (h.append _).append _

theorem slot_mem_writeArm {v : VariantCodec} (hv : IsWord (identifier v.name))
    (hn : ∀ n ∈ v.layout.names, IsWord (identifier n)) (hi : i < v.layout.types.length) :
    slotName i ∈ unqualified [Codec.writeArm (writeArm v)] := by
  have hstarts : Starts (writeArm v).head := Starts.append ⟨'S', _, rfl, by decide⟩ _
  have hhead : '"' ∉ (writeArm v).head.toList := by
    simp [Arm.head, writeArm, String.toList_append, hv.quote_not_mem]
  have h := stands_bindingPattern hhead hn hi
  rw [Codec.writeArm, String.append_assoc]
  refine slot_mem_line ?_ ((starts_bindingPattern hstarts _).append _)
  rw [String.toList_append]
  exact h.append _

theorem slot_mem_writeRecord (hn : ∀ n ∈ l.names, IsWord (identifier n))
    (hi : i < l.types.length) : slotName i ∈ unqualified (Codec.writeRecord (writePayload l)) := by
  have hself : '"' ∉ "Self".toList := by decide
  have h := (stands_bindingPattern hself hn hi).append " = self;".toList
  have hlet : '"' ∉ "let ".toList := by decide
  have hline : slotName i ∈ unqualified
      ["let " ++ Codec.bindingPattern "Self" (writePayload l) ++ " = self;"] := by
    refine slot_mem_line ?_ (Starts.append (Starts.append ⟨'l', _, rfl, by decide⟩ _) _)
    rw [String.append_assoc, String.toList_append, String.toList_append]
    exact h.prepend hlet
  cases l with
  | unit => cases hi
  | newtype => exact mem_unqualified_of_mem List.mem_cons_self hline
  | tuple => exact mem_unqualified_of_mem List.mem_cons_self hline
  | struct => exact mem_unqualified_of_mem List.mem_cons_self hline

theorem mem_unqualified_enum {type : String} {r : ChoiceReader} {w : ChoiceWriter}
    (hx : x ∈ unqualified (w.arms.map Codec.writeArm)) :
    x ∈ unqualified (Codec.enum type r w) := by
  have hmatch : x ∈ unqualified (Codec.matchSelf (w.arms.map Codec.writeArm)) := by
    rw [Codec.matchSelf]
    split
    · next he =>
      rw [List.isEmpty_iff.mp he] at hx
      cases hx
    · exact mem_unqualified_block hx
  rw [Codec.enum, unqualified_append]
  refine List.mem_append_left _ (mem_unqualified_block ?_)
  simp only [unqualified_append, List.mem_append]
  exact .inl (.inl (.inr (mem_unqualified_block hmatch)))

theorem mem_unqualified_record {type : String} {r : Payload ReadExpr} {w : Payload WriteExpr}
    (hx : x ∈ unqualified (Codec.writeRecord w)) : x ∈ unqualified (Codec.record type r w) := by
  rw [Codec.record, unqualified_append]
  refine List.mem_append_left _ (mem_unqualified_block ?_)
  simp only [unqualified_append, List.mem_append]
  exact .inl (.inl (.inl (.inr (mem_unqualified_block hx))))

end Slots

/-- The names that emitted code uses or binds and no check keeps from definitions. -/
def hazards (c : Config) (ir : Resolved.Schema) : List String :=
  runtimeNames c ++ locals ++ ir.definitions.flatMap fun d => slots d ++ params c d

/-- Whatever definitions are called, code uses the name of a type for what is declared within a
type at most, unless it is one of the hazards. Of the runtime path only the first segment is a
hazard, and the slots are bound indeed. -/
structure Uncaptured (c : Config) (ir : Resolved.Schema) : Prop where
  header : ∀ t ∈ typeScope ir, t ∉ hazards c ir → t ∉ unqualified (header c ir.package)
  code : ∀ t ∈ typeScope ir, t ∉ hazards c ir → ∀ d ∈ ir.definitions,
    t ∈ unqualified (whole c d.anonymous) → t ∈ items ++ declared c d
  words : ∀ d ∈ ir.definitions, ∀ w ∈ unqualified (whole c d),
    w ∈ ownWords ++ slots d ++ params c d ++ declared c d ++ mentions d
  path : ∀ first segments, c.runtimePath = String.intercalate "::" (first :: segments) →
    (∀ w ∈ first :: segments, IsWord w) → first.toList.head?.any Char.isDigit = false →
    runtimeNames c = [first]
  slots : ∀ d ∈ ir.definitions, ∀ w ∈ slots d, w ∈ unqualified (whole c d)

section Schema

variable {c : Config} {s : Schema} {ir : Resolved.Schema} {d : Resolved.Definition}

/-- No type has the name of a keyword, or a name that is reserved. -/
theorem unreserved_of_mem_typeScope (h : ir.Named) {t : String} (ht : t ∈ typeScope ir) :
    t ∉ grammar ++ Schema.reservedNames := by
  intro hm
  rcases List.mem_append.mp ht with ht | ht
  · obtain ⟨n, hn, rfl⟩ := List.mem_map.mp ht
    have hmark : ∀ w ∈ grammar ++ Schema.reservedNames, '#' ∉ w.toList := by decide
    have hword : ∀ w ∈ grammar, w ∈ pathKeywords ∨ w ∈ keywords ∨ Text.isIdentifier w = false := by
      decide
    rcases identifier_cases n with ⟨hp, -⟩ | ⟨-, hi⟩ | hi
    · have hpath : ∀ k ∈ pathKeywords, identifier k ∉ grammar ++ Schema.reservedNames := by
        decide
      exact hpath n hp hm
    · exact hmark _ hm (hi ▸ mark_mem_append n)
    · obtain ⟨hp, hk⟩ := identifier_eq_self_iff.mp hi
      rcases List.mem_append.mp (hi ▸ hm) with hm | hm
      · rcases hword n hm with hw | hw | hw
        · exact hp hw
        · exact hk hw
        · rw [h.identifiers n hn] at hw
          cases hw
      · exact h.unreserved n hn hm
  · obtain ⟨e, -, rfl⟩ := List.mem_map.mp ht
    have hset : ∀ w ∈ grammar ++ Schema.reservedNames, ¬"Handlers".toList <:+ w.toList := by
      decide
    refine hset _ hm ?_
    rw [Resolved.Enum.handlersName, String.toList_append]
    exact List.suffix_append _ _

theorem classify_of_ofSchema (h : Resolved.Schema.ofSchema s = .ok ir) :
    (∀ e ∈ ir.enums, ∀ v ∈ e.variants, classify v.name v.fields = .ok v.shape) ∧
      ∀ t ∈ ir.structs, classify t.name t.fields = .ok t.shape := by
  obtain ⟨-, ds, -, hds⟩ := Resolved.ofSchema_eq_ok h
  constructor
  · intro e he v hv
    obtain ⟨d, -, hd⟩ := Lists.exists_of_mem_right hds (Resolved.Schema.mem_enums.mp he)
    cases d with
    | enum x =>
      obtain ⟨vs, hvs, he⟩ := Resolved.ofDefinition_enum hd
      cases he
      obtain ⟨w, -, hshape, hr⟩ := Lists.exists_of_mem_right hvs hv
      rw [hr]
      exact hshape
    | struct x =>
      obtain ⟨shape, -, he⟩ := Resolved.ofDefinition_struct hd
      cases he
  · intro t ht
    obtain ⟨d, -, hd⟩ := Lists.exists_of_mem_right hds (Resolved.Schema.mem_structs.mp ht)
    cases d with
    | enum x =>
      obtain ⟨vs, -, he⟩ := Resolved.ofDefinition_enum hd
      cases he
    | struct x =>
      obtain ⟨shape, hshape, he⟩ := Resolved.ofDefinition_struct hd
      cases he
      exact hshape

theorem slots_bound (h : Resolved.Schema.ofSchema s = .ok ir) (hd : d ∈ ir.definitions) :
    ∀ w ∈ slots d, w ∈ unqualified (whole c d) := by
  have hn := Resolved.Schema.named_of_ofSchema h
  obtain ⟨henum, hstruct⟩ := classify_of_ofSchema h
  have hnames : ∀ {shape : Shape} {fields : List Field}, Resolved.Bound shape fields →
      ∀ n ∈ (Layout.ofFields shape fields).names, IsWord (identifier n) :=
    fun hb n hm => isWord_identifier (hb.continues n (names_ofFields_subset _ _ hm))
  have hcodec : ∀ w ∈ slots d, w ∈ unqualified (Codec.definition c (.ofDefinition d)) := by
    cases d with
    | enum e =>
      have he := Resolved.Schema.mem_enums.mpr hd
      intro w hw
      obtain ⟨v, hv, hw⟩ := List.mem_flatMap.mp hw
      obtain ⟨i, hi, rfl⟩ := List.mem_map.mp hw
      have hlen : (Layout.ofFields v.shape v.fields).types.length = v.fields.length := by
        rw [types_ofFields (henum e he v hv), List.length_map]
      have harm := slot_mem_writeArm (v := ⟨v.name, v.tag, .ofFields v.shape v.fields⟩)
        (isWord_identifier ((hn.enums e he).continues hv)) (hnames ((hn.enums e he).bound v hv))
        (hlen ▸ List.mem_range.mp hi)
      refine mem_unqualified_enum (mem_unqualified_of_mem (List.mem_map_of_mem ?_) harm)
      exact List.mem_map_of_mem (List.mem_map_of_mem hv)
    | struct t =>
      have ht := Resolved.Schema.mem_structs.mpr hd
      intro w hw
      obtain ⟨i, hi, rfl⟩ := List.mem_map.mp hw
      have hlen : (Layout.ofFields t.shape t.fields).types.length = t.fields.length := by
        rw [types_ofFields (hstruct t ht), List.length_map]
      exact mem_unqualified_record (slot_mem_writeRecord (hnames (hn.structs t ht))
        (hlen ▸ List.mem_range.mp hi))
  intro w hw
  rw [whole, unqualified_append, unqualified_append]
  exact List.mem_append_left _ (List.mem_append_right _ (hcodec w hw))

theorem uncaptured_of_ofSchema (h : Resolved.Schema.ofSchema s = .ok ir) (c : Config) :
    Uncaptured c ir := by
  have hn := Resolved.Schema.named_of_ofSchema h
  constructor
  · intro t ht hhaz hm
    rcases List.mem_append.mp (keeps_header c ir.package t hm) with hm | hm
    · exact unreserved_of_mem_typeScope hn ht hm
    · exact hhaz (List.mem_append_left _ (List.mem_append_left _ hm))
  · intro t ht hhaz d hd hm
    have hfree : t ∉ runtimeNames c ∧ t ∉ locals ∧ t ∉ Emit.slots d ∧ t ∉ params c d := by
      simp only [hazards, List.mem_append, List.mem_flatMap, not_or, not_exists, not_and] at hhaz
      exact ⟨hhaz.1.1, hhaz.1.2, hhaz.2 d hd⟩
    rcases keeps_whole (worded_anonymous hn hd) c t hm with hm | hm
    · rcases List.mem_append.mp hm with hm | hm
      · rcases List.mem_append.mp hm with hm | hm
        · exact absurd hm (unreserved_of_mem_typeScope hn ht)
        · exact absurd hm hfree.2.1
      · exact List.mem_append_left _ hm
    · rw [List.append_assoc] at hm
      rcases List.mem_append.mp hm with hm | hm
      · exact absurd hm hfree.2.2.1
      · rcases List.mem_append.mp (members_append d t hm) with hm | hm
        · exact absurd hm hfree.2.2.2
        · exact List.mem_append_right _ hm
  · intro d hd w hw
    rcases keeps_whole (worded hn hd) c w hw with hm | hm
    · simp [hm]
    · have hin : w ∈ members d ++ payloadNames d → w ∈ params c d ∨ w ∈ declared c d :=
        fun h => List.mem_append.mp (members_append d w h)
      simp only [List.mem_append] at hm hin ⊢
      rcases hm with ((hm | hm) | hm) | hm
      · simp [hm]
      · rcases hin (.inl hm) with h | h <;> simp [h]
      · rcases hin (.inr hm) with h | h <;> simp [h]
      · simp [hm]
  · exact fun first segments => runtimeNames_eq
  · exact fun d hd => slots_bound h hd

end Schema

namespace Caps

/-- A definition with the name of a slot, which no check refuses. -/
def schema : Schema :=
  ⟨"caps", none, [.struct ⟨"f0", none, []⟩,
    .struct ⟨"Wrap", none, [⟨none, .unsigned .w8, none⟩]⟩], 0⟩

def wrap : Resolved.Definition :=
  .struct ⟨"Wrap", none, .newtype, [⟨none, .unsigned .w8, none⟩]⟩

def resolved : Resolved.Schema := .ofDefinitions "caps" none [.struct ⟨"f0", none, .unit, []⟩, wrap]

theorem ofSchema_schema : Resolved.Schema.ofSchema schema = .ok resolved := by
  have hd : schema.dependencyOrder = .ok schema.definitions := by cbv
  exact Resolved.ofSchema_of_ordered (by decide) hd (by decide)

theorem wrap_mem : wrap ∈ resolved.definitions := by decide

end Caps

theorem uncaptured_caps : Resolved.Schema.ofSchema Caps.schema = .ok Caps.resolved ∧
    ∀ c, Uncaptured c Caps.resolved :=
  ⟨Caps.ofSchema_schema, uncaptured_of_ofSchema Caps.ofSchema_schema⟩

/-- What unpacks the wrapped value has the name of the other definition, which it does not
mention. -/
theorem captured_caps : Resolved.Schema.ofSchema Caps.schema = .ok Caps.resolved ∧
    Caps.wrap ∈ Caps.resolved.definitions ∧
    Codec.writeRecord (writePayload (.newtype (.unsigned .w8))) =
      ["let Self(f0) = self;", "Json::from(*f0)"] ∧
    ∃ t ∈ typeScope Caps.resolved, t ∉ mentions Caps.wrap ∧
      t ∈ unqualified (whole .standard Caps.wrap) :=
  ⟨Caps.ofSchema_schema, Caps.wrap_mem, by decide, "f0", by decide, by decide,
    slots_bound Caps.ofSchema_schema Caps.wrap_mem "f0" (by decide)⟩

end Emit

end TaggedSum
