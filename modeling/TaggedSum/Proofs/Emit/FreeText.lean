import TaggedSum.Proofs.Emit.Assembly
import TaggedSum.Proofs.Emit.Words
import TaggedSum.Proofs.Schema.FreeText

namespace TaggedSum.Emit

/-- A line whose first characters, white space apart, are two slashes. -/
def isComment (line : List Char) : Bool := ['/', '/'].isPrefixOf (Text.trimStart line)

/-- The lines of a text without those that are comments. -/
def codeOf (text : String) : List (List Char) :=
  (text.toList.splitOn '\n').filter (!isComment ·)

/-- What the header has of the package, and behind it, after the first line feed, as far as it is
not commented out again. -/
def strays (package : String) : List (List Char) :=
  ((package ++ "'. Do not edit.").toList.splitOn '\n').tail.filter (!isComment ·)

/-- The lines without those that are comments. A text with a line feed is no line. -/
def uncommented (ls : List String) : List String :=
  ls.filter fun l => !(isComment l.toList && !l.toList.contains '\n')

theorem splitOn_eq_singleton {sep : Char} {cs : List Char} (h : sep ∉ cs) :
    cs.splitOn sep = [cs] := by
  induction cs with
  | nil => rfl
  | cons c cs ih =>
    rw [List.mem_cons, not_or] at h
    have hi : cs.splitOnP (· == sep) = [cs] := ih h.2
    rw [List.splitOn, List.splitOnP_cons_eq_if_modifyHead, hi]
    simp [Ne.symm h.1]

/-- A text without the separator lengthens the first part. -/
theorem splitOn_append {sep : Char} {cs : List Char} (h : sep ∉ cs) (ds : List Char) :
    (cs ++ ds).splitOn sep = (ds.splitOn sep).modifyHead (cs ++ ·) := by
  induction cs with
  | nil => exact (congrFun List.modifyHead_id (ds.splitOn sep)).symm
  | cons c cs ih =>
    rw [List.mem_cons, not_or] at h
    have hi : (cs ++ ds).splitOnP (· == sep) = (ds.splitOnP (· == sep)).modifyHead (cs ++ ·) :=
      ih h.2
    rw [List.cons_append, List.splitOn, List.splitOnP_cons_eq_if_modifyHead, hi]
    simp [Ne.symm h.1, List.modifyHead_modifyHead, Function.comp_def, List.splitOn]

theorem splitOn_append_cons (sep : Char) (cs ds : List Char) :
    (cs ++ sep :: ds).splitOn sep = cs.splitOn sep ++ ds.splitOn sep :=
  List.splitOnP_append_cons cs ds (beq_self_eq_true sep)

theorem codeOf_append_line (a b : String) : codeOf (a ++ "\n" ++ b) = codeOf a ++ codeOf b := by
  have hn : (a ++ "\n" ++ b).toList = a.toList ++ '\n' :: b.toList := by
    simp [String.toList_append]
  rw [codeOf, hn, splitOn_append_cons, List.filter_append]
  rfl

/-- Each line counts for itself; behind the last line feed there is one more, which is empty. -/
theorem codeOf_joined (ls : List String) : codeOf (joined ls) = ls.flatMap codeOf ++ [[]] := by
  induction ls with
  | nil => rfl
  | cons l ls ih =>
    have hj : joined (l :: ls) = l ++ "\n" ++ joined ls := by
      rw [joined, List.map_cons, String.join_cons]
      rfl
    rw [hj, codeOf_append_line, ih, List.flatMap_cons, List.append_assoc]

theorem codeOf_comment {l : String} (hc : isComment l.toList) (hn : '\n' ∉ l.toList) :
    codeOf l = [] := by
  rw [codeOf, splitOn_eq_singleton hn]
  simp [hc]

theorem flatMap_codeOf_uncommented (ls : List String) :
    (uncommented ls).flatMap codeOf = ls.flatMap codeOf := by
  induction ls with
  | nil => rfl
  | cons l ls ih =>
    rw [uncommented, List.filter_cons, ← uncommented]
    split
    · rw [List.flatMap_cons, List.flatMap_cons, ih]
    · next h =>
      have hl : isComment l.toList ∧ '\n' ∉ l.toList := by simpa using h
      rw [List.flatMap_cons, codeOf_comment hl.1 hl.2, List.nil_append, ih]

section Uncommented

theorem uncommented_append (ls ms : List String) :
    uncommented (ls ++ ms) = uncommented ls ++ uncommented ms := List.filter_append ..

theorem uncommented_cons (l : String) (ls : List String) :
    uncommented (l :: ls) = uncommented [l] ++ uncommented ls := uncommented_append [l] ls

theorem uncommented_flatMap {α : Type} (f : α → List String) (as : List α) :
    uncommented (as.flatMap f) = as.flatMap fun a => uncommented (f a) := by
  induction as with
  | nil => rfl
  | cons a as ih => rw [List.flatMap_cons, uncommented_append, ih, List.flatMap_cons]

theorem isComment_tab (l : List Char) : isComment (tab.toList ++ l) = isComment l := rfl

theorem uncommented_indented (ls : List String) :
    uncommented (indented ls) = indented (uncommented ls) := by
  rw [uncommented, uncommented, indented, indented, List.filter_map]
  congr 1
  refine List.filter_congr fun l _ => ?_
  have ht : '\n' ∉ tab.toList := by decide
  by_cases hl : l = ""
  · simp [hl]
  · simp [hl, String.toList_append, isComment_tab, ht]

/-- Two lists of lines with the same code -/
theorem uncommented_block (head : String) {body body' : List String}
    (h : uncommented body = uncommented body') :
    uncommented (block head body) = uncommented (block head body') := by
  simp only [block, List.cons_append, uncommented_cons _ (_ ++ _), uncommented_append,
    uncommented_indented, h]

theorem newline_not_mem_linesFrom {line cs l : List Char} (hline : '\n' ∉ line)
    (h : l ∈ Text.linesFrom line cs) : '\n' ∉ l := by
  induction cs generalizing line with
  | nil =>
    rw [Text.linesFrom] at h
    split at h
    · cases h
    · rw [List.mem_singleton.mp h]
      simpa using hline
  | cons c cs ih =>
    by_cases hc : c = '\n'
    · subst hc
      rcases List.mem_cons.mp h with rfl | h
      · unfold Text.closeLine
        split
        · simpa using (List.not_mem_of_not_mem_cons hline)
        · simpa using hline
      · exact ih List.not_mem_nil h
    · have hl : l ∈ Text.linesFrom (c :: line) cs := by simpa [Text.linesFrom, hc] using h
      exact ih (by simp [hline, Ne.symm hc]) hl

theorem mem_of_mem_trim {cs : List Char} {c : Char} (h : c ∈ Text.trim cs) : c ∈ cs := by
  rw [Text.trim, Text.trimEnd, List.mem_reverse] at h
  have hr := (List.dropWhile_sublist Text.isBlank).subset h
  exact (List.dropWhile_sublist Text.isBlank).subset (List.mem_reverse.mp hr)

/-- Documentation is commented line by line. -/
theorem uncommented_docLines (c : Config) (docs : Option String) :
    uncommented (c.docLines docs) = [] := by
  refine List.filter_eq_nil_iff.mpr fun l hl => ?_
  have hslash : Text.isBlank '/' = false := by decide
  cases docs with
  | none => cases hl
  | some docs =>
    simp only [Config.docLines] at hl
    split at hl
    · obtain ⟨cs, hcs, rfl⟩ := List.mem_map.mp hl
      have hn : '\n' ∉ Text.trim cs := fun h =>
        newline_not_mem_linesFrom List.not_mem_nil hcs (mem_of_mem_trim h)
      dsimp only
      split
      · decide
      · simp [isComment, Text.trimStart, hslash, String.toList_append, hn]
    · cases hl

end Uncommented

section Plain

variable (c : Config) (fields : List Field)

theorem bindings_plain : Resolved.bindings (fields.map Field.plain) = Resolved.bindings fields := by
  simp only [Resolved.bindings, List.zipIdx_map, List.map_map]
  rfl

theorem types_plain : (fields.map Field.plain).map (·.type) = fields.map (·.type) := by
  rw [List.map_map]
  rfl

theorem isDocumented_plain :
    Types.isDocumented c (fields.map Field.plain) = Types.isDocumented c fields := by
  simp only [Types.isDocumented, List.any_map, Function.comp_def, Field.plain, Option.isSome_map]

theorem uncommented_positional (head visibility close : String) :
    uncommented (Types.positional c head visibility close (fields.map Field.plain)) =
      uncommented (Types.positional c head visibility close fields) := by
  unfold Types.positional
  rw [isDocumented_plain]
  split
  · simp only [List.cons_append, uncommented_cons _ (_ ++ _), uncommented_append,
      uncommented_indented, uncommented_flatMap, uncommented_docLines, List.flatMap_map,
      Field.type_plain]
  · simp only [List.map_map, Function.comp_def, Field.type_plain]

theorem uncommented_named (visibility : String) :
    uncommented (Types.named c visibility (fields.map Field.plain)) =
      uncommented (Types.named c visibility fields) := by
  simp only [Types.named, bindings_plain, List.zip_map_right, List.flatMap_map, Prod.map_fst,
    Prod.map_snd, id_eq, uncommented_flatMap, uncommented_append, uncommented_docLines,
    Field.type_plain]

theorem uncommented_variant (v : Resolved.Variant) :
    uncommented (Types.variant c v.plain) = uncommented (Types.variant c v) := by
  simp only [Types.variant, uncommented_append, uncommented_docLines, Resolved.Variant.plain]
  cases v.shape with
  | unit => rfl
  | newtype => simp only [uncommented_positional]
  | tuple => simp only [uncommented_positional]
  | struct =>
    simp only [block, closedBy_concat]
    simp only [List.cons_append, uncommented_cons _ (_ ++ _), uncommented_append,
      uncommented_indented, uncommented_named]

theorem uncommented_enum (e : Resolved.Enum) :
    uncommented (Types.enum c e.plain) = uncommented (Types.enum c e) := by
  have hv : uncommented ((e.variants.map Resolved.Variant.plain).flatMap (Types.variant c)) =
      uncommented (e.variants.flatMap (Types.variant c)) := by
    simp only [List.flatMap_map, uncommented_flatMap, uncommented_variant]
  simp only [Types.enum, uncommented_append, uncommented_docLines, Resolved.Enum.plain,
    uncommented_block _ hv]

theorem uncommented_struct (s : Resolved.Struct) :
    uncommented (Types.struct c s.plain) = uncommented (Types.struct c s) := by
  simp only [Types.struct, uncommented_append, uncommented_docLines, Resolved.Struct.plain]
  cases s.shape with
  | unit => rfl
  | newtype => simp only [uncommented_positional]
  | tuple => simp only [uncommented_positional]
  | struct => simp only [uncommented_block _ (uncommented_named c s.fields "pub ")]

theorem params_plain : Types.params (fields.map Field.plain) = Types.params fields := by
  simp only [Types.params, bindings_plain, List.zip_map_right, List.map_map]
  rfl

theorem constructors_plain (e : Resolved.Enum) :
    Types.constructors e.plain = Types.constructors e := by
  have hv : (e.variants.map Resolved.Variant.plain).map Types.constructorLines =
      e.variants.map Types.constructorLines := by
    rw [List.map_map]
    refine List.map_congr_left fun v _ => ?_
    simp only [Function.comp_apply, Types.constructorLines, Types.constructorName,
      Types.constructed, Resolved.Variant.plain, params_plain, bindings_plain]
  simp only [Types.constructors, Resolved.Enum.plain, hv]

theorem ofFields_plain (shape : Shape) :
    Layout.ofFields shape (fields.map Field.plain) = Layout.ofFields shape fields := by
  cases shape with
  | unit => rfl
  | newtype => cases fields <;> rfl
  | tuple => simp only [Layout.ofFields, types_plain]
  | struct => simp only [Layout.ofFields, types_plain, bindings_plain]

theorem codec_plain (d : Resolved.Definition) :
    Codec.ofDefinition d.plain = Codec.ofDefinition d := by
  cases d with
  | enum e =>
    simp only [Codec.ofDefinition, EnumCodec.ofEnum, Resolved.Definition.plain,
      Resolved.Enum.plain, List.map_map, Function.comp_def, Resolved.Variant.plain, ofFields_plain]
  | struct s =>
    simp only [Codec.ofDefinition, RecordCodec.ofStruct, Resolved.Definition.plain,
      Resolved.Struct.plain, ofFields_plain]

theorem armOf_plain (v : Resolved.Variant) :
    DispatchPlan.armOf v.plain = DispatchPlan.armOf v := by
  simp only [DispatchPlan.armOf, Resolved.Variant.plain, bindings_plain, types_plain]

theorem handlers_plain (d : Resolved.Definition) : handlers c d.plain = handlers c d := by
  cases d with
  | enum e =>
    simp only [handlers, Resolved.Definition.plain, DispatchPlan.ofEnum, Resolved.Enum.plain,
      Resolved.Enum.handlersName, List.map_map, Function.comp_def, armOf_plain]
  | struct s => rfl

/-- Documentation makes no difference to the code of a definition. -/
theorem uncommented_whole (d : Resolved.Definition) :
    uncommented (whole c d.plain) = uncommented (whole c d) := by
  have ht : uncommented (Types.definition c d.plain) = uncommented (Types.definition c d) := by
    cases d with
    | enum e =>
      simp only [Types.definition, Resolved.Definition.plain, uncommented_append, uncommented_enum,
        constructors_plain]
    | struct s => simp only [Types.definition, Resolved.Definition.plain, uncommented_struct]
  simp only [whole, uncommented_append, ht, codec_plain, handlers_plain]

end Plain

theorem codeOf_package (package : String) :
    codeOf ("// Generated by sumgen from package '" ++ package ++ "'. Do not edit.") =
      strays package := by
  have hn : '\n' ∉ "// Generated by sumgen from package '".toList := by decide
  rw [String.append_assoc, codeOf, String.toList_append, splitOn_append hn, strays]
  cases hp : (package ++ "'. Do not edit.").toList.splitOn '\n' with
  | nil => rfl
  | cons l ls =>
    rw [List.modifyHead_cons, List.filter_cons_of_neg, List.tail_cons]
    rw [show isComment ("// Generated by sumgen from package '".toList ++ l) = true from rfl]
    decide

theorem strays_eq_nil {package : String} (h : '\n' ∉ package.toList) : strays package = [] := by
  have hn : '\n' ∉ (package ++ "'. Do not edit.").toList := by
    rw [String.toList_append, List.mem_append, not_or]
    exact ⟨h, by decide⟩
  rw [strays, splitOn_eq_singleton hn]
  rfl

/-- The code of a schema but for what its package adds. -/
def ownCode (c : Config) (ds : List Resolved.Definition) : List (List Char) :=
  ((header c "").tail ++ ds.flatMap (whole c)).flatMap codeOf ++ [[]]

theorem ownCode_plain (c : Config) (ds : List Resolved.Definition) :
    ownCode c (ds.map Resolved.Definition.plain) = ownCode c ds := by
  have hd : ∀ d, (whole c d.plain).flatMap codeOf = (whole c d).flatMap codeOf := by
    intro d
    rw [← flatMap_codeOf_uncommented, uncommented_whole, flatMap_codeOf_uncommented]
  simp only [ownCode, List.flatMap_append, List.flatMap_map, List.flatMap_assoc, hd]

theorem codeOf_emitted (c : Config) (package : String) (ds : List Resolved.Definition) :
    codeOf (joined (header c package ++ ds.flatMap (whole c))) =
      strays package ++ ownCode c ds := by
  have hh : header c package = ("// Generated by sumgen from package '" ++ package ++
      "'. Do not edit.") :: (header c "").tail := rfl
  rw [codeOf_joined, hh, List.cons_append, List.flatMap_cons, codeOf_package, ownCode,
    List.append_assoc]

/-- Where two schemas differ in their free text only, so does what is emitted of them, but for the
lines of a package behind its first line feed that are no comments: the code is the same exactly
where those are the same, and so where no package has a line feed. -/
theorem code_of_plain {s s' : Schema} {ir ir' : Resolved.Schema}
    (h : Resolved.Schema.ofSchema s = .ok ir) (h' : Resolved.Schema.ofSchema s' = .ok ir')
    (hp : s.plain = s'.plain) (c : Config) :
    (Text.trim c.runtimePath.toList = [] ∧ sourceOf c s = .error .blankRuntimePath ∧
      sourceOf c s' = .error .blankRuntimePath) ∨
    ∃ t t', sourceOf c s = .ok t ∧ sourceOf c s' = .ok t' ∧
      (codeOf t = codeOf t' ↔ strays s.package = strays s'.package) ∧
      ('\n' ∉ s.package.toList → '\n' ∉ s'.package.toList → codeOf t = codeOf t') := by
  rw [sourceOf_eq c h, sourceOf_eq c h']
  by_cases hb : Text.trim c.runtimePath.toList = []
  · exact .inl ⟨hb, by simp [hb], by simp [hb]⟩
  · have hpackage : ir.package = s.package :=
      congrArg (·.package) (Resolved.eq_ofDefinitions_of_ofSchema h)
    have hpackage' : ir'.package = s'.package :=
      congrArg (·.package) (Resolved.eq_ofDefinitions_of_ofSchema h')
    have hiff : codeOf (joined (header c ir.package ++ ir.definitions.flatMap (whole c))) =
        codeOf (joined (header c ir'.package ++ ir'.definitions.flatMap (whole c))) ↔
          strays s.package = strays s'.package := by
      rw [codeOf_emitted, codeOf_emitted, ← ownCode_plain c ir.definitions,
        ← ownCode_plain c ir'.definitions, Resolved.definitions_eq_of_plain h h' hp,
        List.append_left_inj, hpackage, hpackage']
    refine .inr ⟨_, _, if_neg (by simpa using hb), if_neg (by simpa using hb), hiff, ?_⟩
    exact fun hn hn' => hiff.mpr ((strays_eq_nil hn).trans (strays_eq_nil hn').symm)

namespace Tracks

def schema (package docs : String) : Schema :=
  ⟨package, none, [.struct ⟨"Track", some docs, [⟨none, .string, none⟩]⟩], 0⟩

def resolved (package docs : String) : Resolved.Schema :=
  .ofDefinitions package none [.struct ⟨"Track", some docs, .newtype, [⟨none, .string, none⟩]⟩]

theorem ofSchema_schema (package docs : String) :
    Resolved.Schema.ofSchema (schema package docs) = .ok (resolved package docs) := by
  have hd : (schema package docs).dependencyOrder = .ok (schema package docs).definitions := by cbv
  have hv : (schema package docs).validate = (schema "" "").validate := rfl
  exact Resolved.ofSchema_of_ordered (hv.trans (by decide)) hd rfl

theorem sourceOf_schema (package docs : String) : sourceOf .standard (schema package docs) =
    .ok (joined (header .standard package ++
      (resolved package docs).definitions.flatMap (whole .standard))) := by
  rw [sourceOf_eq .standard (ofSchema_schema package docs)]
  rfl

end Tracks

theorem code_of_plain_tracks :
    (Resolved.Schema.ofSchema (Tracks.schema "tracks" "A track.") =
        .ok (Tracks.resolved "tracks" "A track.") ∧
      Resolved.Schema.ofSchema (Tracks.schema "songs" "A song;\npub mod song;") =
        .ok (Tracks.resolved "songs" "A song;\npub mod song;") ∧
      (Tracks.schema "tracks" "A track.").plain =
        (Tracks.schema "songs" "A song;\npub mod song;").plain) ∧
    ∃ t t', sourceOf .standard (Tracks.schema "tracks" "A track.") = .ok t ∧
      sourceOf .standard (Tracks.schema "songs" "A song;\npub mod song;") = .ok t' ∧
      codeOf t = codeOf t' := by
  have h := Tracks.ofSchema_schema "tracks" "A track."
  have h' := Tracks.ofSchema_schema "songs" "A song;\npub mod song;"
  refine ⟨⟨h, h', rfl⟩, ?_⟩
  rcases code_of_plain h h' rfl .standard with ⟨hb, -⟩ | ⟨t, t', ht, ht', -, hcode⟩
  · exact absurd hb (by decide)
  · exact ⟨t, t', ht, ht', hcode (by decide) (by decide)⟩

/-- A line of a package becomes a line of code. -/
theorem code_tracks_stray : ∃ t t',
    (Resolved.Schema.ofSchema (Tracks.schema "tracks" "A track.") =
        .ok (Tracks.resolved "tracks" "A track.") ∧
      Resolved.Schema.ofSchema (Tracks.schema "tracks\npub mod stray;" "A track.") =
        .ok (Tracks.resolved "tracks\npub mod stray;" "A track.") ∧
      (Tracks.schema "tracks" "A track.").plain =
        (Tracks.schema "tracks\npub mod stray;" "A track.").plain) ∧
    sourceOf .standard (Tracks.schema "tracks" "A track.") = .ok t ∧
      sourceOf .standard (Tracks.schema "tracks\npub mod stray;" "A track.") = .ok t' ∧
      codeOf t ≠ codeOf t' := by
  refine ⟨_, _, ⟨Tracks.ofSchema_schema _ _, Tracks.ofSchema_schema _ _, rfl⟩,
    Tracks.sourceOf_schema _ _, Tracks.sourceOf_schema _ _, ?_⟩
  have hlines : strays "tracks" ≠ strays "tracks\npub mod stray;" := by decide
  have hown : ownCode .standard (Tracks.resolved "tracks" "A track.").definitions =
      ownCode .standard (Tracks.resolved "tracks\npub mod stray;" "A track.").definitions := rfl
  rwa [codeOf_emitted, codeOf_emitted, hown, Ne, List.append_left_inj]

end TaggedSum.Emit
