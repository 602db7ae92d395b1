import Mathlib.Data.List.Forall2
import TaggedSum.Emit.Config
import TaggedSum.Proofs.Emit.Name
import TaggedSum.Proofs.Text.Identifier
import TaggedSum.Schema.Validation
/-!
Emitted code is read word by word. Comments and attributes are passed over; a line mentions the
types that are the last word before a comma or before a bracket that closes.
-/
namespace TaggedSum.Emit

/-- Words are made of what names are made of, of the mark of a keyword and the tick of a
lifetime. -/
def inWord (c : Char) : Bool := Text.continuesName c || c == '#' || c == '\x27'

/-- The words of a text, each with the character behind it; `word` is the part of the first that
has been read. -/
def wordsFrom (word : List Char) : List Char → List (String × Char)
  | [] => []
  | c :: cs =>
    if inWord c then wordsFrom (word ++ [c]) cs
    else if word.isEmpty then wordsFrom [] cs
    else (.ofList word, c) :: wordsFrom [] cs

def words (line : String) : List (String × Char) := wordsFrom [] (line.toList ++ ['\n'])

/-- Comments and attributes -/
def isRemark (line : String) : Bool :=
  match line.toList.dropWhile (· == ' ') with
  | [] => false
  | c :: _ => c == '/' || c == '#'

def code (ls : List String) : List String := ls.filter (!isRemark ·)

/-- What is read of the words of each line of code. -/
def readCode (read : List (String × Char) → List String) (ls : List String) : List String :=
  (code ls).flatMap fun l => read (words l)

/-- The word at an index, if there are so many. -/
def wordAt (index : Nat) (ws : List (String × Char)) : List String :=
  (ws[index]?.map Prod.fst).toList

/-- The first line of code, if there is one. -/
def opening (ls : List String) : List String := (code ls).take 1

/-- What stands behind the last word of a type. -/
def endsType (c : Char) : Bool := c == ',' || c == ')' || c == '>'

/-- Types that emitted code has of its own, and the lifetime of its handlers. -/
def isOwn (word : String) : Bool := Schema.reservedNames.contains word || word == "'h"

/-- The types of definitions that words mention. -/
def typesOf (ws : List (String × Char)) : List String :=
  (ws.filter fun (word, c) => endsType c && !isOwn word).map Prod.fst

/-- The text does not end within a word. -/
def Ended (cs : List Char) : Prop := ∀ c ∈ cs.getLast?, inWord c = false

instance (cs : List Char) : Decidable (Ended cs) :=
  decidable_of_iff (cs.getLast?.all (!inWord ·)) (by cases h : cs.getLast? <;> simp [Ended, h])

variable {a b cs : List Char} {d : Char}

theorem ended_append_singleton (hd : inWord d = false) : Ended (a ++ [d]) := by
  intro c hc
  rw [List.getLast?_concat] at hc
  rwa [← Option.some.inj hc]

theorem wordsFrom_append (hd : inWord d = false) (word a b : List Char) :
    wordsFrom word (a ++ d :: b) = wordsFrom word (a ++ [d]) ++ wordsFrom [] b := by
  induction a generalizing word with
  | nil =>
    cases word with
    | nil => simp [wordsFrom, hd]
    | cons => simp [wordsFrom, hd]
  | cons c a ih =>
    simp only [List.cons_append, wordsFrom]
    split
    · exact ih _
    · split
      · exact ih _
      · rw [ih, List.cons_append]

/-- Words are read on both sides of a place that is in no word. -/
theorem wordsFrom_ended (ha : Ended a) (b : List Char) :
    wordsFrom [] (a ++ b) = wordsFrom [] a ++ wordsFrom [] b := by
  rcases List.eq_nil_or_concat a with rfl | ⟨a, d, rfl⟩
  · rfl
  · rw [List.concat_eq_append] at ha ⊢
    rw [List.append_assoc]
    exact wordsFrom_append (ha d (by simp)) [] a b

theorem wordsFrom_of_word (ha : ∀ c ∈ a, inWord c) (word b : List Char) :
    wordsFrom word (a ++ b) = wordsFrom (word ++ a) b := by
  induction a generalizing word with
  | nil => rw [List.append_nil, List.nil_append]
  | cons c a ih =>
    obtain ⟨hc, ha⟩ := List.forall_mem_cons.mp ha
    rw [List.cons_append, wordsFrom, if_pos hc, ih ha, List.append_assoc]
    rfl

/-- A text that is one word -/
def IsWord (s : String) : Prop := s.toList ≠ [] ∧ ∀ c ∈ s.toList, inWord c

instance (s : String) : Decidable (IsWord s) :=
  decidable_of_iff (s.toList.isEmpty = false ∧ s.toList.all inWord) (by simp [IsWord])

theorem IsWord.append {s t : String} (hs : IsWord s) (ht : IsWord t) : IsWord (s ++ t) := by
  rw [IsWord, String.toList_append]
  exact ⟨List.append_ne_nil_of_left_ne_nil hs.1 _,
    fun c hc => (List.mem_append.mp hc).elim (hs.2 c) (ht.2 c)⟩

theorem IsWord.words {s : String} (h : IsWord s) (hd : inWord d = false) (b : List Char) :
    wordsFrom [] (s.toList ++ d :: b) = (s, d) :: wordsFrom [] b := by
  have hne : s.toList.isEmpty = false := List.isEmpty_eq_false_iff.mpr h.1
  rw [wordsFrom_of_word h.2, wordsFrom, if_neg (by simp [hd])]
  simp [hne]

theorem isWord_of_continues {s : String} (h : Text.Continues s) : IsWord s :=
  ⟨h.ne_nil, fun c hc => by simp [inWord, h.continuesName c hc]⟩

theorem isWord_identifier {name : String} (h : Text.Continues name) :
    IsWord (identifier name) := by
  have hw := isWord_of_continues h
  rcases identifier_cases name with ⟨-, hi⟩ | ⟨-, hi⟩ | hi <;> rw [hi]
  · exact hw.append (by decide)
  · exact IsWord.append (by decide) hw
  · exact hw

theorem words_tab (l : String) : words (tab ++ l) = words l := by
  rw [words, String.toList_append, List.append_assoc, wordsFrom_ended (by decide)]
  rfl

/-- A word behind others -/
theorem wordAt_line {front w back : String} {d : Char} {cs : List Char} {index : Nat}
    (hi : (wordsFrom [] front.toList).length = index) (hf : Ended front.toList) (hw : IsWord w)
    (hb : back.toList = d :: cs) (hd : inWord d = false) :
    wordAt index (words (front ++ (w ++ back))) = [w] := by
  rw [wordAt, words, String.toList_append, String.toList_append, List.append_assoc,
    List.append_assoc, wordsFrom_ended hf, hb, List.cons_append, hw.words hd, ← hi]
  simp

/-- The types of definitions that a text mentions. -/
def typesIn (cs : List Char) : List String := typesOf (wordsFrom [] cs)

theorem typesIn_append (ha : Ended a) (b : List Char) :
    typesIn (a ++ b) = typesIn a ++ typesIn b := by
  rw [typesIn, wordsFrom_ended ha, typesOf, List.filter_append, List.map_append]
  rfl

theorem exists_of_mem_wordsFrom {word : List Char} {x : String × Char}
    (h : x ∈ wordsFrom word cs) : x.2 ∈ cs := by
  induction cs generalizing word with
  | nil => cases h
  | cons c cs ih =>
    simp only [wordsFrom] at h
    split at h
    · exact List.mem_cons_of_mem c (ih h)
    · split at h
      · exact List.mem_cons_of_mem c (ih h)
      · rcases List.mem_cons.mp h with rfl | h
        · exact List.mem_cons_self
        · exact List.mem_cons_of_mem c (ih h)

/-- Where no type ends, none is mentioned. -/
theorem typesIn_eq_nil (h : ∀ c ∈ cs, endsType c = false) : typesIn cs = [] := by
  rw [typesIn, typesOf, List.map_eq_nil_iff, List.filter_eq_nil_iff]
  rintro ⟨word, c⟩ hx
  simp [h c (exists_of_mem_wordsFrom hx)]

/-- What stands before a place where neither a word goes on nor a type ends -/
theorem typesIn_skip (ha : ∀ c ∈ a, endsType c = false) (hd : inWord d = false)
    (he : endsType d = false) (b : List Char) : typesIn (a ++ d :: b) = typesIn b := by
  rw [List.append_cons, typesIn_append (ended_append_singleton hd), typesIn_eq_nil, List.nil_append]
  intro c hc
  rcases List.mem_append.mp hc with hc | hc
  · exact ha c hc
  · rw [List.mem_singleton.mp hc, he]

theorem inWord_of_endsType (h : endsType d) : inWord d = false := by
  simp only [endsType, Bool.or_eq_true, beq_iff_eq] at h
  rcases h with (rfl | rfl) | rfl <;> decide

/-- Whatever ends the type that is the text, it mentions the types `names`. -/
def Reads (text : String) (names : List String) : Prop :=
  ∀ d, endsType d → typesIn (text.toList ++ [d]) = names

theorem IsWord.reads {s : String} (h : IsWord s) : Reads s (if isOwn s then [] else [s]) := by
  intro d hd
  rw [typesIn, h.words (inWord_of_endsType hd)]
  by_cases ho : isOwn s <;> simp [typesOf, wordsFrom, hd, ho]

/-- A text in front that mentions nothing -/
theorem Reads.prepend {start text : String} {names : List String} (h : Reads text names)
    (hs : Ended start.toList) (hn : typesIn start.toList = []) : Reads (start ++ text) names := by
  intro d hd
  rw [String.toList_append, List.append_assoc, typesIn_append hs, hn, h d hd, List.nil_append]

theorem Reads.typesIn_append {text : String} {names : List String} (h : Reads text names)
    (hd : endsType d) (rest : List Char) :
    typesIn (text.toList ++ d :: rest) = names ++ typesIn rest := by
  rw [List.append_cons, Emit.typesIn_append (ended_append_singleton (inWord_of_endsType hd)),
    h d hd]

theorem typesIn_singleton (d : Char) : typesIn [d] = [] := by
  by_cases h : inWord d <;> simp [typesIn, typesOf, wordsFrom, h]

/-- A bracket that is closed behind the text -/
theorem Reads.close {text : String} {names : List String} (h : Reads text names) :
    Reads (text ++ ">") names := by
  intro d hd
  rw [String.toList_append, List.append_assoc]
  exact (h.typesIn_append rfl [d]).trans (by rw [typesIn_singleton, List.append_nil])

theorem Reads.commaList {xs : List String} {nss : List (List String)}
    (h : List.Forall₂ Reads xs nss) : Reads (commaList xs) nss.flatten := by
  induction h with
  | nil => exact fun d _ => typesIn_singleton d
  | @cons x ns xs nss hx hxs ih =>
    cases hxs with
    | nil => simpa [Emit.commaList] using hx
    | cons =>
      intro d hd
      have hsep : ", ".toList = [',', ' '] := rfl
      rw [Emit.commaList, String.intercalate_cons_cons, ← Emit.commaList, String.toList_append,
        String.toList_append, hsep, List.append_assoc, List.append_assoc, List.cons_append,
        hx.typesIn_append rfl, Emit.typesIn_append (by decide), ih d hd]
      rfl

/-- Nothing in the text ends a type. -/
def Quiet (s : String) : Prop := ∀ c ∈ s.toList, endsType c = false

instance (s : String) : Decidable (Quiet s) :=
  decidable_of_iff (s.toList.all (!endsType ·)) (by simp [Quiet])

theorem IsWord.quiet {s : String} (h : IsWord s) : Quiet s := by
  intro c hc
  cases he : endsType c with
  | false => rfl
  | true =>
    have hw := h.2 c hc
    rw [inWord_of_endsType he] at hw
    cases hw

theorem Quiet.append {s t : String} (hs : Quiet s) (ht : Quiet t) : Quiet (s ++ t) := by
  intro c hc
  rw [String.toList_append] at hc
  exact (List.mem_append.mp hc).elim (hs c) (ht c)

theorem Quiet.typesIn {s : String} (h : Quiet s) : typesIn s.toList = [] := typesIn_eq_nil h

theorem Ended.prepend {s t : String} (ht : Ended t.toList) (hne : t.toList ≠ []) :
    Ended (s ++ t).toList := by
  intro c hc
  rw [String.toList_append, List.getLast?_append_of_ne_nil _ hne] at hc
  exact ht c hc

/-- The line starts neither with a blank nor as comments and attributes do. -/
def Starts (line : String) : Prop :=
  ∃ c cs, line.toList = c :: cs ∧ c ≠ ' ' ∧ c ≠ '/' ∧ c ≠ '#'

theorem Starts.append {s : String} (h : Starts s) (t : String) : Starts (s ++ t) := by
  obtain ⟨c, cs, hs, hc⟩ := h
  exact ⟨c, cs ++ t.toList, by rw [String.toList_append, hs, List.cons_append], hc⟩

theorem Starts.isRemark {l : String} (h : Starts l) : isRemark l = false := by
  obtain ⟨c, cs, hl, hblank, hslash, hmark⟩ := h
  rw [Emit.isRemark, hl, List.dropWhile_cons_of_neg (by simpa using hblank)]
  simp [hslash, hmark]

theorem starts_of_continues {s : String} (h : Text.Continues s) : Starts s := by
  obtain ⟨c, cs, hs⟩ := List.exists_cons_of_ne_nil h.ne_nil
  have hc := h.continuesName c (hs ▸ List.mem_cons_self)
  refine ⟨c, cs, hs, ?_, ?_, ?_⟩ <;>
  · rintro rfl
    revert hc
    decide

theorem starts_identifier {name : String} (h : Text.Continues name) : Starts (identifier name) := by
  have hs := starts_of_continues h
  rcases identifier_cases name with ⟨-, hi⟩ | ⟨-, hi⟩ | hi <;> rw [hi]
  · exact hs.append "_"
  · exact Starts.append ⟨'r', ['#'], rfl, by decide⟩ name
  · exact hs

theorem isRemark_tab (l : String) : isRemark (tab ++ l) = isRemark l := by
  have htab : tab.toList = [' ', ' ', ' ', ' '] := rfl
  rw [isRemark, isRemark, String.toList_append, htab]
  rfl

section Read

variable (read : List (String × Char) → List String)

theorem readCode_append (ls ms : List String) :
    readCode read (ls ++ ms) = readCode read ls ++ readCode read ms := by
  rw [readCode, code, List.filter_append, List.flatMap_append]
  rfl

theorem readCode_cons (l : String) (ls : List String) :
    readCode read (l :: ls) = readCode read [l] ++ readCode read ls := readCode_append read [l] ls

theorem readCode_flatMap {α : Type} (f : α → List String) (as : List α) :
    readCode read (as.flatMap f) = as.flatMap fun a => readCode read (f a) := by
  induction as with
  | nil => rfl
  | cons a as ih => rw [List.flatMap_cons, readCode_append, ih, List.flatMap_cons]

theorem readCode_map {α : Type} (f : α → String) (as : List α) :
    readCode read (as.map f) = as.flatMap fun a => readCode read [f a] := by
  rw [List.map_eq_flatMap, readCode_flatMap]

theorem code_remarks {ls : List String} (h : ∀ l ∈ ls, isRemark l) : code ls = [] :=
  List.filter_eq_nil_iff.mpr fun l hl => by simp [h l hl]

theorem readCode_remarks {ls : List String} (h : ∀ l ∈ ls, isRemark l) : readCode read ls = [] := by
  rw [readCode, code_remarks h]
  rfl

theorem readCode_line {l : String} (h : isRemark l = false) :
    readCode read [l] = read (words l) := by
  simp [readCode, code, h]

theorem readCode_eq_nil {l : String} (h : read (words l) = []) : readCode read [l] = [] := by
  cases hr : isRemark l with
  | true => exact readCode_remarks read fun m hm => List.mem_singleton.mp hm ▸ hr
  | false => rw [readCode_line read hr, h]

theorem readCode_indented (ls : List String) :
    readCode read (indented ls) = readCode read ls := by
  rw [indented, readCode_map]
  induction ls with
  | nil => rfl
  | cons l ls ih =>
    rw [List.flatMap_cons, ih, readCode_cons read l]
    congr 1
    split
    · rfl
    · simp only [readCode, code, List.filter_cons, List.filter_nil, isRemark_tab]
      split
      · simp [words_tab]
      · rfl

variable {read}

theorem readCode_block (hr : read [] = []) (head : String) (body : List String) :
    readCode read (block head body) = readCode read [head ++ " \x7b"] ++ readCode read body := by
  have hclose : readCode read ["\x7d"] = [] := readCode_eq_nil read hr
  rw [block, readCode_append, readCode_cons, readCode_indented, hclose, List.append_nil]

theorem closedBy_concat (suffix : String) (ls : List String) (l : String) :
    closedBy suffix (ls ++ [l]) = ls ++ [l ++ suffix] := by
  induction ls with
  | nil => rfl
  | cons m ls ih =>
    cases ls with
    | nil => rfl
    | cons => exact congrArg (m :: ·) ih

theorem readCode_closedBy_block (hr : read [] = []) (head : String) (body : List String) :
    readCode read (closedBy "," (block head body)) =
      readCode read [head ++ " \x7b"] ++ readCode read body := by
  have hclose : readCode read ["\x7d" ++ ","] = [] := readCode_eq_nil read hr
  rw [block, closedBy_concat, readCode_append, readCode_cons, readCode_indented, hclose,
    List.append_nil]

end Read

theorem types_quiet {l : String} (h : Quiet l) : readCode typesOf [l] = [] := by
  refine readCode_eq_nil typesOf (typesIn_eq_nil fun c hc => ?_)
  rcases List.mem_append.mp hc with hc | hc
  · exact h c hc
  · rw [List.mem_singleton.mp hc]
    decide

/-- A line of a type between a text that starts it and one that ends it -/
theorem types_line {start text close : String} {front names : List String} {d : Char}
    {rest : List Char} (hcode : isRemark (start ++ text ++ close) = false)
    (hs : Ended start.toList) (hf : typesIn start.toList = front) (h : Reads text names)
    (hc : close.toList = d :: rest) (hd : endsType d) (hr : typesIn (rest ++ ['\n']) = []) :
    readCode typesOf [start ++ text ++ close] = front ++ names := by
  rw [readCode_line typesOf hcode, words, ← typesIn, String.toList_append,
    String.toList_append, List.append_assoc, List.append_assoc, typesIn_append hs, hf, hc,
    List.cons_append, h.typesIn_append hd, hr, List.append_nil]

theorem types_quiet_line {start text close : String} {names : List String} {d : Char}
    {rest : List Char} (hcode : isRemark (start ++ text ++ close) = false)
    (hs : Ended start.toList) (hq : Quiet start) (h : Reads text names)
    (hc : close.toList = d :: rest) (hd : endsType d) (hr : typesIn (rest ++ ['\n']) = []) :
    readCode typesOf [start ++ text ++ close] = names :=
  types_line hcode hs hq.typesIn h hc hd hr

theorem opening_append {ls : List String} (h : ∀ l ∈ ls, isRemark l) (ms : List String) :
    opening (ls ++ ms) = opening ms := by
  rw [opening, code, List.filter_append, ← code, code_remarks h]
  rfl

theorem opening_remark {l : String} (h : isRemark l) (ls : List String) :
    opening (l :: ls) = opening ls :=
  opening_append (fun _ hm => List.mem_singleton.mp hm ▸ h) ls

theorem opening_cons {l : String} (h : isRemark l = false) (ls : List String) :
    opening (l :: ls) = [l] := by
  simp [opening, code, h]

theorem readCode_opening {read : List (String × Char) → List String} {ls : List String} {l : String}
    (h : opening ls = [l]) : readCode read (opening ls) = read (words l) := by
  have hl : l ∈ opening ls := h ▸ List.mem_singleton_self l
  have hcode := (List.mem_filter.mp (List.mem_of_mem_take hl)).2
  rw [h, readCode_line read (by simpa using hcode)]

theorem isRemark_ite {p : Prop} [Decidable p] {ls : List String} (h : ∀ l ∈ ls, isRemark l) :
    ∀ l ∈ (if p then ls else []), isRemark l := by
  split
  · exact h
  · exact fun l hl => nomatch hl

theorem isRemark_docLines (c : Config) (docs : Option String) :
    ∀ l ∈ c.docLines docs, isRemark l := by
  intro l hl
  cases docs with
  | none => cases hl
  | some docs =>
    simp only [Config.docLines] at hl
    split at hl
    · obtain ⟨cs, -, rfl⟩ := List.mem_map.mp hl
      dsimp only
      split
      · rfl
      · simp [isRemark, String.toList_append]
    · cases hl

end TaggedSum.Emit
