import TaggedSum.Proofs.Emit.Words
import TaggedSum.Proofs.Text.Readable
/-!
The words that emitted code uses unqualified: those behind neither a path nor a point, whether they
are used or bound there. Text literals, numbers and the names of macros are passed over. A line is
composed of pieces, and so is what is known of its words.
-/
namespace TaggedSum.Emit

/-- Where the reader of a line is: in code, within a word that is qualified or not, or within a text
literal, perhaps behind a backslash. -/
inductive Mode where
  | code (qualified : Bool) (word : List Char)
  | literal
  | escape
  deriving DecidableEq

namespace Mode

def start : Mode := code false []

def step : Mode → Char → Mode
  | literal, c => if c = '"' then start else if c = '\\' then escape else literal
  | escape, _ => literal
  | code qualified word, c =>
    if inWord c then code qualified (word ++ [c])
    else if c = '"' then literal
    else code (c == ':' || c == '.') []

/-- The word that a character ends, if that is to be read. -/
def ended : Mode → Char → List (List Char)
  | code false word, c =>
    if inWord c || word.isEmpty || word.head?.any Char.isDigit || c == '!' then []
    else [word]
  | _, _ => []

def after (m : Mode) (cs : List Char) : Mode := cs.foldl step m

end Mode

def unqualifiedFrom (m : Mode) : List Char → List (List Char)
  | [] => []
  | c :: cs => m.ended c ++ unqualifiedFrom (m.step c) cs

/-- The words that lines of code use unqualified. -/
def unqualified (ls : List String) : List String :=
  (code ls).flatMap fun l => (unqualifiedFrom .start (l.toList ++ ['\n'])).map .ofList

variable {P : String → Prop} {a b cs w : List Char} {d : Char} {s t : String}

theorem unqualifiedFrom_append (m : Mode) (a b : List Char) :
    unqualifiedFrom m (a ++ b) = unqualifiedFrom m a ++ unqualifiedFrom (m.after a) b := by
  induction a generalizing m with
  | nil => rfl
  | cons c a ih =>
    rw [List.cons_append, unqualifiedFrom, ih, unqualifiedFrom, List.append_assoc]
    rfl

theorem Mode.after_append (m : Mode) (a b : List Char) : m.after (a ++ b) = (m.after a).after b :=
  List.foldl_append

/-- All words read from the start are `P`. -/
def Good (P : String → Prop) (cs : List Char) : Prop :=
  ∀ x ∈ unqualifiedFrom .start cs, P (.ofList x)

/-- A text whose words are `P`, and behind which no word goes on. -/
def Plain (P : String → Prop) (s : String) : Prop := ∀ b, Good P b → Good P (s.toList ++ b)

/-- A text whose words are `P` as long as none goes on behind it. -/
def Fits (P : String → Prop) (s : String) : Prop :=
  ∀ d b, inWord d = false → Good P (d :: b) → Good P (s.toList ++ d :: b)

/-- The text does not go on with the word in front of it. -/
def Opens (cs : List Char) : Prop := cs.head?.any (!inWord ·)

instance (cs : List Char) : Decidable (Opens cs) := inferInstanceAs (Decidable (_ = true))

theorem Opens.exists_cons (h : Opens cs) : ∃ d ds, cs = d :: ds ∧ inWord d = false := by
  cases cs with
  | nil => cases h
  | cons d ds => exact ⟨d, ds, rfl, by simpa [Opens] using h⟩

theorem Opens.append (h : Opens cs) (ds : List Char) : Opens (cs ++ ds) := by
  obtain ⟨d, cs, rfl, hd⟩ := h.exists_cons
  simp [Opens, hd]

theorem Plain.fits (h : Plain P s) : Fits P s := fun _ _ _ hb => h _ hb

theorem Plain.append (hs : Plain P s) (ht : Plain P t) : Plain P (s ++ t) := by
  intro b hb
  rw [String.toList_append, List.append_assoc]
  exact hs _ (ht _ hb)

theorem Plain.then (hs : Plain P s) (ht : Fits P t) : Fits P (s ++ t) := by
  intro d b hd hb
  rw [String.toList_append, List.append_assoc]
  exact hs _ (ht d b hd hb)

theorem Fits.plain (hs : Fits P s) (ho : Opens t.toList) (ht : Plain P t) : Plain P (s ++ t) := by
  intro b hb
  obtain ⟨d, cs, htd, hd⟩ := ho.exists_cons
  have hgood := ht b hb
  rw [htd, List.cons_append] at hgood
  rw [String.toList_append, List.append_assoc, htd, List.cons_append]
  exact hs d (cs ++ b) hd hgood

theorem Fits.then (hs : Fits P s) (ho : Opens t.toList) (ht : Fits P t) : Fits P (s ++ t) := by
  intro d b hd hb
  obtain ⟨d', cs, htd, hd'⟩ := ho.exists_cons
  have hgood := ht d b hd hb
  rw [htd, List.cons_append] at hgood
  rw [String.toList_append, List.append_assoc, htd, List.cons_append]
  exact hs d' (cs ++ d :: b) hd' hgood

/-- From the start, the words read are in a list, and the reader ends up in a mode. -/
def leads (allowed : List (List Char)) (m : Mode) (cs : List Char) : Bool :=
  (unqualifiedFrom .start cs).all allowed.contains && Mode.start.after cs == m

variable {allowed : List (List Char)}

theorem leads_iff {m : Mode} : leads allowed m cs ↔
    (∀ x ∈ unqualifiedFrom .start cs, x ∈ allowed) ∧ Mode.start.after cs = m := by
  simp [leads]

theorem Plain.text (hP : ∀ x ∈ allowed, P (.ofList x)) (h : leads allowed .start cs) :
    Plain P (.ofList cs) := by
  obtain ⟨hw, hm⟩ := leads_iff.mp h
  intro b hb x hx
  rw [String.toList_ofList, unqualifiedFrom_append, hm] at hx
  exact (List.mem_append.mp hx).elim (fun hx => hP x (hw x hx)) (hb x)

theorem Plain.marks (h : leads [] .start cs) : Plain P (.ofList cs) :=
  .text (fun _ hx => absurd hx List.not_mem_nil) h

/-- If a blank may stand behind a text, then whatever goes on with no word. -/
theorem Fits.text (hP : ∀ x ∈ allowed, P (.ofList x)) (h : leads allowed .start (cs ++ [' '])) :
    Fits P (.ofList cs) := by
  obtain ⟨hw, hm⟩ := leads_iff.mp h
  rw [Mode.after_append] at hm
  replace hm : (Mode.start.after cs).step ' ' = .start := hm
  rw [unqualifiedFrom_append] at hw
  intro d b hd hb x hx
  rw [String.toList_ofList, unqualifiedFrom_append, unqualifiedFrom] at hx
  generalize Mode.start.after cs = m at hw hm hx
  cases m with
  | literal => cases hm
  | escape => cases hm
  | code q w =>
    have hstep : Mode.step (.code q w) d = Mode.step .start d := by
      simp [Mode.step, Mode.start, hd]
    -- a word ends before any character that is not of one as it does before a blank
    have hended : ∀ y ∈ Mode.ended (.code q w) d, y ∈ unqualifiedFrom (.code q w) [' '] := by
      intro y hy
      have hends : inWord ' ' = false := by decide
      cases q with
      | true => cases hy
      | false =>
        simp only [Mode.ended, hd] at hy
        split at hy
        · cases hy
        · next hn =>
          simp only [Bool.or_eq_true, not_or, Bool.false_or] at hn
          simpa [unqualifiedFrom, Mode.ended, hends, hn.1] using hy
    rcases List.mem_append.mp hx with hx | hx
    · exact hP x (hw x (List.mem_append_left _ hx))
    · rcases List.mem_append.mp hx with hx | hx
      · exact hP x (hw x (List.mem_append_right _ (hended x hx)))
      · exact hb x (List.mem_append_right _ (hstep ▸ hx))

theorem after_word (hw : ∀ c ∈ w, inWord c) (q : Bool) (word : List Char) :
    Mode.after (.code q word) w = .code q (word ++ w) ∧
      unqualifiedFrom (.code q word) w = [] := by
  induction w generalizing word with
  | nil => exact ⟨by rw [List.append_nil]; rfl, rfl⟩
  | cons c w ih =>
    obtain ⟨hc, hw⟩ := List.forall_mem_cons.mp hw
    have hstep : Mode.step (.code q word) c = .code q (word ++ [c]) := by simp [Mode.step, hc]
    have hended : Mode.ended (.code q word) c = [] := by cases q <;> simp [Mode.ended, hc]
    obtain ⟨ha, hu⟩ := ih hw (word ++ [c])
    constructor
    · rw [Mode.after, List.foldl_cons, hstep]
      simpa [Mode.after] using ha
    · rw [unqualifiedFrom, hended, hstep, hu]
      rfl

/-- The word is read, unless it is a number or qualified; what follows is read as from the start. -/
theorem good_word {q : Bool} (hw : ∀ c ∈ w, inWord c) (hd : inWord d = false)
    (hP : q = false → w.head?.any Char.isDigit = false → P (.ofList w)) (hb : Good P (d :: b)) :
    ∀ x ∈ unqualifiedFrom (.code q []) (w ++ d :: b), P (.ofList x) := by
  obtain ⟨ha, hu⟩ := after_word hw q []
  have hstep : Mode.step (.code q w) d = Mode.step .start d := by simp [Mode.step, Mode.start, hd]
  intro x hx
  rw [unqualifiedFrom_append, hu, ha, List.nil_append, List.nil_append, unqualifiedFrom,
    hstep] at hx
  rcases List.mem_append.mp hx with hx | hx
  · cases q with
    | true => cases hx
    | false =>
      simp only [Mode.ended] at hx
      split at hx
      · cases hx
      · next hn =>
        simp only [Bool.or_eq_true, not_or, Bool.not_eq_true] at hn
        exact List.mem_singleton.mp hx ▸ hP rfl hn.1.2
  · exact hb x (List.mem_append_right _ hx)

/-- A word that is `P` unless it is a number. -/
def Spells (P : String → Prop) (s : String) : Prop :=
  IsWord s ∧ (s.toList.head?.any Char.isDigit = false → P s)

theorem IsWord.spells (hs : IsWord s) (hP : P s) : Spells P s := ⟨hs, fun _ => hP⟩

theorem Spells.fits (h : Spells P s) : Fits P s := by
  intro d b hd hb
  refine good_word h.1.2 hd (fun _ hn => ?_) hb
  rw [String.ofList_toList]
  exact h.2 hn

theorem Spells.number (n : Nat) : Spells P (toString n) := by
  have hdigits : (toString n).toList = Nat.toDigits 10 n := Nat.toList_repr
  have hdigit : ∀ c ∈ (toString n).toList, c.isDigit := by
    rw [hdigits]
    exact fun c hc => Nat.isDigit_of_mem_toDigits (by decide) (by decide) hc
  have hne : (toString n).toList ≠ [] := hdigits ▸ Nat.toDigits_ne_nil
  refine ⟨⟨hne, fun c hc => ?_⟩, fun hn => ?_⟩
  · simp [inWord, Text.continuesName, Char.isAlphanum, hdigit c hc]
  · obtain ⟨c, hc⟩ : ∃ c, (toString n).toList.head? = some c :=
      Option.isSome_iff_exists.mp (List.isSome_head?.mpr hne)
    rw [hc, Option.any_some, hdigit c (List.mem_of_mem_head? hc)] at hn
    cases hn

/-- A word behind a path or a point is not read. -/
theorem IsWord.fits_path (hs : IsWord s) (hP : ∀ x ∈ allowed, P (.ofList x))
    (h : leads allowed (.code true []) cs) : Fits P (.ofList cs ++ s) := by
  obtain ⟨hw, hm⟩ := leads_iff.mp h
  intro d b hd hb x hx
  rw [String.toList_append, String.toList_ofList, List.append_assoc, unqualifiedFrom_append,
    hm] at hx
  rcases List.mem_append.mp hx with hx | hx
  · exact hP x (hw x hx)
  · exact good_word hs.2 hd nofun hb x hx

/-- Characters that neither end a literal nor escape -/
theorem literal_append (h : ∀ c ∈ cs, c ≠ '"' ∧ c ≠ '\\') (b : List Char) :
    unqualifiedFrom .literal (cs ++ b) = unqualifiedFrom .literal b := by
  induction cs with
  | nil => rfl
  | cons c cs ih =>
    obtain ⟨hc, hcs⟩ := List.forall_mem_cons.mp h
    have hstep : Mode.step .literal c = .literal := by simp [Mode.step, hc]
    rw [List.cons_append, unqualifiedFrom, hstep, ih hcs]
    rfl

theorem digitChar_ne : ∀ k < 16, Nat.digitChar k ≠ '"' ∧ Nat.digitChar k ≠ '\\' := by decide

theorem literal_escapeChar (c : Char) (b : List Char) :
    unqualifiedFrom .literal (Text.Quoted.escapeChar c ++ b) = unqualifiedFrom .literal b := by
  unfold Text.Quoted.escapeChar
  split
  · rfl
  · next hl =>
    split
    · refine literal_append (fun x hx => ?_) b
      rw [List.mem_singleton.mp hx]
      constructor <;>
      · rintro rfl
        cases hl
    · -- the backslash and the letter behind it are read together
      have hrest : ∀ x ∈ '\x7b' :: (Text.Quoted.hexadecimal c.toNat ++ ['\x7d']),
          x ≠ '"' ∧ x ≠ '\\' := by
        intro x hx
        rcases List.mem_cons.mp hx with rfl | hx
        · decide
        · rcases List.mem_append.mp hx with hx | hx
          · obtain ⟨k, hk, rfl⟩ := Text.Quoted.exists_of_mem_hexadecimal hx
            exact digitChar_ne k hk
          · rw [List.mem_singleton.mp hx]
            decide
      exact literal_append hrest b

theorem Plain.quoted (s : String) : Plain P (Text.quoted s) := by
  have hliteral : ∀ cs b, unqualifiedFrom .literal (Text.Quoted.escape cs ++ b) =
      unqualifiedFrom .literal b := by
    intro cs b
    induction cs with
    | nil => rfl
    | cons c cs ih =>
      rw [Text.Quoted.escape, List.flatMap_cons, List.append_assoc, literal_escapeChar]
      exact ih
  intro b hb x hx
  have hq : (Text.quoted s).toList ++ b = '"' :: (Text.Quoted.escape s.toList ++ '"' :: b) := by
    simp [Text.quoted, Text.Quoted.encode]
  have hopen : unqualifiedFrom .start ((Text.quoted s).toList ++ b) =
      unqualifiedFrom .literal (Text.Quoted.escape s.toList ++ '"' :: b) := by rw [hq]; rfl
  rw [hopen, hliteral] at hx
  exact hb x hx

theorem Fits.intercalate {sep : String} {xs : List String} (hsep : Plain P sep)
    (ho : Opens sep.toList) (h : ∀ x ∈ xs, Fits P x) : Fits P (String.intercalate sep xs) := by
  induction xs with
  | nil => exact fun _ _ _ hb => hb
  | cons x xs ih =>
    obtain ⟨hx, hxs⟩ := List.forall_mem_cons.mp h
    cases xs with
    | nil => simpa using hx
    | cons y ys =>
      rw [String.intercalate_cons_cons]
      exact (hx.plain ho hsep).then (ih hxs)

theorem Fits.commaList {xs : List String} (h : ∀ x ∈ xs, Fits P x) : Fits P (commaList xs) :=
  .intercalate (.marks (by decide)) (by decide) h

/-- All words that the lines use unqualified are `P`. -/
def Keeps (P : String → Prop) (ls : List String) : Prop := ∀ x ∈ unqualified ls, P x

variable {ls ms : List String} {l : String}

theorem Keeps.nil : Keeps P [] := List.forall_mem_nil P

theorem Keeps.blank : Keeps P [""] := List.forall_mem_nil P

theorem unqualified_append (ls ms : List String) :
    unqualified (ls ++ ms) = unqualified ls ++ unqualified ms := by
  rw [unqualified, code, List.filter_append, List.flatMap_append]
  rfl

theorem Keeps.append (hl : Keeps P ls) (hm : Keeps P ms) : Keeps P (ls ++ ms) := by
  intro x hx
  rw [unqualified_append] at hx
  exact (List.mem_append.mp hx).elim (hl x) (hm x)

theorem Keeps.flatMap {α : Type} {f : α → List String} {as : List α} (h : ∀ a ∈ as, Keeps P (f a)) :
    Keeps P (as.flatMap f) := by
  induction as with
  | nil => exact .nil
  | cons a as ih =>
    obtain ⟨ha, has⟩ := List.forall_mem_cons.mp h
    exact ha.append (ih has)

theorem isRemark_text {c : Char} {cs : List Char} (h : c == '/' || c == '#') :
    isRemark (.ofList (c :: cs)) := by
  have hc : (c == ' ') = false := by
    cases hb : c == ' ' with
    | true => rw [eq_of_beq hb] at h; cases h
    | false => rfl
  rw [isRemark, String.toList_ofList, List.dropWhile_cons, hc]
  exact h

theorem isRemark_append (hs : isRemark s) (t : String) : isRemark (s ++ t) := by
  rw [isRemark] at hs ⊢
  rw [String.toList_append, List.dropWhile_append]
  cases hd : s.toList.dropWhile (· == ' ') with
  | nil => rw [hd] at hs; cases hs
  | cons c cs => rwa [hd] at hs

theorem Keeps.remarks (h : ∀ l ∈ ls, isRemark l) : Keeps P ls := by
  rw [Keeps, unqualified, code_remarks h]
  exact nofun

theorem Keeps.skip (hl : isRemark l) (h : Keeps P ls) : Keeps P (l :: ls) :=
  (Keeps.remarks (List.forall_mem_singleton.mpr hl)).append h

theorem unqualified_line (h : isRemark l = false) :
    unqualified [l] = (unqualifiedFrom .start (l.toList ++ ['\n'])).map .ofList := by
  simp [unqualified, code, h]

theorem Fits.keeps (h : Fits P l) : Keeps P [l] := by
  intro x hx
  cases hr : isRemark l with
  | true => exact Keeps.skip hr .nil x hx
  | false =>
    rw [unqualified_line hr] at hx
    exact List.forall_mem_map.mpr (h '\n' [] (by decide) nofun) x hx

theorem Keeps.cons (hl : Fits P l) (hls : Keeps P ls) : Keeps P (l :: ls) := hl.keeps.append hls

theorem Keeps.lines (h : ∀ l ∈ ls, Fits P l) : Keeps P ls := by
  rw [← List.flatMap_singleton' ls]
  exact .flatMap fun l hl => (h l hl).keeps

theorem unqualified_tab (l : String) : unqualified [tab ++ l] = unqualified [l] := by
  have htab : tab.toList = [' ', ' ', ' ', ' '] := rfl
  have hread : unqualifiedFrom .start ((tab ++ l).toList ++ ['\n']) =
      unqualifiedFrom .start (l.toList ++ ['\n']) := by
    rw [String.toList_append, htab]
    rfl
  simp only [unqualified, code, List.filter_cons, isRemark_tab, List.filter_nil]
  split
  · simp only [List.flatMap_singleton, hread]
  · rfl

theorem unqualified_indented (ls : List String) : unqualified (indented ls) = unqualified ls := by
  induction ls with
  | nil => rfl
  | cons l ls ih =>
    have hl : unqualified (indented [l]) = unqualified [l] := by
      by_cases he : l.isEmpty
      · rw [indented, List.map_singleton, if_pos he]
      · rw [indented, List.map_singleton, if_neg he, unqualified_tab]
    calc unqualified (indented (l :: ls))
        = unqualified (indented [l]) ++ unqualified (indented ls) :=
          unqualified_append (indented [l]) (indented ls)
      _ = unqualified (l :: ls) := by rw [hl, ih, ← unqualified_append]; rfl

theorem Keeps.indented (h : Keeps P ls) : Keeps P (Emit.indented ls) := by
  rwa [Keeps, unqualified_indented]

theorem Plain.opened {head : String} (h : Fits P head) : Plain P (head ++ " \x7b") :=
  h.plain (by decide) (.marks (by decide))

theorem Keeps.block {head : String} (hh : Fits P head) (h : Keeps P ls) :
    Keeps P (Emit.block head ls) :=
  (Keeps.cons (Plain.opened hh).fits h.indented).append (Plain.marks (by decide)).fits.keeps

theorem Keeps.block_comma {head : String} (hh : Fits P head) (h : Keeps P ls) :
    Keeps P (closedBy "," (Emit.block head ls)) := by
  have hclose : Plain P ("\x7d" ++ ",") :=
    .append (.marks (by decide)) (.marks (by decide))
  rw [Emit.block, closedBy_concat]
  exact (Keeps.cons (Plain.opened hh).fits h.indented).append hclose.fits.keeps

end TaggedSum.Emit
