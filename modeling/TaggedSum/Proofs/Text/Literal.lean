import Mathlib.Data.List.Forall2
import TaggedSum.Proofs.Json.Text
import TaggedSum.Proofs.Lists
import TaggedSum.Proofs.Text.Readable

namespace TaggedSum.Text.Literal

/-- The character that a letter behind a backslash stands for. -/
def escaped? : Char → Option Char
  | 'n' => some '\n'
  | 'r' => some '\r'
  | 't' => some '\t'
  | '0' => some '\x00'
  | '\\' => some '\\'
  | '"' => some '"'
  | '\x27' => some '\x27'
  | _ => none

/-- A number with one more hexadecimal digit. -/
def digit? (n : Nat) (d : Char) : Option Nat := (Token.hexValue? d).map (16 * n + ·)

def number? (ds : List Char) : Option Nat := ds.foldlM digit? 0

/-- How a character is spelled: as it is, unless that would end the literal, escape something or end
the line; by a letter; or by its number, in braces. -/
inductive Spelled : Char → List Char → Prop where
  | plain {c : Char} (hq : c ≠ '"') (hb : c ≠ '\\') (hn : c ≠ '\n') (hr : c ≠ '\r') :
      Spelled c [c]
  | letter {c l : Char} (h : escaped? l = some c) : Spelled c ['\\', l]
  | number {c : Char} {ds : List Char} (hl : 1 ≤ ds.length ∧ ds.length ≤ 6)
      (hn : number? ds = some c.toNat) : Spelled c ('\\' :: 'u' :: '\x7b' :: (ds ++ ['\x7d']))

/-- The literal is complete, and spells the text. -/
def Denotes (literal s : String) : Prop :=
  ∃ parts, List.Forall₂ Spelled s.toList parts ∧
    literal.toList = '"' :: (parts.flatten ++ ['"'])

/-- Where the reader of a literal is: between two characters, behind a backslash, in front of the
braces of a number, or within them, behind some digits. -/
inductive Mode where
  | between
  | escape
  | brace
  | number (n length : Nat)

def character? (n : Nat) : Option Char := if n.isValidChar then some (.ofNat n) else none

/-- Reads up to the closing quote, and gives the text and what stands behind. -/
def readFrom : Mode → List Char → Option (List Char × List Char)
  | _, [] => none
  | .between, c :: cs =>
    if c = '"' then some ([], cs)
    else if c = '\\' then readFrom .escape cs
    else if c = '\n' ∨ c = '\r' then none
    else (readFrom .between cs).map (.map (c :: ·) id)
  | .escape, l :: cs =>
    if l = 'u' then readFrom .brace cs
    else (escaped? l).bind fun c => (readFrom .between cs).map (.map (c :: ·) id)
  | .brace, c :: cs => if c = '\x7b' then readFrom (.number 0 0) cs else none
  | .number n length, d :: cs =>
    if d = '\x7d' then
      if 1 ≤ length ∧ length ≤ 6 then
        (character? n).bind fun c => (readFrom .between cs).map (.map (c :: ·) id)
      else none
    else (digit? n d).bind fun m => readFrom (.number m (length + 1)) cs

/-- Reads a literal off the front of a text. -/
def read? : List Char → Option (String × List Char)
  | '"' :: cs => (readFrom .between cs).map (.map .ofList id)
  | _ => none

variable {c : Char} {n m : Nat} {cs ds part rest : List Char} {literal s : String}

theorem length_readFrom {mode : Mode} {r : List Char × List Char}
    (h : readFrom mode cs = some r) : r.2.length < cs.length := by
  induction cs generalizing mode r with
  | nil => cases mode <;> cases h
  | cons c cs ih =>
    -- a step goes on with the rest, and may put a character in front of what that gives
    have hnext : ∀ {mode r}, readFrom mode cs = some r → r.2.length < (c :: cs).length :=
      fun h => Nat.lt_succ_of_lt (ih h)
    have hpush : ∀ {d : Char} {r : List Char × List Char},
        (readFrom .between cs).map (Prod.map (d :: ·) id) = some r →
          r.2.length < (c :: cs).length := by
      intro d r h
      obtain ⟨q, hq, rfl⟩ := Option.map_eq_some_iff.mp h
      exact show q.2.length < _ from hnext hq
    cases mode with
    | between =>
      rw [readFrom] at h
      split_ifs at h
      · cases h
        exact Nat.lt_succ_self _
      · exact hnext h
      · exact hpush h
    | escape =>
      rw [readFrom] at h
      split_ifs at h
      · exact hnext h
      · obtain ⟨d, -, h⟩ := Option.bind_eq_some_iff.mp h
        exact hpush h
    | brace =>
      rw [readFrom] at h
      split_ifs at h
      exact hnext h
    | number n length =>
      rw [readFrom] at h
      split_ifs at h
      · obtain ⟨d, -, h⟩ := Option.bind_eq_some_iff.mp h
        exact hpush h
      · obtain ⟨m, -, h⟩ := Option.bind_eq_some_iff.mp h
        exact hnext h

theorem length_read? {r : String × List Char} (h : read? cs = some r) :
    r.2.length < cs.length := by
  unfold read? at h
  split at h
  · obtain ⟨q, hq, rfl⟩ := Option.map_eq_some_iff.mp h
    exact Nat.lt_succ_of_lt (length_readFrom hq)
  · cases h

theorem character?_toNat (c : Char) : character? c.toNat = some c := by
  rw [character?, if_pos (show c.toNat.isValidChar from c.valid), Char.ofNat_toNat]

/-- The digits of a number are read one by one. -/
theorem readFrom_digits {length : Nat} (h : ds.foldlM digit? n = some m) (cs : List Char) :
    readFrom (.number n length) (ds ++ cs) = readFrom (.number m (length + ds.length)) cs := by
  induction ds generalizing n length with
  | nil =>
    cases h
    rfl
  | cons d ds ih =>
    obtain ⟨k, hk, h⟩ := Option.bind_eq_some_iff.mp h
    have hd : d ≠ '\x7d' := by
      rintro rfl
      cases hk
    rw [List.cons_append, readFrom, if_neg hd, hk, Option.bind_some, ih h, List.length_cons]
    congr 2
    omega

/-- A spelled character is read, whatever stands behind. -/
theorem Spelled.readFrom_append (h : Spelled c part) (cs : List Char) :
    readFrom .between (part ++ cs) = (readFrom .between cs).map (.map (c :: ·) id) := by
  cases h with
  | plain hq hb hn hr =>
    rw [List.singleton_append, readFrom, if_neg hq, if_neg hb, if_neg (not_or.mpr ⟨hn, hr⟩)]
  | @letter l h =>
    have hu : l ≠ 'u' := by
      rintro rfl
      cases h
    change readFrom .escape (l :: cs) = _
    rw [readFrom, if_neg hu, h, Option.bind_some]
  | @number ds hl hn =>
    have hdigits : readFrom (.number 0 0) (ds ++ ('\x7d' :: cs)) =
        readFrom (.number c.toNat (0 + ds.length)) ('\x7d' :: cs) := readFrom_digits hn _
    calc readFrom .between (('\\' :: 'u' :: '\x7b' :: (ds ++ ['\x7d'])) ++ cs)
        = readFrom (.number 0 0) (ds ++ ('\x7d' :: cs)) := by
          rw [List.cons_append, List.cons_append, List.cons_append, List.append_assoc]
          rfl
      _ = (readFrom .between cs).map (.map (c :: ·) id) := by
          rw [hdigits, Nat.zero_add, readFrom, if_pos rfl, if_pos hl, character?_toNat,
            Option.bind_some]

theorem readFrom_parts {text : List Char} {parts : List (List Char)}
    (h : List.Forall₂ Spelled text parts) (rest : List Char) :
    readFrom .between (parts.flatten ++ '"' :: rest) = some (text, rest) := by
  induction h with
  | nil => rfl
  | cons h _ ih => rw [List.flatten_cons, List.append_assoc, h.readFrom_append, ih]; rfl

/-- A complete literal is read up to its end, whatever stands behind. -/
theorem Denotes.read?_append (h : Denotes literal s) (rest : List Char) :
    read? (literal.toList ++ rest) = some (s, rest) := by
  obtain ⟨parts, hparts, hl⟩ := h
  have hread := readFrom_parts hparts rest
  rw [hl, List.cons_append, List.append_assoc, read?, List.singleton_append, hread, Option.map_some]
  rw [Prod.map_apply, String.ofList_toList]
  rfl

-- An accent that would join the quote in front of it is spelled by its number.
example : read? "\"\\u\x7b301\x7d\" => 1".toList = some ("\u0301", " => 1".toList) := by decide

/-- No literal spells two texts. -/
theorem Denotes.unique {t : String} (hs : Denotes literal s) (ht : Denotes literal t) : s = t := by
  have h := (hs.read?_append []).symm.trans (ht.read?_append [])
  exact congrArg Prod.fst (Option.some.inj h)

theorem ne_of_escaped? {l : Char} (h : escaped? l = some c) : l ≠ '\n' ∧ l ≠ '\r' := by
  constructor <;>
  · rintro rfl
    cases h

theorem ne_of_digit? {d : Char} (h : digit? n d = some m) : d ≠ '\n' ∧ d ≠ '\r' := by
  constructor <;>
  · rintro rfl
    cases h

theorem ne_of_mem_digits (h : ds.foldlM digit? n = some m) : ∀ d ∈ ds, d ≠ '\n' ∧ d ≠ '\r' := by
  induction ds generalizing n with
  | nil => exact List.forall_mem_nil _
  | cons d ds ih =>
    obtain ⟨k, hk, h⟩ := Option.bind_eq_some_iff.mp h
    exact List.forall_mem_cons.mpr ⟨ne_of_digit? hk, ih h⟩

theorem Spelled.ne_of_mem (h : Spelled c part) : ∀ d ∈ part, d ≠ '\n' ∧ d ≠ '\r' := by
  cases h with
  | plain _ _ hn hr => exact List.forall_mem_singleton.mpr ⟨hn, hr⟩
  | letter h =>
    exact List.forall_mem_cons.mpr ⟨by decide, List.forall_mem_singleton.mpr (ne_of_escaped? h)⟩
  | number _ hn =>
    simp only [List.forall_mem_cons, List.forall_mem_append]
    exact ⟨by decide, by decide, by decide, ne_of_mem_digits hn, by decide, List.forall_mem_nil _⟩

theorem Denotes.ne_of_mem (h : Denotes literal s) :
    ∀ c ∈ literal.toList, c ≠ '\n' ∧ c ≠ '\r' := by
  obtain ⟨parts, hparts, hl⟩ := h
  rw [hl, List.forall_mem_cons, List.forall_mem_append]
  refine ⟨by decide, fun d hd => ?_, List.forall_mem_singleton.mpr (by decide)⟩
  obtain ⟨part, hpart, hd⟩ := List.mem_flatten.mp hd
  obtain ⟨c, -, hc⟩ := Lists.exists_of_mem_right hparts hpart
  exact hc.ne_of_mem d hd

theorem number?_hexadecimal (n : Nat) : number? (Quoted.hexadecimal n) = some n := by
  have hdigit : ∀ n, ∀ d < 16, digit? n (Nat.digitChar d) = some (16 * n + d) := by
    intro n d hd
    rw [digit?, Json.hexValue?_digitChar d hd, Option.map_some]
  induction n using Nat.strongRecOn with
  | ind n ih =>
    rw [Quoted.hexadecimal]
    by_cases hn : n < 16
    · rw [Nat.toDigits_of_lt_base hn]
      have := hdigit 0 n hn
      simpa [number?] using this
    · have hdiv : number? (Nat.toDigits 16 (n / 16)) = some (n / 16) := ih _ (by omega)
      have hmod := hdigit (n / 16) (n % 16) (by omega)
      rw [Nat.toDigits_of_base_le (by decide) (Nat.le_of_not_lt hn), number?, List.foldlM_append,
        ← number?, hdiv]
      rw [Nat.div_add_mod] at hmod
      simpa using hmod

theorem length_hexadecimal (c : Char) :
    1 ≤ (Quoted.hexadecimal c.toNat).length ∧ (Quoted.hexadecimal c.toNat).length ≤ 6 := by
  have hc : c.toNat < 16 ^ 6 := by
    rcases c.valid with h | ⟨-, h⟩ <;> change c.toNat < _ at h <;> omega
  exact ⟨List.length_pos_of_ne_nil Nat.toDigits_ne_nil,
    (Nat.length_toDigits_le_iff (by decide) (by decide)).mpr hc⟩

theorem spelled_escapeChar (c : Char) : Spelled c (Quoted.escapeChar c) := by
  unfold Quoted.escapeChar
  split
  · next l h =>
    apply Spelled.letter
    unfold Quoted.letter? at h
    split at h <;> cases h <;> rfl
  · next h =>
    split
    · apply Spelled.plain <;>
      · rintro rfl
        cases h
    · exact .number (length_hexadecimal c) (number?_hexadecimal c.toNat)

theorem denotes_quoted (s : String) : Denotes (quoted s) s := by
  refine ⟨s.toList.map Quoted.escapeChar, ?_, ?_⟩
  · rw [List.forall₂_map_right_iff, List.forall₂_same]
    exact fun c _ => spelled_escapeChar c
  · rw [quoted, String.toList_ofList, Quoted.encode, Quoted.escape, List.flatMap_def]

theorem quoted_injective : Function.Injective quoted := by
  intro s t h
  exact (denotes_quoted s).unique (h ▸ denotes_quoted t)

end TaggedSum.Text.Literal
