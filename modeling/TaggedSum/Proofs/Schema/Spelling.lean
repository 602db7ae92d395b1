import Mathlib.Data.List.TakeWhile
import TaggedSum.Proofs.Text.Identifier
import TaggedSum.Schema.FieldType

namespace TaggedSum.FieldType

/-- The words that are types of their own. -/
def keywords : List (String × FieldType) := [
  ("string", string), ("str", string), ("bool", bool), ("boolean", bool),
  ("i8", signed .w8), ("i16", signed .w16), ("i32", signed .w32), ("i64", signed .w64),
  ("u8", unsigned .w8), ("u16", unsigned .w16), ("u32", unsigned .w32), ("u64", unsigned .w64)]

def Blanks (cs : List Char) : Prop := ∀ c ∈ cs, Text.isBlank c

/-- The second text is the first with white space around it. -/
def Padded (inner cs : List Char) : Prop :=
  ∃ before after, Blanks before ∧ Blanks after ∧ cs = before ++ inner ++ after

/-- The texts of a type, without white space around them. -/
inductive Spells : FieldType → List Char → Prop
  | keyword {word : String} {t : FieldType} (h : (word, t) ∈ keywords) : Spells t word.toList
  | reference {name : String} (hi : Text.Identifier name) (hk : name ∉ keywords.map Prod.fst) :
      Spells (.reference name) name.toList
  | seq {item : FieldType} {gap inner body : List Char} (hg : Blanks gap) (h : Spells item inner)
      (hp : Padded inner body) :
      Spells (.seq item) (['s', 'e', 'q'] ++ (gap ++ '<' :: (body ++ ['>'])))
  | map {entry : FieldType} {gap inner body : List Char} (hg : Blanks gap) (h : Spells entry inner)
      (hp : Padded inner body) :
      Spells (.map entry) (['m', 'a', 'p'] ++ (gap ++ '<' :: (body ++ ['>'])))

variable {cs inner body gap word : List Char} {s : String} {t : FieldType}

theorem blanks_nil : Blanks [] := List.forall_mem_nil _

theorem padded_self (cs : List Char) : Padded cs cs :=
  ⟨[], [], blanks_nil, blanks_nil, by simp⟩

theorem blanks_takeWhile (cs : List Char) : Blanks (cs.takeWhile Text.isBlank) :=
  fun _ hc => List.mem_takeWhile_imp hc

theorem takeWhile_append_trimStart (cs : List Char) :
    cs.takeWhile Text.isBlank ++ Text.trimStart cs = cs :=
  List.takeWhile_append_dropWhile

theorem padded_trim (cs : List Char) : Padded (Text.trim cs) cs := by
  let behind := (Text.trimStart cs).reverse.takeWhile Text.isBlank
  have hend : Text.trim cs ++ behind.reverse = Text.trimStart cs := by
    rw [Text.trim, Text.trimEnd, ← List.reverse_append, takeWhile_append_trimStart,
      List.reverse_reverse]
  refine ⟨_, behind.reverse, blanks_takeWhile cs, fun c hc => ?_, ?_⟩
  · exact blanks_takeWhile _ c (List.mem_reverse.mp hc)
  · rw [List.append_assoc, hend, takeWhile_append_trimStart]

/-- White space neither begins nor ends the text. -/
structure Tight (cs : List Char) : Prop where
  head : ∀ c, cs.head? = some c → Text.isBlank c = false
  last : ∀ c, cs.getLast? = some c → Text.isBlank c = false

theorem trimStart_append (h : Blanks gap) (cs : List Char) :
    Text.trimStart (gap ++ cs) = Text.trimStart cs :=
  List.dropWhile_append_of_pos h

theorem trimStart_of_head (h : ∀ c, cs.head? = some c → Text.isBlank c = false) :
    Text.trimStart cs = cs := by
  cases cs with
  | nil => rfl
  | cons c cs => simp [Text.trimStart, h c rfl]

theorem trimStart_blanks (h : Blanks gap) : Text.trimStart gap = [] :=
  List.dropWhile_eq_nil_iff.mpr h

theorem Padded.trim_eq (hp : Padded inner cs) (ht : Tight inner) : Text.trim cs = inner := by
  obtain ⟨before, after, hb, ha, rfl⟩ := hp
  cases inner with
  | nil =>
    rw [List.append_nil, Text.trim, trimStart_append hb, trimStart_blanks ha]
    rfl
  | cons c inner =>
    have hstart : Text.trimStart (before ++ c :: inner ++ after) = c :: inner ++ after := by
      rw [List.append_assoc, trimStart_append hb]
      exact trimStart_of_head fun d hd => ht.head d hd
    have hlast : ∀ d, (c :: inner).reverse.head? = some d → Text.isBlank d = false := by
      simpa only [List.head?_reverse] using ht.last
    rw [Text.trim, hstart, Text.trimEnd, List.reverse_append,
      trimStart_append (fun d hd => ha d (List.mem_reverse.mp hd)), trimStart_of_head hlast,
      List.reverse_reverse]

theorem isBlank_of_head?_trimStart {c : Char} (h : (Text.trimStart cs).head? = some c) :
    Text.isBlank c = false := by
  have hn := List.head?_dropWhile_not Text.isBlank cs
  rw [← Text.trimStart, h] at hn
  exact hn

theorem tight_trim (cs : List Char) : Tight (Text.trim cs) := by
  constructor
  · intro c hc
    have hp : Text.trim cs <+: Text.trimStart cs := by
      rw [Text.trim, Text.trimEnd, ← List.reverse_suffix, List.reverse_reverse]
      exact List.dropWhile_suffix _
    obtain ⟨ds, hds⟩ := hp
    have hh : (Text.trimStart cs).head? = some c := by
      rw [← hds, List.head?_append, hc]
      rfl
    exact isBlank_of_head?_trimStart hh
  · intro c hc
    rw [Text.trim, Text.trimEnd, List.getLast?_reverse] at hc
    exact isBlank_of_head?_trimStart hc

theorem trim_trim (cs : List Char) : Text.trim (Text.trim cs) = Text.trim cs :=
  (padded_self _).trim_eq (tight_trim cs)

theorem behind?_append (word cs : List Char) : behind? word (word ++ cs) = some cs := by
  induction word with
  | nil => rfl
  | cons w word ih => simpa [behind?] using ih

theorem argument?_eq_some_iff : argument? word cs = some body ↔
    ∃ gap, Blanks gap ∧ cs = word ++ (gap ++ '<' :: (body ++ ['>'])) := by
  constructor
  · intro h
    unfold argument? at h
    split at h
    · cases h
    · rename_i rest hrest
      obtain rfl := eq_append_of_behind? hrest
      split at h
      · rename_i inner hinner
        split at h
        · rename_i hlast
          obtain ⟨body', rfl⟩ := List.getLast?_eq_some_iff.mp hlast
          rw [List.dropLast_concat, Option.some.injEq] at h
          subst h
          refine ⟨rest.takeWhile Text.isBlank, blanks_takeWhile rest, ?_⟩
          rw [← hinner, takeWhile_append_trimStart]
        · cases h
      · cases h
  · rintro ⟨gap, hg, rfl⟩
    have hs : Text.trimStart (gap ++ '<' :: (body ++ ['>'])) = '<' :: (body ++ ['>']) := by
      rw [trimStart_append hg]
      exact trimStart_of_head (by rintro c ⟨⟩; decide)
    simp [argument?, behind?_append, hs]

theorem argument?_eq_none (word : List Char) (h : '<' ∉ cs) : argument? word cs = none := by
  refine Option.eq_none_iff_forall_ne_some.mpr fun body hb => h ?_
  obtain ⟨gap, -, rfl⟩ := argument?_eq_some_iff.mp hb
  simp

theorem word?_eq_some_iff : word? s = some t ↔ (s, t) ∈ keywords := by
  constructor
  · intro h
    simp only [word?] at h
    split at h <;> cases h <;> decide
  · have hall : ∀ p ∈ keywords, word? p.1 = some p.2 := by decide
    exact fun h => hall _ h

theorem word?_eq_none_iff : word? s = none ↔ s ∉ keywords.map Prod.fst := by
  simp [Option.eq_none_iff_forall_ne_some, word?_eq_some_iff]

theorem continues_of_keyword (h : (s, t) ∈ keywords) : Text.Continues s := by
  have hall : ∀ p ∈ keywords, Text.isIdentifier p.1 := by decide
  exact Text.continues_of_isIdentifier (hall _ h)

theorem isBlank_of_continuesName {c : Char} (h : Text.continuesName c) :
    Text.isBlank c = false := by
  have hr : 48 ≤ c.val.toNat ∧ c.val.toNat ≤ 122 := by
    have between {a b : Char} (h : a ≤ c ∧ c ≤ b) :
        a.val.toNat ≤ c.val.toNat ∧ c.val.toNat ≤ b.val.toNat :=
      h.imp UInt32.le_iff_toNat_le.mp UInt32.le_iff_toNat_le.mp
    rcases Text.continuesName_iff.mp h with (h | h) | h | rfl
    · have hb : 65 ≤ c.val.toNat ∧ c.val.toNat ≤ 90 := between h
      omega
    · have hb : 97 ≤ c.val.toNat ∧ c.val.toNat ≤ 122 := between h
      omega
    · have hb : 48 ≤ c.val.toNat ∧ c.val.toNat ≤ 57 := between h
      omega
    · decide
  have hn : c.toNat = c.val.toNat := rfl
  simp only [Text.isBlank, Bool.or_eq_false_iff, Bool.and_eq_false_iff, decide_eq_false_iff_not,
    beq_eq_false_iff_ne]
  omega

theorem tight_of_continues (h : Text.Continues s) : Tight s.toList where
  head _ hc := isBlank_of_continuesName (h.continuesName _ (List.mem_of_mem_head? hc))
  last _ hc := isBlank_of_continuesName (h.continuesName _ (List.mem_of_mem_getLast? hc))

theorem tight_bracketed {c : Char} (hc : Text.isBlank c = false) (word cs : List Char) :
    Tight (c :: word ++ (cs ++ ['>'])) where
  head d hd := by
    obtain rfl := Option.some.inj hd
    exact hc
  last d hd := by
    rw [List.getLast?_append, List.getLast?_concat] at hd
    obtain rfl := Option.some.inj hd
    decide

theorem Spells.tight (h : Spells t cs) : Tight cs := by
  cases h with
  | keyword h => exact tight_of_continues (continues_of_keyword h)
  | reference hi hk =>
    exact tight_of_continues (Text.continues_of_isIdentifier (Text.isIdentifier_iff.mpr hi))
  | @seq item gap inner body hg h hp =>
    simpa using tight_bracketed (c := 's') (by decide) ['e', 'q'] (gap ++ '<' :: body)
  | @map entry gap inner body hg h hp =>
    simpa using tight_bracketed (c := 'm') (by decide) ['a', 'p'] (gap ++ '<' :: body)

theorem ofChars?_seq (h : argument? ['s', 'e', 'q'] (Text.trim cs) = some body) :
    ofChars? cs = (ofChars? body).map seq := by
  rw [ofChars?]
  split
  · rename_i hs
    cases hs.symm.trans h
    rfl
  · rename_i hs
    cases hs.symm.trans h

theorem ofChars?_map (hs : argument? ['s', 'e', 'q'] (Text.trim cs) = none)
    (hm : argument? ['m', 'a', 'p'] (Text.trim cs) = some body) :
    ofChars? cs = (ofChars? body).map map := by
  rw [ofChars?]
  split
  · rename_i hs'
    cases hs'.symm.trans hs
  · split
    · rename_i hm'
      cases hm'.symm.trans hm
      rfl
    · rename_i hm'
      cases hm'.symm.trans hm

/-- A text without brackets is read as a word. -/
theorem ofChars?_word (h : Text.trim cs = s.toList) (hs : Text.Continues s) :
    ofChars? cs = ofWord? s := by
  have hnone (word : List Char) : argument? word (Text.trim cs) = none :=
    argument?_eq_none word (h ▸ hs.not_mem (by decide))
  rw [ofChars?]
  split
  · rename_i hb
    cases hb.symm.trans (hnone _)
  · split
    · rename_i hb
      cases hb.symm.trans (hnone _)
    · rw [h, String.ofList_toList]

theorem spells_of_ofWord? (h : ofWord? s = some t) : Spells t s.toList := by
  unfold ofWord? at h
  split at h
  · rename_i t' hw
    obtain rfl := Option.some.inj h
    exact .keyword (word?_eq_some_iff.mp hw)
  · rename_i hw
    split at h
    · rename_i hi
      obtain rfl := Option.some.inj h
      exact .reference (Text.isIdentifier_iff.mp hi) (word?_eq_none_iff.mp hw)
    · cases h

/-- What is read has been spelled. -/
theorem spells_of_ofChars? (h : ofChars? cs = some t) :
    ∃ inner, Spells t inner ∧ Padded inner cs := by
  refine ⟨Text.trim cs, ?_, padded_trim cs⟩
  fun_induction ofChars? cs generalizing t with
  | case1 cs body hs ih =>
    obtain ⟨item, hi, rfl⟩ := Option.map_eq_some_iff.mp h
    obtain ⟨gap, hg, hcs⟩ := argument?_eq_some_iff.mp hs
    rw [hcs]
    exact .seq hg (ih hi) (padded_trim body)
  | case2 cs hs body hm ih =>
    obtain ⟨entry, he, rfl⟩ := Option.map_eq_some_iff.mp h
    obtain ⟨gap, hg, hcs⟩ := argument?_eq_some_iff.mp hm
    rw [hcs]
    exact .map hg (ih he) (padded_trim body)
  | case3 cs hs hm => simpa using spells_of_ofWord? h

/-- What is spelled is read. -/
theorem Spells.ofChars?_eq (h : Spells t inner) (hp : Padded inner cs) : ofChars? cs = some t := by
  have ht := hp.trim_eq h.tight
  induction h generalizing cs with
  | @keyword word t h =>
    rw [ofChars?_word ht (continues_of_keyword h), ofWord?, word?_eq_some_iff.mpr h]
  | @reference name hi hk =>
    have hi := Text.isIdentifier_iff.mpr hi
    rw [ofChars?_word ht (Text.continues_of_isIdentifier hi), ofWord?, word?_eq_none_iff.mpr hk]
    exact if_pos hi
  | seq hg h hb ih =>
    have hs := argument?_eq_some_iff.mpr ⟨_, hg, ht⟩
    rw [ofChars?_seq hs, ih hb (hb.trim_eq h.tight), Option.map_some]
  | map hg h hb ih =>
    have hs : argument? ['s', 'e', 'q'] (Text.trim cs) = none := by
      rw [ht]
      rfl
    have hm := argument?_eq_some_iff.mpr ⟨_, hg, ht⟩
    rw [ofChars?_map hs hm, ih hb (hb.trim_eq h.tight), Option.map_some]

end TaggedSum.FieldType
