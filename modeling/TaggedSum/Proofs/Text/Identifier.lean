import Mathlib.Logic.Function.Basic
import TaggedSum.Text.Name

namespace TaggedSum.Text

variable {s : String}

/-- A text of characters with which names go on -/
structure Continues (s : String) : Prop where
  ne_nil : s.toList ≠ []
  continuesName : ∀ c ∈ s.toList, continuesName c

theorem continues_of_isIdentifier (h : isIdentifier s) : Continues s := by
  unfold isIdentifier at h
  split at h
  · cases h
  · rename_i c cs hs
    simp only [Bool.and_eq_true, List.all_eq_true] at h
    have hc : continuesName c := by
      have := h.1.1
      simp only [startsName, continuesName, Char.isAlphanum, Bool.or_eq_true] at this ⊢
      exact this.imp_left .inl
    refine ⟨hs ▸ List.cons_ne_nil c cs, ?_⟩
    rw [hs, List.forall_mem_cons]
    exact ⟨hc, h.1.2⟩

theorem Continues.not_mem (h : Continues s) {c : Char} (hc : Text.continuesName c = false) :
    c ∉ s.toList := by
  intro hm
  rw [h.continuesName c hm] at hc
  cases hc

theorem continues_of_isMemberName (h : isMemberName s) : Continues s :=
  continues_of_isIdentifier (Bool.and_eq_true_iff.mp h).1

theorem head?_ne_of_isMemberName (h : isMemberName s) : s.toList.head? ≠ some '_' := by
  simpa using (Bool.and_eq_true_iff.mp h).2

/-- An ASCII letter. -/
def Letter (c : Char) : Prop := ('A' ≤ c ∧ c ≤ 'Z') ∨ ('a' ≤ c ∧ c ≤ 'z')

/-- An ASCII digit. -/
def Digit (c : Char) : Prop := '0' ≤ c ∧ c ≤ '9'

/-- A text of ASCII letters, digits and underscores that does not start with a digit, and is not the
lone underscore. -/
structure Identifier (s : String) : Prop where
  head : ∃ c, s.toList.head? = some c ∧ (Letter c ∨ c = '_')
  chars : ∀ c ∈ s.toList, Letter c ∨ Digit c ∨ c = '_'
  ne_underscore : s ≠ "_"

/-- An identifier that starts with a letter. -/
structure MemberName (s : String) : Prop where
  identifier : Identifier s
  head : ∃ c, s.toList.head? = some c ∧ Letter c

theorem isAlpha_iff {c : Char} : c.isAlpha ↔ Letter c := by
  have hupper : c.isUpper ↔ 'A' ≤ c ∧ c ≤ 'Z' := decide_eq_true_iff
  have hlower : c.isLower ↔ 'a' ≤ c ∧ c ≤ 'z' :=
    Bool.and_eq_true_iff.trans (and_congr decide_eq_true_iff decide_eq_true_iff)
  exact Bool.or_eq_true_iff.trans (or_congr hupper hlower)

theorem isDigit_iff {c : Char} : c.isDigit ↔ Digit c :=
  Bool.and_eq_true_iff.trans (and_congr decide_eq_true_iff decide_eq_true_iff)

theorem startsName_iff {c : Char} : startsName c ↔ Letter c ∨ c = '_' := by
  rw [startsName, Bool.or_eq_true, beq_iff_eq, isAlpha_iff]

theorem continuesName_iff {c : Char} : continuesName c ↔ Letter c ∨ Digit c ∨ c = '_' := by
  rw [continuesName, Bool.or_eq_true, beq_iff_eq, Char.isAlphanum, Bool.or_eq_true, isAlpha_iff,
    isDigit_iff, or_assoc]

theorem isIdentifier_iff : isIdentifier s ↔ Identifier s := by
  unfold isIdentifier
  split
  · rename_i hs
    refine iff_of_false Bool.false_ne_true fun h => ?_
    obtain ⟨c, hc, -⟩ := h.head
    rw [hs] at hc
    cases hc
  · rename_i c cs hs
    simp only [Bool.and_eq_true, List.all_eq_true, bne_iff_ne, startsName_iff, continuesName_iff]
    constructor
    · rintro ⟨⟨hc, hcs⟩, hne⟩
      refine ⟨⟨c, hs ▸ rfl, hc⟩, ?_, hne⟩
      rw [hs, List.forall_mem_cons]
      exact ⟨hc.imp_right .inr, hcs⟩
    · rintro ⟨⟨d, hd, hc⟩, hcs, hne⟩
      rw [hs] at hd hcs
      obtain rfl := Option.some.inj hd
      exact ⟨⟨hc, (List.forall_mem_cons.mp hcs).2⟩, hne⟩

theorem isMemberName_iff : isMemberName s ↔ MemberName s := by
  rw [isMemberName, Bool.and_eq_true, isIdentifier_iff, bne_iff_ne]
  constructor
  · rintro ⟨hi, hne⟩
    obtain ⟨c, hc, hl⟩ := hi.head
    exact ⟨hi, c, hc, hl.resolve_right fun h => hne (h ▸ hc)⟩
  · rintro ⟨hi, c, hc, hl⟩
    refine ⟨hi, fun h => ?_⟩
    obtain rfl := Option.some.inj (hc.symm.trans h)
    exact absurd hl (by unfold Letter; decide)

theorem numbered_injective : Function.Injective fun n : Nat => "f" ++ toString n := by
  intro m n h
  have hr : m.repr = n.repr := String.append_right_inj "f" |>.mp h
  have hd := congrArg String.toList hr
  rw [Nat.toList_repr, Nat.toList_repr] at hd
  have := congrArg (Nat.ofDigitChars 10 · 0) hd
  simpa [Nat.ofDigitChars_toDigits] using this

theorem isMemberName_numbered (n : Nat) : isMemberName ("f" ++ toString n) := by
  have hl : ("f" ++ toString n).toList = 'f' :: Nat.toDigits 10 n := by
    rw [String.toList_append]
    exact congrArg ('f' :: ·) Nat.toList_repr
  have hd : (Nat.toDigits 10 n).all continuesName := by
    refine List.all_eq_true.mpr fun c hc => ?_
    have := Nat.isDigit_of_mem_toDigits (by decide) (by decide) hc
    simp [continuesName, Char.isAlphanum, this]
  have hne : "f" ++ toString n ≠ "_" := by
    intro h
    rw [h] at hl
    exact absurd (List.cons.inj hl).1 (by decide)
  simp only [isMemberName, isIdentifier, hl, hd, Bool.and_eq_true, bne_iff_ne]
  exact ⟨⟨⟨by decide, trivial⟩, hne⟩, by simp⟩

theorem toNat_toLower {c : Char} (h : 'A' ≤ c ∧ c ≤ 'Z') :
    c.toLower.val.toNat = c.val.toNat + 32 := by
  have hu : c.val.toNat ≤ 90 := UInt32.le_iff_toNat_le.mp h.2
  have hv : c.toLower.val = c.val + 32 := congrArg Char.val (dif_pos h)
  rw [hv, UInt32.toNat_add]
  exact Nat.mod_eq_of_lt (show c.val.toNat + 32 < 2 ^ 32 by omega)

/-- Capitals are lowered to small letters, and nothing else is lowered. -/
theorem toLower_cases (c : Char) : c.toLower.isLower ∨ c.toLower = c := by
  by_cases hc : 'A' ≤ c ∧ c ≤ 'Z'
  · have hl : 65 ≤ c.val.toNat := UInt32.le_iff_toNat_le.mp hc.1
    have hu : c.val.toNat ≤ 90 := UInt32.le_iff_toNat_le.mp hc.2
    have ht := toNat_toLower hc
    have ha : 'a'.val ≤ c.toLower.val := UInt32.le_iff_toNat_le.mpr (show 97 ≤ _ by omega)
    have hz : c.toLower.val ≤ 'z'.val := UInt32.le_iff_toNat_le.mpr (show _ ≤ 122 by omega)
    exact .inl (Bool.and_eq_true_iff.mpr ⟨decide_eq_true ha, decide_eq_true hz⟩)
  · exact .inr (dif_neg hc)

theorem toLower_eq_underscore_iff {c : Char} : c.toLower = '_' ↔ c = '_' := by
  constructor
  · intro h
    rcases toLower_cases c with hc | hc
    · rw [h] at hc
      exact absurd hc (by decide)
    · rw [← hc, h]
  · rintro rfl
    rfl

theorem continuesName_of_isLower {c : Char} (h : c.isLower) : continuesName c := by
  have ha : c.isAlpha := Bool.or_eq_true_iff.mpr (.inr h)
  simp [continuesName, Char.isAlphanum, ha]

theorem continuesName_toLower {c : Char} (h : continuesName c) : continuesName c.toLower := by
  rcases toLower_cases c with hc | hc
  · exact continuesName_of_isLower hc
  · rwa [hc]

theorem continuesName_snakeFrom {last : Char} {cs : List Char} (h : ∀ c ∈ cs, continuesName c) :
    ∀ c ∈ snakeFrom last cs, continuesName c := by
  induction cs generalizing last with
  | nil => exact h
  | cons c cs ih =>
    obtain ⟨hc, hcs⟩ := List.forall_mem_cons.mp h
    have htail : ∀ d ∈ c.toLower :: snakeFrom c.toLower cs, continuesName d :=
      List.forall_mem_cons.mpr ⟨continuesName_toLower hc, ih hcs⟩
    simp only [snakeFrom]
    split
    · exact List.forall_mem_cons.mpr ⟨by decide, htail⟩
    · exact htail

theorem Continues.snakeCase (h : Continues s) : Continues (snakeCase s) := by
  obtain ⟨c, cs, hs⟩ := List.exists_cons_of_ne_nil h.ne_nil
  have hl : (Text.snakeCase s).toList = c.toLower :: snakeFrom c.toLower cs := by
    rw [Text.snakeCase, String.toList_ofList, hs]
    rfl
  have hall := h.continuesName
  rw [hs, List.forall_mem_cons] at hall
  refine ⟨hl ▸ List.cons_ne_nil _ _, ?_⟩
  rw [hl, List.forall_mem_cons]
  exact ⟨continuesName_toLower hall.1, continuesName_snakeFrom hall.2⟩

/-- Snake case puts no underscore in front. -/
theorem head?_snakeCase_ne (h : s.toList.head? ≠ some '_') :
    (snakeCase s).toList.head? ≠ some '_' := by
  rw [snakeCase, String.toList_ofList]
  revert h
  cases s.toList with
  | nil => exact id
  | cons c cs => exact mt fun hc => congrArg some (toLower_eq_underscore_iff.mp (Option.some.inj hc))

end TaggedSum.Text
