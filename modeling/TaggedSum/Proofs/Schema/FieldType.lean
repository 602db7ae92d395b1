import TaggedSum.Proofs.Schema.Spelling

namespace TaggedSum.FieldType

variable {cs : List Char} {s : String} {t : FieldType}

/-- The references of the type cannot be mistaken for other types. -/
def Legible : FieldType → Prop
  | reference name => Text.isIdentifier name ∧ word? name = none
  | seq item => item.Legible
  | map entry => entry.Legible
  | _ => True

theorem legible_of_word? (h : word? s = some t) : t.Legible := by
  simp only [word?] at h
  split at h <;> cases h <;> trivial

theorem Spells.legible (h : Spells t cs) : t.Legible := by
  induction h with
  | keyword h => exact legible_of_word? (word?_eq_some_iff.mpr h)
  | reference hi hk => exact ⟨Text.isIdentifier_iff.mpr hi, word?_eq_none_iff.mpr hk⟩
  | seq _ _ _ ih => exact ih
  | map _ _ _ ih => exact ih

theorem legible_of_ofChars? (h : ofChars? cs = some t) : t.Legible := by
  obtain ⟨inner, hi, -⟩ := spells_of_ofChars? h
  exact hi.legible

theorem Legible.spells_text (h : t.Legible) : Spells t t.text.toList := by
  induction t with
  | string => exact .keyword (by decide)
  | signed w => cases w <;> exact .keyword (by decide)
  | unsigned w => cases w <;> exact .keyword (by decide)
  | bool => exact .keyword (by decide)
  | reference name => exact .reference (Text.isIdentifier_iff.mp h.1) (word?_eq_none_iff.mp h.2)
  | seq item ih =>
    have ht : (seq item).text.toList =
        ['s', 'e', 'q'] ++ ([] ++ '<' :: (item.text.toList ++ ['>'])) := by
      simp [text, String.toList_append]
    rw [ht]
    exact .seq blanks_nil (ih h) (padded_self _)
  | map entry ih =>
    have ht : (map entry).text.toList =
        ['m', 'a', 'p'] ++ ([] ++ '<' :: (entry.text.toList ++ ['>'])) := by
      simp [text, String.toList_append]
    rw [ht]
    exact .map blanks_nil (ih h) (padded_self _)

theorem ofChars?_text (h : t.Legible) : ofChars? t.text.toList = some t :=
  h.spells_text.ofChars?_eq (padded_self _)

/-- A type is read from a text exactly when the text spells it, between white space; no text spells
two types; and the text of a type that has been read is a spelling that is read as the type. -/
theorem ofText?_exact :
    (∀ s t, ofText? s = some t ↔ ∃ inner, Spells t inner ∧ Padded inner s.toList) ∧
      (∀ cs t t' inner inner', Spells t inner → Padded inner cs → Spells t' inner' →
        Padded inner' cs → t = t' ∧ inner = inner') ∧
      ∀ s t, ofText? s = some t → Spells t t.text.toList ∧ ofText? t.text = some t := by
  refine ⟨fun s t => ⟨spells_of_ofChars?, ?_⟩, ?_, fun s t h => ?_⟩
  · rintro ⟨inner, hi, hp⟩
    exact hi.ofChars?_eq hp
  · intro cs t t' inner inner' h hp h' hp'
    have ht := (h.ofChars?_eq hp).symm.trans (h'.ofChars?_eq hp')
    exact ⟨Option.some.inj ht, (hp.trim_eq h.tight).symm.trans (hp'.trim_eq h'.tight)⟩
  · have hl := legible_of_ofChars? h
    exact ⟨hl.spells_text, ofChars?_text hl⟩

/-- A bracket too many belongs to the argument, which is then no type, and a word that goes on
behind `seq` is a name. -/
example : ofText? " map\t< seq<Point> >" = some (map (seq (reference "Point"))) ∧
    ofText? "seq<i8>>" = none ∧ ofText? "sequence" = some (reference "sequence") := by
  refine ⟨?_, ?_, ?_⟩ <;> cbv

end TaggedSum.FieldType
