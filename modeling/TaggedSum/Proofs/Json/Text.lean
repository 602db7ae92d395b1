import TaggedSum.Json.Reader
import TaggedSum.Json.Writer

namespace TaggedSum

open Token (scanText)

/-- The controls that have an escape letter -/
def Json.lettered : List Char := ['\x08', '\x0c', '\n', '\r', '\t']

/-- What the written form of a character is scanned as. -/
def Piece.ofChar (c : Char) : Piece :=
  if c.toNat < 0x20 ∧ c ∉ Json.lettered then .unit c.toNat else .char c

/-- What the written form of a string is scanned as. -/
def Piece.ofText (s : String) : List Piece := s.toList.map Piece.ofChar

namespace Json

theorem hexValue?_digitChar : ∀ d < 16, Token.hexValue? (Nat.digitChar d) = some d := by decide

theorem unit?_control {n : Nat} (h : n < 0x20) :
    Token.unit? '0' '0' (Nat.digitChar (n / 16)) (Nat.digitChar (n % 16)) = some n := by
  have hz : Token.hexValue? '0' = some 0 := by decide
  have hh := hexValue?_digitChar (n / 16) (by omega)
  have hl := hexValue?_digitChar (n % 16) (by omega)
  simp only [Token.unit?, hz, hh, hl]
  exact congrArg some (by omega)

theorem scanText_escape {e c : Char} (h : Token.escaped? e = some c) (cs : List Char) :
    scanText ('\\' :: e :: cs) = (scanText cs).map fun r => (.char c :: r.1, r.2) := by
  have hu : e ≠ 'u' := by
    rintro rfl
    cases h
  rw [scanText]
  · rw [h]
    cases scanText cs <;> rfl
  · exact fun _ _ _ _ _ he => absurd he hu

theorem scanText_unit {a b c d : Char} {n : Nat} (h : Token.unit? a b c d = some n)
    (cs : List Char) : scanText ('\\' :: 'u' :: a :: b :: c :: d :: cs) =
      (scanText cs).map fun r => (.unit n :: r.1, r.2) := by
  rw [scanText, h]
  cases scanText cs <;> rfl

theorem scanText_plain {c : Char} (hq : c ≠ '"') (hb : c ≠ '\\') (hc : ¬c.toNat < 0x20)
    (cs : List Char) : scanText (c :: cs) = (scanText cs).map fun r => (.char c :: r.1, r.2) := by
  rw [scanText]
  · rw [if_neg hc]
    cases scanText cs <;> rfl
  · exact hq
  · exact fun _ _ _ _ _ h => absurd h hb
  · exact fun _ _ h => absurd h hb

theorem scanText_escapeChar (c : Char) (cs : List Char) :
    scanText (escapeChar c ++ cs) = (scanText cs).map fun r => (Piece.ofChar c :: r.1, r.2) := by
  simp only [escapeChar]
  split
  · exact scanText_escape rfl cs
  · exact scanText_escape rfl cs
  · exact scanText_escape rfl cs
  · exact scanText_escape rfl cs
  · exact scanText_escape rfl cs
  · exact scanText_escape rfl cs
  · exact scanText_escape rfl cs
  · rename_i hq hb h₁ h₂ h₃ h₄ h₅
    split
    · rename_i hc
      have hl : c ∉ lettered := by
        simpa [lettered] using ⟨h₁, h₂, h₃, h₄, h₅⟩
      have hp : Piece.ofChar c = .unit c.toNat := if_pos ⟨hc, hl⟩
      rw [hp]
      exact scanText_unit (unit?_control hc) cs
    · rename_i hc
      have hp : Piece.ofChar c = .char c := if_neg fun h => hc h.1
      rw [hp]
      exact scanText_plain hq hb hc cs

/-- A string ends with the first quote that is not escaped. -/
theorem scanText_flatMap (s cs : List Char) :
    scanText (s.flatMap escapeChar ++ '"' :: cs) = some (s.map Piece.ofChar, cs) := by
  induction s with
  | nil => rw [List.flatMap_nil, List.nil_append, scanText, List.map_nil]
  | cons c s ih =>
    rw [List.flatMap_cons, List.append_assoc, scanText_escapeChar, ih]
    rfl

end Json

namespace Piece

theorem chars?_ofChar (c : Char) (ps : List Piece) :
    chars? (ofChar c :: ps) = (chars? ps).map (c :: ·) := by
  simp only [ofChar]
  split
  · rename_i hc
    have hh : isHigh c.toNat = false := by
      simp only [isHigh, Bool.and_eq_false_iff, decide_eq_false_iff_not]
      omega
    have hl : isLow c.toNat = false := by
      simp only [isLow, Bool.and_eq_false_iff, decide_eq_false_iff_not]
      omega
    have hc : Char.ofNat c.toNat = c := Char.ofNat_toNat c
    -- a unit looks at what comes next, which is no matter to one that is no surrogate
    cases ps with
    | nil => simp [chars?, hh, hl, hc]
    | cons p ps => cases p <;> simp [chars?, hh, hl, hc]
  · rw [chars?]

theorem text?_ofText (s : String) : text? (ofText s) = some s := by
  have h (cs : List Char) : chars? (cs.map ofChar) = some cs := by
    induction cs with
    | nil => rfl
    | cons c cs ih => rw [List.map_cons, chars?_ofChar, ih, Option.map_some]
  rw [text?, ofText, h, Option.map_some, String.ofList_toList]

end Piece

end TaggedSum
