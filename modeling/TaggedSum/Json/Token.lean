import TaggedSum.Json.Numeral

namespace TaggedSum

/-- A part of a string literal: a character, as it is or by its escape letter, or a unit of 16 bits.
-/
inductive Piece where
  | char (c : Char)
  | unit (n : Nat)
  deriving DecidableEq

inductive Token where
  | openArray
  | closeArray
  | openObject
  | closeObject
  | colon
  | comma
  | null
  | bool (b : Bool)
  | number (l : Numeral)
  | text (pieces : List Piece)
  | junk
  deriving DecidableEq

namespace Token

def isSpace (c : Char) : Bool := c == ' ' || c == '\t' || c == '\n' || c == '\r'

def digitValue (c : Char) : Nat := c.toNat - '0'.toNat

def hexValue? (c : Char) : Option Nat :=
  if c.isDigit then some (digitValue c)
  else if 'a' ≤ c && c ≤ 'f' then some (c.toNat - 'a'.toNat + 10)
  else if 'A' ≤ c && c ≤ 'F' then some (c.toNat - 'A'.toNat + 10)
  else none

def unit? (a b c d : Char) : Option Nat := do
  return (((← hexValue? a) * 16 + (← hexValue? b)) * 16 + (← hexValue? c)) * 16 + (← hexValue? d)

def escaped? : Char → Option Char
  | '"' => some '"'
  | '\\' => some '\\'
  | '/' => some '/'
  | 'b' => some '\x08'
  | 'f' => some '\x0c'
  | 'n' => some '\n'
  | 'r' => some '\r'
  | 't' => some '\t'
  | _ => none

/-- The pieces up to the closing quote, and what follows it. -/
def scanText : List Char → Option (List Piece × List Char)
  | [] => none
  | '"' :: rest => some ([], rest)
  | '\\' :: 'u' :: a :: b :: c :: d :: rest =>
    match unit? a b c d, scanText rest with
    | some n, some (pieces, rest') => some (.unit n :: pieces, rest')
    | _, _ => none
  | '\\' :: e :: rest =>
    match escaped? e, scanText rest with
    | some c, some (pieces, rest') => some (.char c :: pieces, rest')
    | _, _ => none
  | c :: rest =>
    if c.toNat < 0x20 then none
    else match scanText rest with
      | some (pieces, rest') => some (.char c :: pieces, rest')
      | none => none

theorem scanText_length {cs rest : List Char} {pieces : List Piece}
    (h : scanText cs = some (pieces, rest)) : rest.length < cs.length := by
  fun_induction scanText cs generalizing pieces rest <;> simp_all <;> grind

def spanDigits (cs : List Char) : List Nat × List Char :=
  ((cs.takeWhile Char.isDigit).map digitValue, cs.dropWhile Char.isDigit)

theorem length_dropWhile_le (p : Char → Bool) (cs : List Char) :
    (cs.dropWhile p).length ≤ cs.length :=
  (List.dropWhile_sublist p).length_le

theorem spanDigits_length_le (cs : List Char) : (spanDigits cs).2.length ≤ cs.length :=
  length_dropWhile_le _ cs

/-- Digits without a leading zero, except for a lone zero. -/
def scanWhole : List Char → Option (List Nat × List Char)
  | '0' :: rest =>
    match rest with
    | c :: _ => if c.isDigit then none else some ([0], rest)
    | [] => some ([0], rest)
  | c :: rest =>
    if c.isDigit then
      let (ds, rest') := spanDigits rest
      some (digitValue c :: ds, rest')
    else none
  | [] => none

theorem scanWhole_length {cs rest : List Char} {ds : List Nat}
    (h : scanWhole cs = some (ds, rest)) : rest.length < cs.length := by
  unfold scanWhole at h
  split at h
  · rename_i tail
    cases tail with
    | nil => simp at h; simp [← h.2]
    | cons c tail =>
      by_cases hc : c.isDigit = true <;> simp [hc] at h
      simp [← h.2]
  · rename_i c tail _
    have := spanDigits_length_le tail
    by_cases hc : c.isDigit = true <;> simp [hc] at h
    simp only [List.length_cons, ← h.2]
    omega
  · simp at h

/-- A point with the digits behind it, of which there is at least one. -/
def scanFraction : List Char → Option (Option (List Nat) × List Char)
  | '.' :: rest =>
    let (ds, rest') := spanDigits rest
    if ds.isEmpty then none else some (some ds, rest')
  | cs => some (none, cs)

theorem scanFraction_length_le {cs rest : List Char} {ds : Option (List Nat)}
    (h : scanFraction cs = some (ds, rest)) : rest.length ≤ cs.length := by
  unfold scanFraction at h
  split at h
  · rename_i tail
    have := spanDigits_length_le tail
    by_cases hd : (spanDigits tail).1.isEmpty = true <;> simp [hd] at h
    simp only [List.length_cons, ← h.2]
    omega
  · simp at h
    simp [h.2]

def scanSign : List Char → Bool × List Char
  | '-' :: rest => (true, rest)
  | '+' :: rest => (false, rest)
  | cs => (false, cs)

theorem scanSign_length_le (cs : List Char) : (scanSign cs).2.length ≤ cs.length := by
  unfold scanSign
  split <;> simp

/-- An exponent mark, a sign or none, and at least one digit. -/
def scanExponent : List Char → Option (Option (Bool × List Nat) × List Char)
  | [] => some (none, [])
  | c :: rest =>
    if c == 'e' || c == 'E' then
      let (negative, rest') := scanSign rest
      let (ds, rest'') := spanDigits rest'
      if ds.isEmpty then none else some (some (negative, ds), rest'')
    else some (none, c :: rest)

theorem scanExponent_length_le {cs rest : List Char} {e : Option (Bool × List Nat)}
    (h : scanExponent cs = some (e, rest)) : rest.length ≤ cs.length := by
  unfold scanExponent at h
  split at h
  · simp at h
    simp [← h.2]
  · rename_i c tail
    have h₁ := scanSign_length_le tail
    have h₂ := spanDigits_length_le (scanSign tail).2
    by_cases hc : (c == 'e' || c == 'E') = true
    · rw [if_pos hc] at h
      by_cases hd : (spanDigits (scanSign tail).2).1.isEmpty = true <;> simp [hd] at h
      simp only [List.length_cons, ← h.2]
      omega
    · rw [if_neg hc] at h
      simp at h
      simp [← h.2]

def scanNumeral (negative : Bool) (cs : List Char) : Option (Numeral × List Char) :=
  match scanWhole cs with
  | none => none
  | some (whole, cs) =>
    match scanFraction cs with
    | none => none
    | some (fraction, cs) =>
      match scanExponent cs with
      | none => none
      | some (exponent, rest) => some (⟨negative, whole, fraction, exponent⟩, rest)

theorem scanNumeral_length {negative : Bool} {cs rest : List Char} {l : Numeral}
    (h : scanNumeral negative cs = some (l, rest)) : rest.length < cs.length := by
  unfold scanNumeral at h
  split at h <;> try simp at h
  rename_i h₁
  split at h <;> try simp at h
  rename_i h₂
  split at h <;> try simp at h
  rename_i h₃
  have := scanWhole_length h₁
  have := scanFraction_length_le h₂
  have := scanExponent_length_le h₃
  rw [← h.2]
  omega

/-- A scanned token, or `junk` that takes the rest of the text with it. -/
def orJunk {α : Type} (token : α → Token) : Option (α × List Char) → Token × List Char
  | some (a, rest) => (token a, rest)
  | none => (junk, [])

/-- The token that a text starts with, when no white space comes first. -/
def first : Char → List Char → Token × List Char
  | '[', rest => (openArray, rest)
  | ']', rest => (closeArray, rest)
  | '\x7b', rest => (openObject, rest)
  | '\x7d', rest => (closeObject, rest)
  | ':', rest => (colon, rest)
  | ',', rest => (comma, rest)
  | 'n', 'u' :: 'l' :: 'l' :: rest => (null, rest)
  | 't', 'r' :: 'u' :: 'e' :: rest => (bool true, rest)
  | 'f', 'a' :: 'l' :: 's' :: 'e' :: rest => (bool false, rest)
  | '"', rest => orJunk text (scanText rest)
  | '-', rest => orJunk number (scanNumeral true rest)
  | c, rest => orJunk number (scanNumeral false (c :: rest))

theorem orJunk_length_le {α : Type} {token : α → Token} {r : Option (α × List Char)} {n : Nat}
    (h : ∀ a rest, r = some (a, rest) → rest.length ≤ n) : (orJunk token r).2.length ≤ n := by
  unfold orJunk
  split
  · exact h _ _ rfl
  · simp

theorem first_length_le (c : Char) (cs : List Char) : (first c cs).2.length ≤ cs.length := by
  unfold first
  split <;> try (simp; done)
  · simp; omega
  · simp; omega
  · simp; omega
  · exact orJunk_length_le fun _ _ h => Nat.le_of_lt (scanText_length h)
  · exact orJunk_length_le fun _ _ h => Nat.le_of_lt (scanNumeral_length h)
  · exact orJunk_length_le fun _ _ h => Nat.le_of_lt_succ (scanNumeral_length h)

/-- The tokens of a text, each as long as the text allows; where none can be read the list ends with
`junk`. -/
def scan (cs : List Char) : List Token :=
  match _h : cs.dropWhile isSpace with
  | [] => []
  | c :: rest => (first c rest).1 :: scan (first c rest).2
termination_by cs.length
decreasing_by
  have h₁ := first_length_le c rest
  have h₂ := length_dropWhile_le isSpace cs
  rw [_h, List.length_cons] at h₂
  omega

end Token

end TaggedSum
