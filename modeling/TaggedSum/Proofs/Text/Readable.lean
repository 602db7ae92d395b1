import Mathlib.Data.List.Basic
import Mathlib.Logic.Function.Basic
import TaggedSum.Text.Quoted
/-!
Codes that can be read off the front of a text: digits, quoted text, and what is put together from
such codes. A code may rely on what stands behind it, as digits do on the end of the number.
-/
namespace TaggedSum.Text

variable {α β : Type}

/-- A text begins with the code of one thing only, if what stands behind it is allowed there, and
that is then known as well. -/
def Readable (code : α → List Char) (Behind : List Char → Prop) : Prop :=
  ∀ a b r s, Behind r → Behind s → code a ++ r = code b ++ s → a = b ∧ r = s

/-- The text does not begin with a character of the class. -/
def StartsOutside (p : Char → Bool) (cs : List Char) : Prop := ∀ c ∈ cs.head?, p c = false

theorem startsOutside_cons {p : Char → Bool} {c : Char} (h : p c = false) (cs : List Char) :
    StartsOutside p (c :: cs) := by
  rintro _ ⟨⟩
  exact h

theorem StartsOutside.mono {p q : Char → Bool} {cs : List Char} (h : StartsOutside p cs)
    (hpq : ∀ c, p c = false → q c = false) : StartsOutside q cs :=
  fun c hc => hpq c (h c hc)

section Readable

variable {code : α → List Char} {code' : β → List Char} {Behind Behind' : List Char → Prop}

/-- Codes of characters of a class end where the class does. -/
theorem readable_of_class {p : Char → Bool} (hp : ∀ a, ∀ c ∈ code a, p c = true)
    (hinj : Function.Injective code) : Readable code (StartsOutside p) := by
  have htake : ∀ a r, StartsOutside p r → (code a ++ r).takeWhile p = code a := by
    intro a r hr
    rw [List.takeWhile_append_of_pos (hp a)]
    cases r with
    | nil => simp
    | cons c r => simp [hr c rfl]
  intro a b r s hr hs h
  have hc : code a = code b := by rw [← htake a r hr, h, htake b s hs]
  refine ⟨hinj hc, ?_⟩
  rw [hc] at h
  exact List.append_cancel_left h

/-- Two codes behind each other. -/
theorem Readable.append (h : Readable code Behind) (h' : Readable code' Behind')
    (hb : ∀ b r, Behind' r → Behind (code' b ++ r)) {a c : α} {b d : β} {r s : List Char}
    (hr : Behind' r) (hs : Behind' s) (he : code a ++ (code' b ++ r) = code c ++ (code' d ++ s)) :
    a = c ∧ b = d ∧ r = s := by
  obtain ⟨hac, he'⟩ := h a c _ _ (hb b r hr) (hb d s hs) he
  exact ⟨hac, h' b d r s hr hs he'⟩

/-- A code between two texts that are always the same. -/
theorem Readable.enclosed (h : Readable code Behind) (before behind : List Char)
    (hb : ∀ r, Behind (behind ++ r)) :
    Readable (fun a => before ++ (code a ++ behind)) fun _ => True := by
  intro a b r s _ _ he
  simp only [List.append_assoc, List.append_cancel_left_eq] at he
  obtain ⟨hab, he'⟩ := h a b _ _ (hb r) (hb s) he
  exact ⟨hab, List.append_cancel_left he'⟩

/-- The codes of a list, up to something that none of them begins with. -/
theorem Readable.flatMap (h : Readable code fun _ => True)
    (hb : ∀ a r s, Behind s → code a ++ r ≠ s) :
    Readable (fun as : List α => as.flatMap code) Behind := by
  intro as
  induction as with
  | nil =>
    intro bs r s hr _ he
    cases bs with
    | nil => exact ⟨rfl, he⟩
    | cons b bs =>
      simp only [List.flatMap_nil, List.flatMap_cons, List.nil_append, List.append_assoc] at he
      exact absurd he.symm (hb b _ r hr)
  | cons a as ih =>
    intro bs r s hr hs he
    simp only [List.flatMap_cons, List.append_assoc] at he
    cases bs with
    | nil => exact absurd he (hb a _ s hs)
    | cons b bs =>
      simp only [List.flatMap_cons, List.append_assoc] at he
      obtain ⟨rfl, he'⟩ := h a b _ _ trivial trivial he
      obtain ⟨rfl, hrs⟩ := ih bs r s hr hs he'
      exact ⟨rfl, hrs⟩

end Readable

theorem digitChar_injOn : ∀ i < 16, ∀ j < 16, Nat.digitChar i = Nat.digitChar j → i = j := by
  decide

theorem toDigits_injective {b : Nat} (hb : 1 < b) (hb' : b ≤ 16) :
    Function.Injective (Nat.toDigits b) := by
  have hsingle : ∀ {m n}, m < b → Nat.toDigits b m = Nat.toDigits b n → n < b := by
    intro m n hm h
    have hl := (Nat.length_toDigits_le_iff hb Nat.one_pos).mpr (Nat.pow_one b ▸ hm)
    rw [h, Nat.length_toDigits_le_iff hb Nat.one_pos, Nat.pow_one] at hl
    exact hl
  intro m
  induction m using Nat.strongRecOn with
  | ind m ih =>
    intro n h
    by_cases hm : m < b
    · have hn := hsingle hm h
      rw [Nat.toDigits_of_lt_base hm, Nat.toDigits_of_lt_base hn] at h
      exact digitChar_injOn m (by omega) n (by omega) (List.singleton_inj.mp h)
    · have hn : ¬n < b := fun hn => hm (hsingle hn h.symm)
      rw [Nat.toDigits_of_base_le hb (Nat.le_of_not_lt hm),
        Nat.toDigits_of_base_le hb (Nat.le_of_not_lt hn)] at h
      obtain ⟨hdiv, hmod⟩ := List.append_inj' h rfl
      have hpos : 0 < b := by omega
      have hq : m / b = n / b := ih (m / b) (Nat.div_lt_self (by omega) hb) hdiv
      have hr : m % b = n % b :=
        digitChar_injOn _ (Nat.lt_of_lt_of_le (Nat.mod_lt m hpos) hb') _
          (Nat.lt_of_lt_of_le (Nat.mod_lt n hpos) hb') (List.singleton_inj.mp hmod)
      rw [← Nat.div_add_mod m b, hq, hr, Nat.div_add_mod n b]

/-- A decimal number ends at the first character that is no digit. -/
theorem readable_decimal : Readable (Nat.toDigits 10) (StartsOutside Char.isDigit) :=
  readable_of_class (fun _ _ => Nat.isDigit_of_mem_toDigits (by decide) (by decide))
    (toDigits_injective (by decide) (by decide))

theorem decimal_append_ne {c : Char} (hc : c.isDigit = false) (n : Nat) (r s : List Char) :
    Nat.toDigits 10 n ++ r ≠ c :: s := by
  intro h
  have hhead : (Nat.toDigits 10 n).head? = some c := by
    rw [← List.head?_append_of_ne_nil _ Nat.toDigits_ne_nil, h]
    rfl
  have := Nat.isDigit_of_mem_toDigits (by decide) (by decide) (List.mem_of_head? hhead)
  rw [hc] at this
  cases this

namespace Quoted

theorem exists_of_mem_hexadecimal {n : Nat} {c : Char} (h : c ∈ hexadecimal n) :
    ∃ k < 16, c = Nat.digitChar k := by
  induction n using Nat.strongRecOn with
  | _ n ih =>
    rw [hexadecimal, Nat.toDigits_eq_if (by decide)] at h
    split at h
    · next hn => exact ⟨n, hn, List.mem_singleton.mp h⟩
    · next hn =>
      rcases List.mem_append.mp h with h | h
      · exact ih (n / 16) (by omega) h
      · exact ⟨n % 16, by omega, List.mem_singleton.mp h⟩

/-- A number in hexadecimal goes on to the closing brace. -/
theorem readable_hexadecimal : Readable hexadecimal (StartsOutside (· != '\x7d')) := by
  refine readable_of_class (fun n c hc => ?_) (toDigits_injective (by decide) (by decide))
  obtain ⟨k, hk, rfl⟩ := exists_of_mem_hexadecimal hc
  exact bne_iff_ne.mpr (Nat.digitChar_ne '\x7d' rfl)

theorem letter?_inj {a b l : Char} (ha : letter? a = some l) (hb : letter? b = some l) : a = b := by
  unfold letter? at ha
  split at ha <;> cases ha <;>
  · unfold letter? at hb
    split at hb <;> first | rfl | cases hb

theorem letter?_ne {a l : Char} (h : letter? a = some l) : l ≠ 'u' := by
  unfold letter? at h
  split at h <;> cases h <;> decide

/-- How a character of a quoted text is written. -/
inductive Escaped : Char → List Char → Prop where
  | letter {c l : Char} (h : letter? c = some l) : Escaped c ['\\', l]
  | shown {c : Char} (hq : c ≠ '"') (hb : c ≠ '\\') : Escaped c [c]
  | numbered (c : Char) : Escaped c ('\\' :: 'u' :: '\x7b' :: (hexadecimal c.toNat ++ ['\x7d']))

theorem escaped_escapeChar (c : Char) : Escaped c (escapeChar c) := by
  unfold escapeChar
  split
  · next h => exact .letter h
  · next h =>
    split
    · refine .shown ?_ ?_ <;>
      · rintro rfl
        cases h
    · exact .numbered c

theorem Escaped.eq_of_append {a b : Char} {x y r s : List Char} (hx : Escaped a x)
    (hy : Escaped b y) (h : x ++ r = y ++ s) : a = b ∧ r = s := by
  -- the first two characters tell the forms apart, and a number ends at its brace
  cases hx with
  | letter ha =>
    cases hy with
    | letter hb =>
      injection h with _ h
      injection h with hl h
      exact ⟨letter?_inj ha (hl ▸ hb), h⟩
    | shown _ hb =>
      injection h with hc
      exact absurd hc.symm hb
    | numbered =>
      injection h with _ h
      injection h with hl
      exact absurd hl (letter?_ne ha)
  | shown _ ha =>
    cases hy with
    | shown => injection h with hc h; exact ⟨hc, h⟩
    | letter | numbered =>
      injection h with hc
      exact absurd hc ha
  | numbered =>
    cases hy with
    | letter hb =>
      injection h with _ h
      injection h with hl
      exact absurd hl.symm (letter?_ne hb)
    | shown _ hb =>
      injection h with hc
      exact absurd hc.symm hb
    | numbered =>
      have hread := readable_hexadecimal.enclosed ['\\', 'u', '\x7b'] ['\x7d']
        fun r => startsOutside_cons rfl r
      obtain ⟨hab, hrs⟩ := hread a.toNat b.toNat r s trivial trivial h
      exact ⟨Char.toNat_inj.mp hab, hrs⟩

theorem readable_escapeChar : Readable escapeChar fun _ => True :=
  fun a b _ _ _ _ => (escaped_escapeChar a).eq_of_append (escaped_escapeChar b)

theorem escapeChar_append_ne (c : Char) (r s : List Char) : escapeChar c ++ r ≠ '"' :: s := by
  intro h
  generalize hx : escapeChar c = x at h
  cases hx ▸ escaped_escapeChar c with
  | shown hq =>
    injection h with hc
    exact absurd hc hq
  | letter | numbered =>
    injection h with hc
    cases hc

/-- A quoted text ends at the first quote that is not escaped. -/
theorem readable_encode : Readable encode fun _ => True := by
  have hescape : Readable escape fun r => ∃ s, r = '"' :: s := by
    refine readable_escapeChar.flatMap ?_
    rintro c r _ ⟨s, rfl⟩
    exact escapeChar_append_ne c r s
  exact hescape.enclosed ['"'] ['"'] fun r => ⟨r, rfl⟩

end Quoted

end TaggedSum.Text
