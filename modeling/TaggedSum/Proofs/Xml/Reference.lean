import TaggedSum.Proofs.Outcome
import TaggedSum.Proofs.Xml.Tree

namespace TaggedSum.Xml

open Outcome

/-- A number that only text takes: it has a sign, or no digit but zeros. -/
def Lenient : List Char → Prop
  | '#' :: code => (radix code).2.head? = some '+' ∨ ∀ c ∈ (radix code).2, c = '0'
  | _ => False

section Number

variable {r n : Nat} {cs : List Char}

theorem digit?_zero (hr : 0 < r) : digit? r '0' = some 0 := by
  simp [digit?, Char.isDigit, hr]

theorem eq_zero_of_digit? {c : Char} (h : digit? r c = some 0) : c = '0' := by
  obtain ⟨h, -⟩ := Option.filter_eq_some_iff.mp h
  split at h
  · rename_i hc
    simp only [Char.isDigit, Bool.and_eq_true, decide_eq_true_eq] at hc
    have hge : '0'.toNat ≤ c.toNat := hc.1
    exact Char.toNat_inj.mp (Nat.le_antisymm (Nat.sub_eq_zero_iff_le.mp (Option.some.inj h)) hge)
  · split at h
    · simp at h
    · split at h <;> simp at h

theorem digit?_minus (r : Nat) : digit? r '-' = none := rfl

theorem zeros_of_numberFrom (hr : 0 < r) (h : numberFrom r n cs = .ok 0) :
    n = 0 ∧ ∀ c ∈ cs, c = '0' := by
  induction cs generalizing n with
  | nil => exact ⟨Except.ok.inj h, List.forall_mem_nil _⟩
  | cons c cs ih =>
    rw [numberFrom] at h
    split at h
    · cases h
    · rename_i d hd
      split at h
      · obtain ⟨hz, hcs⟩ := ih h
        obtain ⟨hn, rfl⟩ := Nat.add_eq_zero_iff.mp hz
        have hn : n = 0 := (Nat.mul_eq_zero.mp hn).resolve_right (Nat.ne_of_gt hr)
        exact ⟨hn, List.forall_mem_cons.mpr ⟨eq_zero_of_digit? hd, hcs⟩⟩
      · cases h

theorem numberFrom_zeros (hr : 0 < r) (h : ∀ c ∈ cs, c = '0') : numberFrom r 0 cs = .ok 0 := by
  induction cs with
  | nil => rfl
  | cons c cs ih =>
    obtain ⟨rfl, hcs⟩ := List.forall_mem_cons.mp h
    rw [numberFrom, digit?_zero hr]
    simpa [pow2] using ih hcs

/-- The numbers that are zero, among those that there are. -/
theorem eq_zero_iff_of_number (hr : 0 < r) (h : number r cs = .ok n) :
    n = 0 ↔ ∀ c ∈ cs, c = '0' := by
  cases cs with
  | nil => cases h
  | cons c cs =>
    constructor
    · rintro rfl
      exact (zeros_of_numberFrom hr h).2
    · intro hz
      exact Except.ok.inj (h.symm.trans (numberFrom_zeros hr hz))

theorem radix_pos (code : List Char) : 0 < (radix code).1 := by
  unfold radix
  split <;> exact Nat.succ_pos _

end Number

namespace Attribute

variable {start : Nat} {body : List Char} {c : Char}

theorem numbered_eq_ok_iff {r : Nat} {ds : List Char} (hr : 0 < r) : numbered r ds = .ok c ↔
    (∃ n, number r (unsigned ds) = .ok n ∧ character? n = some c) ∧
      ¬(ds.head? = some '+' ∨ ∀ d ∈ ds, d = '0') := by
  unfold numbered
  split
  · simp
  · rename_i ds
    simp [unsigned, number, numberFrom, digit?_minus]
  · rename_i hplus hminus
    have hh : ds.head? ≠ some '+' := fun h => by
      obtain ⟨ds, rfl⟩ := List.head?_eq_some_iff.mp h
      exact hplus ds rfl
    have hu : unsigned ds = ds := by
      unfold unsigned
      split
      · rename_i ds
        exact absurd rfl (hplus ds)
      · rfl
    rw [hu]
    cases hn : number r ds with
    | error e => simp
    | ok n =>
      simp only [← eq_zero_iff_of_number hr hn, hh, false_or, Except.ok.injEq, exists_eq_left']
      by_cases hz : n = 0
      · simp [hz]
      · simp only [hz, if_false, not_false_eq_true, and_true]
        cases character? n <;> simp

/-- A reference has a character in a value if it has the same in text and is none that only text
takes. -/
theorem resolve_eq_ok_iff :
    resolve start body = .ok c ↔ textReference? body = some c ∧ ¬Lenient body := by
  unfold resolve textReference?
  split
  · rename_i code
    rw [numbered_eq_ok_iff (radix_pos code), Lenient]
    refine and_congr_left fun _ => ?_
    simp only
    cases number (radix code).1 (unsigned (radix code).2) <;> simp
  · rename_i hb
    have hl : ¬Lenient body := by
      unfold Lenient
      split
      · rename_i code
        exact absurd rfl (hb code)
      · exact id
    simp only [hl, not_false_eq_true, and_true]
    cases entity? body <;> simp

end Attribute

end TaggedSum.Xml
