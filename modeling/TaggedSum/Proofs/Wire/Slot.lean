import Mathlib.Algebra.Group.Int.Defs
import TaggedSum.Proofs.Members
import TaggedSum.Proofs.Outcome
import TaggedSum.Wire.Slot

namespace TaggedSum

theorem IntWidth.fitsSigned_iff {w : IntWidth} {i : Int} :
    w.fitsSigned i ↔ -2 ^ (w.bits - 1) ≤ i ∧ i < 2 ^ (w.bits - 1) := by
  have hpow : (pow2 (w.bits - 1) : Int) = 2 ^ (w.bits - 1) := Int.natCast_pow 2 _
  rw [fitsSigned, hpow, Bool.and_eq_true, decide_eq_true_iff, decide_eq_true_iff]

theorem IntWidth.fitsUnsigned_iff {w : IntWidth} {i : Int} :
    w.fitsUnsigned i ↔ 0 ≤ i ∧ i < 2 ^ w.bits := by
  have hpow : (pow2 w.bits : Int) = 2 ^ w.bits := Int.natCast_pow 2 _
  rw [fitsUnsigned, hpow, Bool.and_eq_true, decide_eq_true_iff, decide_eq_true_iff]

/-- The document is what the slot has to hold. -/
def Expected.Holds : Expected → Json → Prop
  | string, j => ∃ s, j = .string s
  | signed bits, j =>
    ∃ n i, j = .number n ∧ n.toInt? = some i ∧ -2 ^ (bits - 1) ≤ i ∧ i < 2 ^ (bits - 1)
  | unsigned bits, j => ∃ n i, j = .number n ∧ n.toInt? = some i ∧ 0 ≤ i ∧ i < 2 ^ bits
  | boolean, j => ∃ b, j = .bool b
  | array, j => ∃ js, j = .array js
  | object, j => ∃ ms, j = .object ms
  | null, j => j = .null

namespace Slot

open Outcome

variable {α : Type} {read : Json → Location → Except DecodeError α} {place : Location}

theorem items_of_forall₂ {js : List Json} {as : List α}
    (h : List.Forall₂ (fun j a => ∀ place, read j place = .ok a) js as) (i : Nat) :
    items read place i js = .ok as := by
  induction h generalizing i with
  | nil => rfl
  | cons h _ ih => simp only [items, h, ih, ok_bind, pure_def]

theorem forall₂_of_items {js : List Json} {as : List α} {i : Nat}
    (h : items read place i js = .ok as) :
    List.Forall₂ (fun j a => ∃ place, read j place = .ok a) js as := by
  induction js generalizing i as with
  | nil =>
    cases h
    exact .nil
  | cons j js ih =>
    simp only [items, bind_eq_ok, pure_def] at h
    obtain ⟨a, ha, as, has, h⟩ := h
    cases h
    exact .cons ⟨_, ha⟩ (ih has)

theorem entries_eq_ok_iff {ms : List (String × Json)} {as : List (String × α)} :
    entries read place ms = .ok as ↔
      List.Forall₂ (fun m a => m.1 = a.1 ∧ read m.2 (.entry place m.1) = .ok a.2) ms as := by
  induction ms generalizing as with
  | nil => cases as <;> simp [entries]
  | cons m ms ih =>
    simp only [entries, bind_eq_ok, pure_def, Except.ok.injEq, List.forall₂_cons_left_iff, ih]
    constructor
    · rintro ⟨a, ha, as, has, rfl⟩
      exact ⟨_, as, ⟨rfl, ha⟩, has, rfl⟩
    · rintro ⟨⟨key, a⟩, as, ⟨rfl, ha⟩, has, rfl⟩
      exact ⟨a, ha, as, has, rfl⟩

theorem entries_of_related {ms : List (String × Json)} {as : List (String × α)}
    (h : Members.Related (fun j a => ∀ place, read j place = .ok a) ms as) :
    entries read place ms = .ok as :=
  entries_eq_ok_iff.mpr (h.imp fun _ _ h => ⟨h.1, h.2 _⟩)

theorem related_of_entries {ms : List (String × Json)} {as : List (String × α)}
    (h : entries read place ms = .ok as) :
    Members.Related (fun j a => ∃ place, read j place = .ok a) ms as :=
  (entries_eq_ok_iff.mp h).imp fun _ _ h => ⟨h.1, _, h.2⟩

section Read

variable {j : Json}

theorem string_eq_ok_iff {s : String} : string j place = .ok s ↔ j = .string s := by
  cases j <;> simp [string, mismatch]

theorem bool_eq_ok_iff {b : Bool} : bool j place = .ok b ↔ j = .bool b := by
  cases j <;> simp [bool, mismatch]

theorem null_eq_ok_iff {u : Unit} : null j place = .ok u ↔ j = .null := by
  cases j <;> simp [null, mismatch]

theorem integer_eq_ok_iff {fits : Int → Bool} {expected : Expected} {i : Int} :
    integer fits expected j place = .ok i ↔ ∃ n, j = .number n ∧ n.toInt? = some i ∧ fits i := by
  cases j with
  | number n =>
    cases hn : n.toInt? with
    | none => simp [integer, mismatch, hn]
    | some k =>
      by_cases hk : fits k
      · have : k = i → fits i := fun h => h ▸ hk
        simpa [integer, hn, hk] using this
      · have : k = i → fits i = false := fun h => by simpa [h] using hk
        simpa [integer, mismatch, hn, hk] using this
  | _ => simp [integer, mismatch]

theorem unsigned_eq_ok_iff {w : IntWidth} {n : Nat} :
    unsigned w j place = .ok n ↔
      ∃ m, j = .number m ∧ m.toInt? = some (n : Int) ∧ w.fitsUnsigned n := by
  simp only [unsigned, map_eq_ok, integer_eq_ok_iff]
  constructor
  · rintro ⟨i, ⟨m, rfl, hm, hi⟩, rfl⟩
    have h0 : 0 ≤ i := by
      simp only [IntWidth.fitsUnsigned, Bool.and_eq_true, decide_eq_true_eq] at hi
      exact hi.1
    rw [Int.toNat_of_nonneg h0]
    exact ⟨m, rfl, hm, hi⟩
  · rintro ⟨m, rfl, hm, hi⟩
    exact ⟨n, ⟨m, rfl, hm, hi⟩, Int.toNat_natCast n⟩

theorem seq_eq_ok_iff {as : List α} :
    seq read j place = .ok as ↔ ∃ js, j = .array js ∧ items read place 0 js = .ok as := by
  cases j <;> simp [seq, mismatch]

theorem map_eq_ok_iff {as : List (String × α)} :
    map read j place = .ok as ↔
      ∃ ms es, j = .object ms ∧ entries read place ms = .ok es ∧ Members.sorted es = as := by
  cases j <;> simp [map, mismatch, map_eq_ok]

theorem array_eq_ok_iff {n : Nat} {js : List Json} :
    array n j = .ok js ↔ j = .array js ∧ js.length = n := by
  cases j with
  | array ks =>
    by_cases h : ks.length = n
    · have : ks = js → js.length = n := fun he => he ▸ h
      simpa [array, h] using this
    · have : ks = js → js.length ≠ n := fun he => he ▸ h
      simpa [array, h] using this
  | _ => simp [array, mismatch]

theorem object_eq_ok_iff {ms : List (String × Json)} : object j = .ok ms ↔ j = .object ms := by
  cases j <;> simp [object, mismatch]

end Read

theorem field_eq_ok_iff {ms : List (String × Json)} {name : String} {j : Json} :
    field ms name = .ok j ↔ Members.get? name ms = some j := by
  cases h : Members.get? name ms <;> simp [field, h]

section Error

variable {j : Json} {e : DecodeError}

theorem items_eq_error {js : List Json} {i : Nat} (h : items read place i js = .error e) :
    ∃ n k, js[n]? = some k ∧ read k (.element place (i + n)) = .error e := by
  induction js generalizing i with
  | nil => cases h
  | cons j js ih =>
    rcases bind_eq_error.mp h with hj | ⟨a, -, h⟩
    · exact ⟨0, j, rfl, hj⟩
    · rcases bind_eq_error.mp h with hjs | ⟨as, -, h⟩
      · obtain ⟨n, k, hk, hn⟩ := ih hjs
        exact ⟨n + 1, k, hk, by rwa [Nat.add_right_comm] at hn⟩
      · cases h

theorem entries_eq_error {ms : List (String × Json)} (h : entries read place ms = .error e) :
    ∃ key k, (key, k) ∈ ms ∧ read k (.entry place key) = .error e := by
  induction ms with
  | nil => cases h
  | cons m ms ih =>
    rcases bind_eq_error.mp h with hm | ⟨a, -, h⟩
    · exact ⟨m.1, m.2, List.mem_cons_self, hm⟩
    · rcases bind_eq_error.mp h with hms | ⟨as, -, h⟩
      · obtain ⟨key, k, hk, hr⟩ := ih hms
        exact ⟨key, k, List.mem_cons_of_mem _ hk, hr⟩
      · cases h

theorem string_eq_error (h : string j place = .error e) :
    ¬Expected.string.Holds j ∧ e = .typeMismatch place .string := by
  cases j with
  | string s => cases h
  | _ => exact ⟨nofun, (Except.error.inj h).symm⟩

theorem bool_eq_error (h : bool j place = .error e) :
    ¬Expected.boolean.Holds j ∧ e = .typeMismatch place .boolean := by
  cases j with
  | bool b => cases h
  | _ => exact ⟨nofun, (Except.error.inj h).symm⟩

theorem null_eq_error (h : null j place = .error e) :
    ¬Expected.null.Holds j ∧ e = .typeMismatch place .null := by
  cases j with
  | null => cases h
  | _ => exact ⟨nofun, (Except.error.inj h).symm⟩

theorem integer_eq_error {fits : Int → Bool} {expected : Expected}
    (h : integer fits expected j place = .error e) :
    (¬∃ n i, j = .number n ∧ n.toInt? = some i ∧ fits i) ∧ e = .typeMismatch place expected := by
  constructor
  · rintro ⟨n, i, hj⟩
    rw [integer_eq_ok_iff.mpr ⟨n, hj⟩] at h
    cases h
  · simp only [integer, mismatch] at h
    split at h
    · split at h
      · split at h
        · cases h
        · exact (Except.error.inj h).symm
      · exact (Except.error.inj h).symm
    · exact (Except.error.inj h).symm

theorem signed_eq_error {w : IntWidth} (h : signed w j place = .error e) :
    ¬(Expected.signed w.bits).Holds j ∧ e = .typeMismatch place (.signed w.bits) := by
  have he := integer_eq_error h
  simp only [IntWidth.fitsSigned_iff] at he
  exact he

theorem unsigned_eq_error {w : IntWidth} (h : unsigned w j place = .error e) :
    ¬(Expected.unsigned w.bits).Holds j ∧ e = .typeMismatch place (.unsigned w.bits) := by
  have he := integer_eq_error (Outcome.map_eq_error.mp h)
  simp only [IntWidth.fitsUnsigned_iff] at he
  exact he

theorem seq_eq_error (h : seq read j place = .error e) :
    ¬Expected.array.Holds j ∧ e = .typeMismatch place .array ∨
      ∃ js n k, j = .array js ∧ js[n]? = some k ∧ read k (.element place n) = .error e := by
  cases j with
  | array js =>
    obtain ⟨n, k, hk, hn⟩ := items_eq_error h
    exact .inr ⟨js, n, k, rfl, hk, by rwa [Nat.zero_add] at hn⟩
  | _ => exact .inl ⟨nofun, (Except.error.inj h).symm⟩

theorem map_eq_error (h : map read j place = .error e) :
    ¬Expected.object.Holds j ∧ e = .typeMismatch place .object ∨
      ∃ ms key k, j = .object ms ∧ (key, k) ∈ ms ∧ read k (.entry place key) = .error e := by
  cases j with
  | object ms =>
    obtain ⟨key, k, hk, hr⟩ := entries_eq_error (Outcome.map_eq_error.mp h)
    exact .inr ⟨ms, key, k, rfl, hk, hr⟩
  | _ => exact .inl ⟨nofun, (Except.error.inj h).symm⟩

theorem array_eq_error {n : Nat} (h : array n j = .error e) :
    ¬Expected.array.Holds j ∧ e = .typeMismatch .payload .array ∨
      ∃ js, j = .array js ∧ e = .arityMismatch n js.length := by
  cases j with
  | array js =>
    simp only [array] at h
    split at h
    · cases h
    · exact .inr ⟨js, rfl, (Except.error.inj h).symm⟩
  | _ => exact .inl ⟨nofun, (Except.error.inj h).symm⟩

theorem object_eq_error (h : object j = .error e) :
    ¬Expected.object.Holds j ∧ e = .typeMismatch .payload .object := by
  cases j with
  | object ms => cases h
  | _ => exact ⟨nofun, (Except.error.inj h).symm⟩

theorem field_eq_error {ms : List (String × Json)} {name : String}
    (h : field ms name = .error e) : e = .missingField name := by
  simp only [field] at h
  split at h
  · cases h
  · exact (Except.error.inj h).symm

end Error

end Slot

end TaggedSum
