import Mathlib.Data.List.Forall2
import Mathlib.Data.List.Nodup

namespace TaggedSum.Lists

variable {α β : Type} {r : α → β → Prop} {as : List α} {bs : List β}

theorem exists_of_mem_left {a : α} (h : List.Forall₂ r as bs) (ha : a ∈ as) :
    ∃ b ∈ bs, r a b := by
  induction h with
  | nil => cases ha
  | cons h _ ih =>
    rcases List.mem_cons.mp ha with rfl | ha
    · exact ⟨_, List.mem_cons_self, h⟩
    · obtain ⟨b, hb, hab⟩ := ih ha
      exact ⟨b, List.mem_cons_of_mem _ hb, hab⟩

theorem exists_of_mem_right {b : β} (h : List.Forall₂ r as bs) (hb : b ∈ bs) :
    ∃ a ∈ as, r a b :=
  exists_of_mem_left h.flip hb

theorem exists_of_getElem? {n : Nat} {a : α} (h : List.Forall₂ r as bs) (ha : as[n]? = some a) :
    ∃ b, bs[n]? = some b ∧ r a b := by
  induction h generalizing n with
  | nil => simp at ha
  | cons h _ ih =>
    cases n with
    | zero =>
      cases ha
      exact ⟨_, rfl, h⟩
    | succ n => exact ih ha

theorem rel_of_getElem? {n : Nat} {a : α} {b : β} (h : List.Forall₂ r as bs)
    (ha : as[n]? = some a) (hb : bs[n]? = some b) : r a b := by
  obtain ⟨c, hc, hac⟩ := exists_of_getElem? h ha
  exact Option.some.inj (hc.symm.trans hb) ▸ hac

/-- Another element in the place of one. -/
theorem forall₂_replace {r : α → α → Prop} (hr : ∀ a, r a a) {a b : α} (hab : r a b)
    (cs ds : List α) : List.Forall₂ r (cs ++ a :: ds) (cs ++ b :: ds) := by
  induction cs with
  | nil => exact .cons hab (List.forall₂_same.mpr fun a _ => hr a)
  | cons c cs ih => exact .cons (hr c) ih

/-- Another last element in the place of one. -/
theorem forall₂_concat {b b' : β} (h : List.Forall₂ r as (bs ++ [b]))
    (hb : ∀ a, r a b → r a b') : List.Forall₂ r as (bs ++ [b']) := by
  induction bs generalizing as with
  | nil =>
    obtain ⟨a, as', ha, has, rfl⟩ := List.forall₂_cons_right_iff.mp h
    exact .cons (hb a ha) has
  | cons c bs ih =>
    obtain ⟨a, as', ha, has, rfl⟩ := List.forall₂_cons_right_iff.mp h
    exact .cons ha (ih has)

theorem exists_forall₂ (h : ∀ a ∈ as, ∃ b, r a b) : ∃ bs, List.Forall₂ r as bs := by
  induction as with
  | nil => exact ⟨[], .nil⟩
  | cons a as ih =>
    obtain ⟨b, hb⟩ := h a List.mem_cons_self
    obtain ⟨bs, hbs⟩ := ih fun a ha => h a (List.mem_cons_of_mem _ ha)
    exact ⟨b :: bs, .cons hb hbs⟩

theorem exists_getElem? {n : Nat} {a : α} (hl : as.length = bs.length) (ha : as[n]? = some a) :
    ∃ b, bs[n]? = some b := by
  have hn : n < bs.length := hl ▸ (List.getElem?_eq_some_iff.mp ha).1
  exact ⟨bs[n], List.getElem?_eq_getElem hn⟩

/-- Another element in the place of one is found at its index. -/
theorem getElem?_replace (n : Nat) (as bs : List α) (a b : α) :
    (as ++ a :: bs)[n]? = (as ++ b :: bs)[n]? ∨
      n = as.length ∧ (as ++ a :: bs)[n]? = some a ∧ (as ++ b :: bs)[n]? = some b := by
  induction as generalizing n with
  | nil =>
    cases n with
    | zero => exact .inr ⟨rfl, rfl, rfl⟩
    | succ n => exact .inl rfl
  | cons c as ih =>
    cases n with
    | zero => exact .inl rfl
    | succ n => simpa using ih n

/-- What each related pair has a common image for, the lists have a list of common images for. -/
theorem exists_common {γ : Type} {q : α → γ → Prop} {q' : β → γ → Prop}
    (h : List.Forall₂ r as bs) (hr : ∀ a b, r a b → ∃ c, q a c ∧ q' b c) :
    ∃ cs, List.Forall₂ q as cs ∧ List.Forall₂ q' bs cs := by
  induction h with
  | nil => exact ⟨[], .nil, .nil⟩
  | cons h _ ih =>
    obtain ⟨c, hc, hc'⟩ := hr _ _ h
    obtain ⟨cs, hcs, hcs'⟩ := ih
    exact ⟨c :: cs, .cons hc hcs, .cons hc' hcs'⟩

/-- What exists for the elements at each index, two lists of one length have a list of. -/
theorem exists_forall₃ {γ : Type} {q : α → β → γ → Prop} (hl : as.length = bs.length)
    (h : ∀ (n : Nat) (a : α) (b : β), as[n]? = some a → bs[n]? = some b → ∃ c, q a b c) :
    ∃ cs : List γ, as.length = cs.length ∧ ∀ (n : Nat) (a : α) (b : β) (c : γ),
      as[n]? = some a → bs[n]? = some b → cs[n]? = some c → q a b c := by
  have hm : ∀ m ∈ as.zip bs, ∃ c, q m.1 m.2 c := by
    intro m hm
    obtain ⟨n, hn⟩ := List.mem_iff_getElem?.mp hm
    obtain ⟨ha, hb⟩ := List.getElem?_zip_eq_some.mp hn
    exact h n m.1 m.2 ha hb
  obtain ⟨cs, hcs⟩ := exists_forall₂ hm
  refine ⟨cs, ?_, fun n a b c ha hb hc => ?_⟩
  · rw [← hcs.length_eq, List.length_zip, ← hl, Nat.min_self]
  · have hab : (as.zip bs)[n]? = some (a, b) := List.getElem?_zip_eq_some.mpr ⟨ha, hb⟩
    exact rel_of_getElem? (r := fun m c => q m.1 m.2 c) hcs hab hc

theorem mapM_eq_some {f : α → Option β} (h : List.Forall₂ (fun a b => f a = some b) as bs) :
    as.mapM f = some bs := by
  induction h with
  | nil => rfl
  | cons h _ ih => simp [List.mapM_cons, h, ih]

/-- Lists of one length are related if their elements are. -/
theorem forall₂_of_getElem? (hl : as.length = bs.length)
    (h : ∀ (n : Nat) (a : α) (b : β), as[n]? = some a → bs[n]? = some b → r a b) :
    List.Forall₂ r as bs := by
  induction as generalizing bs with
  | nil =>
    rw [List.length_eq_zero_iff.mp hl.symm]
    exact .nil
  | cons a as ih =>
    cases bs with
    | nil => cases hl
    | cons b bs =>
      exact .cons (h 0 a b rfl rfl) (ih (Nat.succ.inj hl) fun n => h (n + 1))

theorem eq_of_getElem? {cs : List α} (hl : as.length = cs.length)
    (h : ∀ (n : Nat) (a c : α), as[n]? = some a → cs[n]? = some c → a = c) : as = cs := by
  have := forall₂_of_getElem? hl h
  rwa [List.forall₂_eq_eq_eq] at this

theorem find?_of_nodup {κ : Type} [DecidableEq κ] {f : α → κ} {a : α} (hn : (as.map f).Nodup)
    (ha : a ∈ as) : as.find? (fun x => f x = f a) = some a := by
  obtain ⟨b, hb⟩ : ∃ b, as.find? (fun x => f x = f a) = some b :=
    Option.isSome_iff_exists.mp (List.find?_isSome.mpr ⟨a, ha, by simp⟩)
  have hf : f b = f a := by simpa using List.find?_some hb
  rw [hb, List.inj_on_of_nodup_map hn (List.mem_of_find?_eq_some hb) ha hf]

/-- An element keeps its index where none of those in front of it is filtered out. -/
theorem getElem?_filter_iff {p : α → Bool} {cs : List α} {a : α} (hn : (as ++ a :: cs).Nodup)
    (ha : p a = true) :
    ((as ++ a :: cs).filter p)[as.length]? = some a ↔ ∀ b ∈ as, p b = true := by
  have hnd := hn.filter p
  rw [List.filter_append, List.filter_cons_of_pos ha] at hnd ⊢
  have hat : (as.filter p ++ a :: cs.filter p)[(as.filter p).length]? = some a := by simp
  rw [← List.length_filter_eq_length_iff]
  constructor
  · intro h
    have hlt := (List.getElem?_eq_some_iff.mp hat).1
    exact (List.getElem?_inj hlt hnd).mp (hat.trans h.symm)
  · intro h
    rwa [h] at hat

/-- A list up to its first element that fails a test, if there is one. -/
theorem exists_split (p : α → Bool) (as : List α) : ∃ bs, (∀ b ∈ bs, p b = true) ∧
    (bs = as ∨ ∃ c cs, as = bs ++ c :: cs ∧ p c = false) := by
  refine ⟨as.takeWhile p, List.all_eq_true.mp List.all_takeWhile, ?_⟩
  have has : as.takeWhile p ++ as.dropWhile p = as := List.takeWhile_append_dropWhile
  cases hd : as.dropWhile p with
  | nil =>
    rw [hd, List.append_nil] at has
    exact .inl has
  | cons c cs =>
    refine .inr ⟨c, cs, by rw [← hd, has], ?_⟩
    have hc := List.head?_dropWhile_not p as
    rwa [hd] at hc

theorem forall_zipWith {γ : Type} {f : α → β → γ} {P : γ → Prop}
    (h : ∀ a ∈ as, ∀ b ∈ bs, P (f a b)) : ∀ x ∈ List.zipWith f as bs, P x := by
  rw [← List.map_uncurry_zip_eq_zipWith, List.forall_mem_map]
  rintro ⟨a, b⟩ hm
  exact h a (List.of_mem_zip hm).1 b (List.of_mem_zip hm).2

end TaggedSum.Lists
