import Mathlib.Data.List.Induction
import TaggedSum.Members
import TaggedSum.Proofs.Lists

namespace TaggedSum.Members

variable {α β : Type} {ms : List (String × α)} {name : String} {a : α}

/-- The names strictly ascend, so none is repeated. -/
def Ascending (ms : List (String × α)) : Prop := (names ms).Pairwise (· < ·)

/-- Two lists with the same names in the same order, and related members under them. -/
def Related (r : α → β → Prop) : List (String × α) → List (String × β) → Prop :=
  List.Forall₂ fun m n => m.1 = n.1 ∧ r m.2 n.2

@[simp] theorem names_nil : names ([] : List (String × α)) = [] := rfl

@[simp] theorem names_cons (m : String × α) : names (m :: ms) = m.1 :: names ms := rfl

theorem mem_names_of_mem (h : (name, a) ∈ ms) : name ∈ names ms :=
  List.mem_map.mpr ⟨_, h, rfl⟩

theorem exists_of_mem_names (h : name ∈ names ms) : ∃ a, (name, a) ∈ ms := by
  obtain ⟨⟨k, a⟩, hm, rfl⟩ := List.mem_map.mp h
  exact ⟨a, hm⟩

theorem names_related {r : α → β → Prop} {ns : List (String × β)} (h : Related r ms ns) :
    names ms = names ns := by
  induction h with
  | nil => rfl
  | cons h _ ih => simp [h.1, ih]

theorem length_eq_of_names {ns : List (String × β)} (hn : names ms = names ns) :
    ms.length = ns.length := by
  simpa [names] using congrArg List.length hn

theorem names_filter (q : String → Bool) :
    names (ms.filter fun m => q m.1) = (names ms).filter q :=
  List.filter_map.symm

theorem eq_singleton_of_names (h : names ms = [name]) : ∃ a, ms = [(name, a)] := by
  obtain ⟨⟨k, a⟩, rfl, rfl⟩ := List.map_eq_singleton_iff.mp h
  exact ⟨a, rfl⟩

theorem related_of_getElem? {r : α → β → Prop} {ns : List (String × β)} (hn : names ms = names ns)
    (h : ∀ (i : Nat) (m : String × α) (n : String × β), ms[i]? = some m → ns[i]? = some n →
      r m.2 n.2) : Related r ms ns := by
  refine Lists.forall₂_of_getElem? (length_eq_of_names hn) fun i m n hm hk => ⟨?_, h i m n hm hk⟩
  have hi := congrArg (·[i]?) hn
  simpa [names, hm, hk] using hi

theorem eq_of_names {ns : List (String × α)} (hn : names ms = names ns)
    (h : ∀ (i : Nat) (m n : String × α), ms[i]? = some m → ns[i]? = some n → m.2 = n.2) :
    ms = ns := by
  have hr : List.Forall₂ (· = ·) ms ns :=
    (related_of_getElem? hn h : Related (· = ·) ms ns).imp fun _ _ h => Prod.ext h.1 h.2
  rwa [List.forall₂_eq_eq_eq] at hr

theorem mem_of_get? (h : get? name ms = some a) : (name, a) ∈ ms := by
  induction ms with
  | nil => simp [get?] at h
  | cons m ms ih =>
    obtain ⟨k, b⟩ := m
    by_cases hk : k = name
    · simp only [get?, if_pos hk, Option.some.injEq] at h
      simp [hk, h]
    · simp only [get?, if_neg hk] at h
      exact List.mem_cons_of_mem _ (ih h)

theorem get?_eq_none_iff : get? name ms = none ↔ name ∉ names ms := by
  induction ms with
  | nil => simp [get?]
  | cons m ms ih =>
    obtain ⟨k, b⟩ := m
    by_cases hk : k = name
    · simp [get?, hk]
    · simp [get?, hk, ih, Ne.symm hk]

theorem get?_of_mem_names (h : name ∈ names ms) : ∃ a, get? name ms = some a := by
  apply Option.ne_none_iff_exists'.mp
  intro hn
  exact get?_eq_none_iff.mp hn h

theorem get?_of_mem (hn : (names ms).Nodup) (h : (name, a) ∈ ms) : get? name ms = some a := by
  induction ms with
  | nil => simp at h
  | cons m ms ih =>
    obtain ⟨k, b⟩ := m
    obtain ⟨hk, hn⟩ := List.nodup_cons.mp hn
    rcases List.mem_cons.mp h with h | h
    · obtain ⟨rfl, rfl⟩ := Prod.mk.inj h
      simp [get?]
    · have : k ≠ name := fun he => hk (he ▸ mem_names_of_mem h)
      simp [get?, this, ih hn h]

theorem eq_of_mem (hn : (names ms).Nodup) {b : α} (h : (name, a) ∈ ms) (h' : (name, b) ∈ ms) :
    a = b :=
  Option.some.inj ((get?_of_mem hn h).symm.trans (get?_of_mem hn h'))

theorem get?_append (ms ns : List (String × α)) :
    get? name (ms ++ ns) = (get? name ms).or (get? name ns) := by
  induction ms with
  | nil => rfl
  | cons m ms ih =>
    obtain ⟨k, b⟩ := m
    by_cases hk : k = name
    · simp [get?, hk]
    · simp [get?, hk, ih]

/-- Another member in the place of one of the same name is found where that one was. -/
theorem get?_replace (name key : String) (ms ns : List (String × α)) (a b : α) :
    get? name (ms ++ (key, a) :: ns) = get? name (ms ++ (key, b) :: ns) ∨
      key = name ∧ get? name (ms ++ (key, a) :: ns) = some a ∧
        get? name (ms ++ (key, b) :: ns) = some b := by
  simp only [get?_append, get?]
  by_cases hk : key = name
  · cases get? name ms with
    | none => exact .inr ⟨hk, by simp [hk], by simp [hk]⟩
    | some c => exact .inl rfl
  · exact .inl (by simp [hk])

theorem get?_of_related {r : α → β → Prop} {ns : List (String × β)} (h : Related r ms ns)
    (ha : get? name ms = some a) : ∃ b, get? name ns = some b ∧ r a b := by
  induction h with
  | nil => cases ha
  | @cons m n _ _ h _ ih =>
    obtain ⟨k, c⟩ := m
    obtain ⟨l, d⟩ := n
    obtain ⟨rfl, hcd⟩ := h
    by_cases hk : k = name
    · simp only [get?, if_pos hk, Option.some.injEq] at ha ⊢
      exact ⟨d, rfl, ha ▸ hcd⟩
    · simp only [get?, if_neg hk] at ha ⊢
      exact ih ha

theorem set_of_not_mem (h : name ∉ names ms) : set name a ms = ms ++ [(name, a)] := by
  induction ms with
  | nil => rfl
  | cons m ms ih =>
    obtain ⟨k, b⟩ := m
    simp only [names_cons, List.mem_cons, not_or] at h
    simp only [set, if_neg (Ne.symm h.1), ih h.2, List.cons_append]

theorem names_set_of_mem (h : name ∈ names ms) : names (set name a ms) = names ms := by
  induction ms with
  | nil => cases h
  | cons m ms ih =>
    obtain ⟨k, b⟩ := m
    by_cases hk : k = name
    · simp only [set, if_pos hk, names_cons]
    · simp only [set, if_neg hk, names_cons]
      rw [ih ((List.mem_cons.mp h).resolve_left (Ne.symm hk))]

theorem merge_eq_self (h : (names ms).Nodup) : merge ms = ms := by
  suffices hacc : ∀ acc, (names (acc ++ ms)).Nodup →
      ms.foldl (fun ms m => set m.1 m.2 ms) acc = acc ++ ms from hacc [] h
  clear h
  induction ms with
  | nil => exact fun acc _ => (List.append_nil acc).symm
  | cons m ms ih =>
    intro acc h
    have hsplit : acc ++ m :: ms = acc ++ [m] ++ ms := by simp
    have hm : m.1 ∉ names acc := by
      intro hmem
      have := (List.nodup_append.mp (by simpa [names] using h)).2.2 _ hmem m.1 (by simp)
      exact this rfl
    rw [hsplit] at h ⊢
    rw [List.foldl_cons, set_of_not_mem hm]
    exact ih _ h

theorem get?_set (key : String) (a : α) (ms : List (String × α)) :
    get? name (set key a ms) = if key = name then some a else get? name ms := by
  induction ms with
  | nil => rfl
  | cons m ms ih =>
    obtain ⟨k, b⟩ := m
    by_cases hk : k = key
    · subst hk
      simp only [set, if_true, get?]
      by_cases hn : k = name <;> simp [hn]
    · simp only [set, if_neg hk, get?, ih]
      by_cases hn : k = name
      · simp [hn, show key ≠ name from fun he => hk (hn.trans he.symm)]
      · simp only [if_neg hn]

/-- The last member of a name. -/
def last? (name : String) (ms : List (String × α)) : Option α :=
  ((ms.filter (·.1 = name)).getLast?).map Prod.snd

theorem last?_concat (ms : List (String × α)) (m : String × α) :
    last? name (ms ++ [m]) = if m.1 = name then some m.2 else last? name ms := by
  by_cases h : m.1 = name <;> simp [last?, List.filter_append, h]

theorem last?_map (f : α → β) (name : String) (ms : List (String × α)) :
    last? name (ms.map fun m => (m.1, f m.2)) = (last? name ms).map f := by
  simp [last?, List.filter_map, List.getLast?_map, Function.comp_def]

/-- Merged members are found by the value given last. -/
theorem get?_merge (ms : List (String × α)) : get? name (merge ms) = last? name ms := by
  induction ms using List.reverseRecOn with
  | nil => rfl
  | append_singleton ms m ih =>
    rw [last?_concat, ← ih, merge, List.foldl_append, List.foldl_cons, List.foldl_nil, get?_set]
    rfl

theorem nodup_names_set (h : (names ms).Nodup) : (names (set name a ms)).Nodup := by
  by_cases hn : name ∈ names ms
  · rwa [names_set_of_mem hn]
  · rw [set_of_not_mem hn]
    simp only [names, List.map_append, List.map_cons, List.map_nil]
    exact List.nodup_append.mpr ⟨h, List.nodup_singleton _, fun n hm n' hn' he =>
      hn (List.mem_singleton.mp hn' ▸ he ▸ hm)⟩

theorem nodup_names_merge (ms : List (String × α)) : (names (merge ms)).Nodup := by
  suffices h : ∀ acc, (names acc).Nodup →
      (names (ms.foldl (fun ms m => set m.1 m.2 ms) acc)).Nodup from h [] .nil
  induction ms with
  | nil => exact fun _ h => h
  | cons m ms ih => exact fun acc h => ih _ (nodup_names_set h)

theorem mem_of_mem_set {m : String × α} (h : m ∈ set name a ms) : m = (name, a) ∨ m ∈ ms := by
  induction ms with
  | nil => exact .inl (List.mem_singleton.mp h)
  | cons k ms ih =>
    obtain ⟨k, b⟩ := k
    by_cases hk : k = name
    · simp only [set, if_pos hk] at h
      exact (List.mem_cons.mp h).imp (hk ▸ ·) (List.mem_cons_of_mem _)
    · simp only [set, if_neg hk] at h
      rcases List.mem_cons.mp h with rfl | h
      · exact .inr List.mem_cons_self
      · exact (ih h).imp_right (List.mem_cons_of_mem _)

/-- Setting members one by one makes none up. -/
theorem mem_of_mem_foldl {step : List (String × α) → String × α → List (String × α)}
    (hstep : ∀ acc m, ∀ k ∈ step acc m, k = m ∨ k ∈ acc) {acc : List (String × α)}
    {k : String × α} (h : k ∈ ms.foldl step acc) : k ∈ acc ∨ k ∈ ms := by
  induction ms generalizing acc with
  | nil => exact .inl h
  | cons m ms ih =>
    rcases ih h with h | h
    · rcases hstep acc m k h with rfl | h
      · exact .inr List.mem_cons_self
      · exact .inl h
    · exact .inr (List.mem_cons_of_mem _ h)

theorem mem_of_mem_merge {m : String × α} (h : m ∈ merge ms) : m ∈ ms :=
  (mem_of_mem_foldl (fun _ _ _ => mem_of_mem_set) h).resolve_left List.not_mem_nil

theorem Ascending.nodup (h : Ascending ms) : (names ms).Nodup :=
  h.imp String.ne_of_lt

theorem insert_perm (h : name ∉ names ms) : (insert name a ms).Perm ((name, a) :: ms) := by
  induction ms with
  | nil => exact .refl _
  | cons m ms ih =>
    obtain ⟨k, b⟩ := m
    simp only [names_cons, List.mem_cons, not_or] at h
    by_cases hlt : name < k
    · simp [insert, hlt]
    · simp only [insert, if_neg hlt, if_neg (Ne.symm h.1)]
      exact ((ih h.2).cons _).trans (.swap _ _ _)

theorem mem_names_insert {n : String} : n ∈ names (insert name a ms) ↔ n = name ∨ n ∈ names ms := by
  induction ms with
  | nil => simp [insert]
  | cons m ms ih =>
    obtain ⟨k, b⟩ := m
    by_cases hlt : name < k
    · simp [insert, hlt]
    · by_cases hk : k = name
      · subst hk
        simp [insert]
      · simp only [insert, if_neg hlt, if_neg hk, names_cons, List.mem_cons, ih]
        exact or_left_comm

theorem ascending_insert (h : Ascending ms) : Ascending (insert name a ms) := by
  induction ms with
  | nil => simp [insert, Ascending]
  | cons m ms ih =>
    obtain ⟨k, b⟩ := m
    obtain ⟨hk, hms⟩ := List.pairwise_cons.mp h
    by_cases hlt : name < k
    · simp only [insert, if_pos hlt]
      refine List.pairwise_cons.mpr ⟨?_, h⟩
      intro n hn
      rcases List.mem_cons.mp hn with rfl | hn
      · exact hlt
      · exact String.lt_trans hlt (hk n hn)
    · by_cases he : k = name
      · simp only [insert, if_neg hlt, if_pos he]
        exact h
      · simp only [insert, if_neg hlt, if_neg he]
        refine List.pairwise_cons.mpr ⟨?_, ih hms⟩
        intro n hn
        rcases mem_names_insert.mp hn with rfl | hn
        · exact Std.lt_of_le_of_ne (String.not_lt.mp hlt) he
        · exact hk n hn

theorem ascending_sorted (ms : List (String × α)) : Ascending (sorted ms) := by
  suffices h : ∀ acc, Ascending acc →
      Ascending (ms.foldl (fun ms m => insert m.1 m.2 ms) acc) from h [] List.Pairwise.nil
  induction ms with
  | nil => exact fun _ h => h
  | cons m ms ih => exact fun acc h => ih _ (ascending_insert h)

theorem sorted_perm (hn : (names ms).Nodup) : (sorted ms).Perm ms := by
  suffices h : ∀ acc, (names (acc ++ ms)).Nodup →
      (ms.foldl (fun ms m => insert m.1 m.2 ms) acc).Perm (acc ++ ms) from h [] hn
  clear hn
  induction ms with
  | nil => intro acc _; simp
  | cons m ms ih =>
    intro acc hn
    have hm : m.1 ∉ names acc := by
      intro h
      have := (List.nodup_append.mp (by simpa [names] using hn)).2.2 _ h m.1 (by simp)
      exact this rfl
    have hp : (insert m.1 m.2 acc ++ ms).Perm (acc ++ m :: ms) :=
      ((insert_perm hm).append_right ms).trans List.perm_middle.symm
    exact (ih _ ((hp.map Prod.fst).nodup_iff.mpr hn)).trans hp

theorem mem_of_mem_insert {m : String × α} (h : m ∈ insert name a ms) :
    m = (name, a) ∨ m ∈ ms := by
  induction ms with
  | nil => exact .inl (List.mem_singleton.mp h)
  | cons k ms ih =>
    obtain ⟨k, b⟩ := k
    by_cases hlt : name < k
    · simp only [insert, if_pos hlt] at h
      exact List.mem_cons.mp h
    · by_cases hk : k = name
      · simp only [insert, if_neg hlt, if_pos hk] at h
        rcases List.mem_cons.mp h with h | h
        · exact .inl (hk ▸ h)
        · exact .inr (List.mem_cons_of_mem _ h)
      · simp only [insert, if_neg hlt, if_neg hk] at h
        rcases List.mem_cons.mp h with h | h
        · exact .inr (h ▸ List.mem_cons_self)
        · exact (ih h).imp_right (List.mem_cons_of_mem _)

/-- Sorting makes no member up, even where names repeat. -/
theorem mem_of_mem_sorted {m : String × α} (h : m ∈ sorted ms) : m ∈ ms :=
  (mem_of_mem_foldl (fun _ _ _ => mem_of_mem_insert) h).resolve_left List.not_mem_nil

theorem mem_sorted (hn : (names ms).Nodup) {m : String × α} : m ∈ sorted ms ↔ m ∈ ms :=
  (sorted_perm hn).mem_iff

theorem mem_names_sorted (hn : (names ms).Nodup) {n : String} :
    n ∈ names (sorted ms) ↔ n ∈ names ms :=
  ((sorted_perm hn).map Prod.fst).mem_iff

theorem get?_sorted (hn : (names ms).Nodup) : get? name (sorted ms) = get? name ms := by
  cases h : get? name ms with
  | some a =>
    exact get?_of_mem (ascending_sorted ms).nodup ((mem_sorted hn).mpr (mem_of_get? h))
  | none =>
    rw [get?_eq_none_iff] at h ⊢
    rwa [mem_names_sorted hn]

theorem related_insert {r : α → β → Prop} {ns : List (String × β)} {b : β}
    (h : Related r ms ns) (hab : r a b) : Related r (insert name a ms) (insert name b ns) := by
  induction h with
  | nil => exact .cons ⟨rfl, hab⟩ .nil
  | @cons m n _ _ h hrest ih =>
    obtain ⟨k, c⟩ := m
    obtain ⟨l, d⟩ := n
    obtain ⟨rfl, hcd⟩ := h
    by_cases hlt : name < k
    · simp only [insert, if_pos hlt]
      exact .cons ⟨rfl, hab⟩ (.cons ⟨rfl, hcd⟩ hrest)
    · by_cases hk : k = name
      · simp only [insert, if_neg hlt, if_pos hk]
        exact .cons ⟨rfl, hab⟩ hrest
      · simp only [insert, if_neg hlt, if_neg hk]
        exact .cons ⟨rfl, hcd⟩ ih

theorem related_sorted {r : α → β → Prop} {ns : List (String × β)} (h : Related r ms ns) :
    Related r (sorted ms) (sorted ns) := by
  suffices hacc : ∀ acc acc', Related r acc acc' →
      Related r (ms.foldl (fun ms m => insert m.1 m.2 ms) acc)
        (ns.foldl (fun ms m => insert m.1 m.2 ms) acc') from hacc [] [] .nil
  induction h with
  | nil => exact fun _ _ h => h
  | @cons m n _ _ h _ ih =>
    obtain ⟨k, c⟩ := m
    obtain ⟨l, d⟩ := n
    obtain ⟨rfl, hcd⟩ := h
    exact fun acc acc' hacc => ih _ _ (related_insert hacc hcd)

/-- A list in ascending order is fixed by its members. -/
theorem eq_of_perm {ns : List (String × α)} (hms : Ascending ms) (hns : Ascending ns)
    (h : ms.Perm ns) : ms = ns := by
  have hlt {l : List (String × α)} (hl : Ascending l) : l.Pairwise (·.1 < ·.1) :=
    List.pairwise_map.mp hl
  refine h.eq_of_pairwise ?_ (hlt hms) (hlt hns)
  intro m n _ _ hmn hnm
  exact absurd hnm (String.lt_asymm hmn)

theorem sorted_eq_self (h : Ascending ms) : sorted ms = ms :=
  eq_of_perm (ascending_sorted ms) h (sorted_perm h.nodup)

/-- A list in ascending order is what its members sort to, wherever they are taken from. -/
theorem sorted_eq_of_get? {ns : List (String × α)} (hms : Ascending ms) (hns : (names ns).Nodup)
    (hn : ∀ n, n ∈ names ms ↔ n ∈ names ns) (h : ∀ n ∈ ns, get? n.1 ms = some n.2) :
    sorted ns = ms := by
  refine eq_of_perm (ascending_sorted ns) hms ((sorted_perm hns).trans ?_)
  refine (List.perm_ext_iff_of_nodup (List.Nodup.of_map Prod.fst hns)
    (List.Nodup.of_map Prod.fst hms.nodup)).mpr ?_
  rintro ⟨n, a⟩
  constructor
  · exact fun hm => mem_of_get? (h _ hm)
  · intro hm
    obtain ⟨b, hb⟩ := exists_of_mem_names ((hn n).mp (mem_names_of_mem hm))
    rwa [eq_of_mem hms.nodup hm (mem_of_get? (h _ hb))]

theorem eq_of_get? {ns : List (String × α)} (hms : Ascending ms) (hns : Ascending ns)
    (hn : ∀ n, n ∈ names ms ↔ n ∈ names ns)
    (h : ∀ n a b, get? n ms = some a → get? n ns = some b → a = b) : ms = ns := by
  rw [← sorted_eq_self hns]
  refine (sorted_eq_of_get? hms hns.nodup hn ?_).symm
  rintro ⟨n, b⟩ hb
  obtain ⟨a, ha⟩ := get?_of_mem_names ((hn n).mpr (mem_names_of_mem hb))
  rw [ha, h n a b ha (get?_of_mem hns.nodup hb)]

end TaggedSum.Members
