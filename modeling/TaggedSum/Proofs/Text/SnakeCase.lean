import Mathlib.Data.List.Chain
import TaggedSum.Proofs.Text.Identifier

namespace TaggedSum.Text

/-- An ASCII capital. -/
def Capital (c : Char) : Prop := 'A' ≤ c ∧ c ≤ 'Z'

/-- What may stand behind a character in snake case. -/
def Parted (a b : Char) : Prop := isUppercase b → a = '_'

/-- A text in snake case. -/
structure Snaked (cs : List Char) : Prop where
  lowered : ∀ c ∈ cs, ¬Capital c
  parted : cs.IsChain Parted

variable {c last : Char} {cs : List Char}

theorem toLower_eq_self_iff : c.toLower = c ↔ ¬Capital c := by
  constructor
  · intro h hc
    have ht := toNat_toLower hc
    rw [h] at ht
    omega
  · exact fun h => dif_neg h

theorem range_of_isLower (h : c.isLower) : 'a' ≤ c ∧ c ≤ 'z' :=
  (Bool.and_eq_true_iff.mp h).imp of_decide_eq_true of_decide_eq_true

theorem not_capital_of_isLower (h : c.isLower) : ¬Capital c := by
  rintro ⟨-, hZ⟩
  exact absurd (Char.le_trans (range_of_isLower h).1 hZ) (by decide)

theorem not_capital_toLower (c : Char) : ¬Capital c.toLower := by
  rcases toLower_cases c with h | h
  · exact not_capital_of_isLower h
  · rw [h]
    exact toLower_eq_self_iff.mp h

/-- Where a lowered character is a capital, nothing was lowered. -/
theorem isUppercase_of_toLower (h : isUppercase c.toLower) : isUppercase c := by
  rcases toLower_cases c with hc | hc
  · have hn : c.toLower.toNat < 0x80 :=
      Nat.lt_of_le_of_lt (UInt32.le_iff_toNat_le.mp (range_of_isLower hc).2) (by decide)
    rw [isUppercase, if_pos hn, Bool.and_eq_true, decide_eq_true_eq, decide_eq_true_eq] at h
    exact absurd h (not_capital_of_isLower hc)
  · rwa [hc] at h

theorem snakeFrom_cons_of_parted (h : Parted last c) :
    snakeFrom last (c :: cs) = c.toLower :: snakeFrom c.toLower cs := by
  refine if_neg fun hu => ?_
  rw [Bool.and_eq_true, bne_iff_ne] at hu
  exact hu.2 (h hu.1)

theorem snakeFrom_cons_of_not_parted (h : ¬Parted last c) :
    snakeFrom last (c :: cs) = '_' :: c.toLower :: snakeFrom c.toLower cs := by
  refine if_pos ?_
  rw [Bool.and_eq_true, bne_iff_ne]
  exact Classical.not_imp.mp h

/-- Behind what has been written, exactly the texts in snake case are kept. -/
theorem snakeFrom_eq_self_iff :
    snakeFrom last cs = cs ↔ (∀ c ∈ cs, ¬Capital c) ∧ (last :: cs).IsChain Parted := by
  induction cs generalizing last with
  | nil => exact iff_of_true rfl ⟨List.forall_mem_nil _, .singleton last⟩
  | cons c cs ih =>
    rw [List.forall_mem_cons, List.isChain_cons_cons, ← toLower_eq_self_iff]
    by_cases hp : Parted last c
    · rw [snakeFrom_cons_of_parted hp, List.cons.injEq]
      constructor
      · rintro ⟨hc, hcs⟩
        rw [hc] at hcs
        obtain ⟨hall, hchain⟩ := ih.mp hcs
        exact ⟨⟨hc, hall⟩, hp, hchain⟩
      · rintro ⟨⟨hc, hall⟩, -, hchain⟩
        rw [hc]
        exact ⟨rfl, ih.mpr ⟨hall, hchain⟩⟩
    · rw [snakeFrom_cons_of_not_parted hp]
      refine iff_of_false (fun h => ?_) fun h => hp h.2.1
      -- an underscore is no capital, so none is put in front of it
      obtain rfl := (List.cons.inj h).1
      exact hp nofun

theorem snake_eq_self_iff : snake cs = cs ↔ Snaked cs := by
  cases cs with
  | nil => exact iff_of_true rfl ⟨List.forall_mem_nil _, .nil⟩
  | cons c cs =>
    rw [snake, List.cons.injEq]
    constructor
    · rintro ⟨hc, hcs⟩
      rw [hc] at hcs
      obtain ⟨hall, hchain⟩ := snakeFrom_eq_self_iff.mp hcs
      exact ⟨List.forall_mem_cons.mpr ⟨toLower_eq_self_iff.mp hc, hall⟩, hchain⟩
    · rintro ⟨hall, hchain⟩
      rw [List.forall_mem_cons, ← toLower_eq_self_iff] at hall
      rw [hall.1]
      exact ⟨rfl, snakeFrom_eq_self_iff.mpr ⟨hall.2, hchain⟩⟩

theorem not_capital_snakeFrom : ∀ d ∈ snakeFrom last cs, ¬Capital d := by
  induction cs generalizing last with
  | nil => exact List.forall_mem_nil _
  | cons c cs ih =>
    have htail : ∀ d ∈ c.toLower :: snakeFrom c.toLower cs, ¬Capital d :=
      List.forall_mem_cons.mpr ⟨not_capital_toLower c, ih⟩
    by_cases hp : Parted last c
    · rwa [snakeFrom_cons_of_parted hp]
    · rw [snakeFrom_cons_of_not_parted hp]
      exact List.forall_mem_cons.mpr ⟨by unfold Capital; decide, htail⟩

theorem isChain_snakeFrom : (last :: snakeFrom last cs).IsChain Parted := by
  induction cs generalizing last with
  | nil => exact .singleton last
  | cons c cs ih =>
    by_cases hp : Parted last c
    · rw [snakeFrom_cons_of_parted hp, List.isChain_cons_cons]
      exact ⟨fun h => hp (isUppercase_of_toLower h), ih⟩
    · rw [snakeFrom_cons_of_not_parted hp, List.isChain_cons_cons, List.isChain_cons_cons]
      exact ⟨nofun, fun _ => rfl, ih⟩

theorem snaked_snake (cs : List Char) : Snaked (snake cs) := by
  cases cs with
  | nil => exact ⟨List.forall_mem_nil _, .nil⟩
  | cons c cs =>
    exact ⟨List.forall_mem_cons.mpr ⟨not_capital_toLower c, not_capital_snakeFrom⟩,
      isChain_snakeFrom⟩

theorem snake_snake (cs : List Char) : snake (snake cs) = snake cs :=
  snake_eq_self_iff.mpr (snaked_snake cs)

-- Capitals in a row are words of their own; a letter beyond ASCII is parted but not lowered.
example : snakeCase "HTTPÉtat_Of" = "h_t_t_p_État_of" := by decide +kernel

theorem filter_lowered (cs : List Char) :
    (cs.map Char.toLower).filter (· != '_') = (cs.filter (· != '_')).map Char.toLower := by
  rw [List.filter_map]
  congr 1
  refine List.filter_congr fun c _ => ?_
  rw [Bool.eq_iff_iff, Function.comp_apply, bne_iff_ne, bne_iff_ne]
  exact not_congr toLower_eq_underscore_iff

theorem filter_snakeFrom :
    (snakeFrom last cs).filter (· != '_') = (cs.map Char.toLower).filter (· != '_') := by
  induction cs generalizing last with
  | nil => rfl
  | cons c cs ih =>
    have htail : (c.toLower :: snakeFrom c.toLower cs).filter (· != '_') =
        ((c :: cs).map Char.toLower).filter (· != '_') := by
      rw [List.map_cons, List.filter_cons, List.filter_cons, ih]
    by_cases hp : Parted last c
    · rw [snakeFrom_cons_of_parted hp, htail]
    · rw [snakeFrom_cons_of_not_parted hp, List.filter_cons_of_neg (by decide), htail]

theorem filter_snake (cs : List Char) :
    (snake cs).filter (· != '_') = (cs.filter (· != '_')).map Char.toLower := by
  rw [← filter_lowered]
  cases cs with
  | nil => rfl
  | cons c cs => rw [snake, List.map_cons, List.filter_cons, List.filter_cons, filter_snakeFrom]

theorem sublist_snakeFrom : (cs.map Char.toLower).Sublist (snakeFrom last cs) := by
  induction cs generalizing last with
  | nil => exact .slnil
  | cons c cs ih =>
    by_cases hp : Parted last c
    · rw [snakeFrom_cons_of_parted hp]
      exact ih.cons_cons _
    · rw [snakeFrom_cons_of_not_parted hp]
      exact (ih.cons_cons _).cons _

/-- Underscores that a text has are kept in their places. -/
theorem sublist_snake (cs : List Char) : (cs.map Char.toLower).Sublist (snake cs) := by
  cases cs with
  | nil => exact .slnil
  | cons c cs => exact sublist_snakeFrom.cons_cons _

/-- What handlers are called: an identifier with a small letter in front and without capitals, which
is not the name of the marker that handler sets have. -/
structure HandlerName (s : String) : Prop where
  identifier : Identifier s
  head : ∃ c, s.toList.head? = some c ∧ 'a' ≤ c ∧ c ≤ 'z'
  lowered : ∀ c ∈ s.toList, ¬Capital c
  ne_marker : s ≠ "_marker"

theorem Letter.toLower (h : Letter c) : 'a' ≤ c.toLower ∧ c.toLower ≤ 'z' := by
  rcases toLower_cases c with hc | hc
  · exact range_of_isLower hc
  · rw [hc]
    exact h.resolve_left (toLower_eq_self_iff.mp hc)

theorem MemberName.handlerName {s : String} (h : MemberName s) : HandlerName (snakeCase s) := by
  have hl : (snakeCase s).toList = snake s.toList := String.toList_ofList
  have hc : Continues (snakeCase s) :=
    (continues_of_isMemberName (isMemberName_iff.mpr h)).snakeCase
  have hhead : ∃ c, (snakeCase s).toList.head? = some c ∧ 'a' ≤ c ∧ c ≤ 'z' := by
    obtain ⟨c, hs, hletter⟩ := h.head
    obtain ⟨cs, hcs⟩ := List.head?_eq_some_iff.mp hs
    refine ⟨c.toLower, ?_, hletter.toLower⟩
    rw [hl, hcs]
    rfl
  -- no text that starts with a small letter is one that starts with an underscore
  have hne : ∀ t : String, t.toList.head? = some '_' → snakeCase s ≠ t := by
    rintro _ ht rfl
    obtain ⟨c, hs, ha, -⟩ := hhead
    rw [ht] at hs
    obtain rfl := Option.some.inj hs
    exact absurd ha (by decide)
  obtain ⟨c, hs, hrange⟩ := hhead
  constructor
  case identifier =>
    exact ⟨⟨c, hs, .inl (.inr hrange)⟩, fun d hd => continuesName_iff.mp (hc.continuesName d hd),
      hne "_" rfl⟩
  case head => exact ⟨c, hs, hrange⟩
  case lowered =>
    rw [hl]
    exact (snaked_snake s.toList).lowered
  case ne_marker => exact hne "_marker" rfl

end TaggedSum.Text
