import Mathlib.Data.List.Forall2
import TaggedSum.Proofs.Emit.Unqualified
import TaggedSum.Proofs.Text.Literal
/-!
Emitted code is read for its text literals and for the arrows of its arms, line by line. What a piece
of code adds to the marks of its line does not depend on what stands around it, if it neither breaks
the line nor leaves a literal or an arrow open.
-/
namespace TaggedSum.Emit

/-- What code is read for: a literal, by the text it spells, or the arrow behind a pattern. -/
inductive Mark where
  | literal (s : String)
  | arrow
  deriving DecidableEq

/-- The marks on each line of code; what stands between them is passed over. -/
def markedLines? : List Char → Option (List (List Mark))
  | [] => some [[]]
  | c :: cs =>
    if c = '"' then
      match _ : Text.Literal.read? (c :: cs) with
      | some (s, rest) => (markedLines? rest).map (.modifyHead (.literal s :: ·))
      | none => none
    else if c = '\n' then (markedLines? cs).map ([] :: ·)
    else if c = '=' ∧ cs.head? = some '>' then
      (markedLines? cs).map (.modifyHead (.arrow :: ·))
    else markedLines? cs
termination_by cs => cs.length
decreasing_by
  · next h => exact Text.Literal.length_read? h
  all_goals exact Nat.lt_succ_self _

/-- The marks on the lines that have any. -/
def marked (text : String) : Option (List (List Mark)) :=
  (markedLines? text.toList).map (·.filter (!·.isEmpty))

/-- The text is in one line with whatever stands behind, and adds these marks to it. -/
def Holds (s : String) (ms : List Mark) : Prop :=
  ∀ rest, markedLines? (s.toList ++ rest) = (markedLines? rest).map (.modifyHead (ms ++ ·))

variable {s t w : String} {ms ns : List Mark} {a : List Char}

theorem Holds.append (hs : Holds s ms) (ht : Holds t ns) : Holds (s ++ t) (ms ++ ns) := by
  intro rest
  rw [String.toList_append, List.append_assoc, hs, ht, Option.map_map]
  simp only [Function.comp_def, List.modifyHead_modifyHead, List.append_assoc]

theorem holds_quoted (s : String) : Holds (Text.quoted s) [.literal s] := by
  intro rest
  have hread := (Text.Literal.denotes_quoted s).read?_append rest
  have hq : (Text.quoted s).toList ++ rest =
      '"' :: (Text.Quoted.escape s.toList ++ ['"'] ++ rest) := by
    simp [Text.quoted, Text.Quoted.encode]
  rw [hq] at hread ⊢
  rw [markedLines?, if_pos rfl]
  split
  · next h =>
    cases h.symm.trans hread
    rfl
  · next h => cases h.symm.trans hread

/-- The arrows in a text without literals that takes no more than a line, and does not end within
an arrow. -/
def arrows? : List Char → Option (List Mark)
  | [] => some []
  | c :: cs =>
    if c = '"' ∨ c = '\n' ∨ c = '=' ∧ cs.isEmpty then none
    else if c = '=' ∧ cs.head? = some '>' then (arrows? cs).map (.arrow :: ·)
    else arrows? cs

theorem holds_text (h : arrows? a = some ms) : Holds (.ofList a) ms := by
  intro rest
  rw [String.toList_ofList]
  induction a generalizing ms with
  | nil =>
    cases h
    have hid : List.modifyHead (([] : List Mark) ++ ·) = id := List.modifyHead_id
    rw [hid, Option.map_id]
    rfl
  | cons c cs ih =>
    rw [arrows?] at h
    split at h
    · cases h
    · next hc =>
      obtain ⟨hq, hn, he⟩ : c ≠ '"' ∧ c ≠ '\n' ∧ (c = '=' → cs ≠ []) := by
        simpa [not_or] using hc
      have hhead : c = '=' → (cs ++ rest).head? = cs.head? := fun hc =>
        List.head?_append_of_ne_nil _ (he hc)
      rw [List.cons_append, markedLines?, if_neg hq, if_neg hn]
      split at h
      · next ha =>
        obtain ⟨ns, hns, rfl⟩ := Option.map_eq_some_iff.mp h
        rw [if_pos ⟨ha.1, (hhead ha.1).trans ha.2⟩, ih hns, Option.map_map]
        simp only [Function.comp_def, List.modifyHead_modifyHead, List.cons_append]
      · next ha =>
        rw [if_neg fun hm => ha ⟨hm.1, (hhead hm.1).symm.trans hm.2⟩, ih h]

/-- Words are passed over. -/
theorem IsWord.holds (h : IsWord w) : Holds w [] := by
  have hplain : ∀ cs : List Char, (∀ c ∈ cs, inWord c) → arrows? cs = some [] := by
    intro cs hcs
    induction cs with
    | nil => rfl
    | cons c cs ih =>
      obtain ⟨hc, hcs⟩ := List.forall_mem_cons.mp hcs
      have hne : ∀ d, inWord d = false → c ≠ d := by
        rintro d hd rfl
        exact Bool.false_ne_true (hd.symm.trans hc)
      have he := hne '=' rfl
      rw [arrows?, if_neg, if_neg (fun h => he h.1), ih hcs]
      rintro (h | h | h)
      exacts [hne '"' rfl h, hne '\n' rfl h, he h.1]
  rw [← @String.ofList_toList w]
  exact holds_text (hplain w.toList h.2)

theorem holds_number (n : Nat) : Holds (toString n) [] :=
  IsWord.holds (Spells.number (P := fun _ => True) n).1

/-- Before what has no marks -/
theorem Holds.before (hs : Holds s ms) (ht : Holds t []) : Holds (s ++ t) ms :=
  List.append_nil ms ▸ hs.append ht

-- A text between marks is given by its characters, as it is them that are checked.
section Text

theorem Holds.seal (hs : Holds s ms) (h : arrows? a = some []) : Holds (s ++ .ofList a) ms :=
  hs.before (holds_text h)

theorem Holds.behind (ht : Holds t ms) (h : arrows? a = some []) : Holds (.ofList a ++ t) ms :=
  (holds_text h).append ht

theorem Holds.link (hs : Holds s ms) (ht : Holds t ns) (h : arrows? a = some []) :
    Holds (s ++ .ofList a ++ t) (ms ++ ns) := (hs.seal h).append ht

/-- A pattern, and what its arm gives -/
theorem Holds.arm (hs : Holds s ms) (ht : Holds t ns) (h : arrows? a = some [.arrow]) :
    Holds (s ++ .ofList a ++ t) (ms ++ .arrow :: ns) := by
  rw [String.append_assoc]
  exact hs.append ((holds_text h).append ht)

theorem Holds.intercalate {α : Type} {f : α → String} {g : α → List Mark} {as : List α}
    {sep : String} (hsep : Holds sep []) (h : ∀ x ∈ as, Holds (f x) (g x)) :
    Holds (String.intercalate sep (as.map f)) (as.flatMap g) := by
  induction as with
  | nil => exact holds_text (a := []) rfl
  | cons x as ih =>
    obtain ⟨hx, has⟩ := List.forall_mem_cons.mp h
    cases as with
    | nil => simpa using hx
    | cons y as =>
      rw [List.map_cons, List.map_cons, String.intercalate_cons_cons, ← List.map_cons,
        List.flatMap_cons]
      exact (hx.before hsep).append (ih has)

theorem Holds.commaList {α : Type} {f : α → String} {g : α → List Mark} {as : List α}
    (h : ∀ x ∈ as, Holds (f x) (g x)) : Holds (commaList (as.map f)) (as.flatMap g) :=
  .intercalate (holds_text (a := [',', ' ']) (by decide)) h

theorem holds_commaList {xs : List String} (h : ∀ x ∈ xs, Holds x []) :
    Holds (commaList xs) [] := by
  have hall := Holds.commaList (f := id) (g := fun _ => []) h
  rwa [List.map_id, List.flatMap_eq_nil_iff.mpr fun _ _ => rfl] at hall

end Text

/-- The lines with marks have these. -/
def Carries (ls : List String) (mss : List (List Mark)) : Prop :=
  ∃ all, List.Forall₂ Holds ls all ∧ all.filter (!·.isEmpty) = mss

variable {l head : String} {ls ks : List String} {mss nss : List (List Mark)} {m : Mark}

theorem marked_joined (h : Carries ls mss) : marked (joined ls) = some mss := by
  obtain ⟨all, hall, rfl⟩ := h
  have hread : markedLines? (joined ls).toList = some (all ++ [[]]) := by
    induction hall with
    | nil => rw [joined, List.map_nil, String.join_nil, String.toList_empty, markedLines?]; rfl
    | @cons l ms ls all hl _ ih =>
      have hj : (joined (l :: ls)).toList = l.toList ++ '\n' :: (joined ls).toList := by
        rw [joined, List.map_cons, String.join_cons, String.toList_append, String.toList_append,
          List.append_assoc]
        rfl
      rw [hj, hl, markedLines?, if_neg (by decide), if_pos rfl, ih]
      simp
  rw [marked, hread, Option.map_some, List.filter_append]
  exact congrArg some (List.append_nil _)

theorem Carries.nil : Carries [] [] := ⟨[], .nil, rfl⟩

theorem Carries.cons (hl : Holds l (m :: ms)) (h : Carries ls mss) :
    Carries (l :: ls) ((m :: ms) :: mss) := by
  obtain ⟨all, hall, rfl⟩ := h
  exact ⟨_, .cons hl hall, rfl⟩

theorem Carries.skip (hl : Holds l []) (h : Carries ls mss) : Carries (l :: ls) mss := by
  obtain ⟨all, hall, rfl⟩ := h
  exact ⟨_, .cons hl hall, rfl⟩

/-- A single line without marks -/
theorem Carries.holds (h : Carries [l] []) : Holds l [] := by
  obtain ⟨all, hall, hf⟩ := h
  cases hall with
  | @cons _ ms _ _ hl _ =>
    cases ms with
    | nil => exact hl
    | cons m ms => cases hf

theorem Carries.append (h : Carries ls mss) (hk : Carries ks nss) :
    Carries (ls ++ ks) (mss ++ nss) := by
  obtain ⟨all, hall, rfl⟩ := h
  obtain ⟨rest, hrest, rfl⟩ := hk
  exact ⟨all ++ rest, List.rel_append hall hrest, List.filter_append all rest⟩

/-- Before lines without marks -/
theorem Carries.before (h : Carries ls mss) (hk : Carries ks []) : Carries (ls ++ ks) mss :=
  List.append_nil mss ▸ h.append hk

theorem Carries.flatMap {α : Type} {f : α → List String} {g : α → List (List Mark)} {as : List α}
    (h : ∀ x ∈ as, Carries (f x) (g x)) : Carries (as.flatMap f) (as.flatMap g) := by
  induction as with
  | nil => exact .nil
  | cons x as ih =>
    obtain ⟨hx, has⟩ := List.forall_mem_cons.mp h
    exact hx.append (ih has)

/-- Lines with a mark each, and what is read behind it -/
theorem Carries.map {α : Type} {f : α → String} {first : α → Mark} {rest : α → List Mark}
    {as : List α} (h : ∀ x ∈ as, Holds (f x) (first x :: rest x)) :
    Carries (as.map f) (as.map fun x => first x :: rest x) := by
  rw [List.map_eq_flatMap, List.map_eq_flatMap]
  exact .flatMap fun x hx => .cons (h x hx) .nil

theorem carries_nothing (h : ∀ l ∈ ls, Holds l []) : Carries ls [] := by
  induction ls with
  | nil => exact .nil
  | cons l ls ih => exact .skip (h l List.mem_cons_self) (ih (List.forall_mem_cons.mp h).2)

theorem Carries.indented (h : Carries ls mss) : Carries (indented ls) mss := by
  obtain ⟨all, hall, hf⟩ := h
  refine ⟨all, ?_, hf⟩
  rw [Emit.indented, List.forall₂_map_left_iff]
  refine hall.imp fun l ms hl => ?_
  split
  · exact hl
  · exact hl.behind (a := [' ', ' ', ' ', ' ']) (by decide)

theorem Carries.body (h : Carries ls mss) (hl : Holds l []) :
    Carries (Emit.indented ls ++ [l]) mss := h.indented.before (.skip hl .nil)

/-- A head without marks -/
theorem Carries.block (hh : Holds head []) (h : Carries ls mss) : Carries (block head ls) mss :=
  .skip (hh.seal (by decide)) (h.body (l := "\x7d") (holds_text (a := ['\x7d']) (by decide)))

theorem Carries.block_arm (hh : Holds head (m :: ms)) (h : Carries ls mss) :
    Carries (Emit.block head ls) ((m :: ms) :: mss) :=
  .cons (hh.seal (by decide)) (h.body (l := "\x7d") (holds_text (a := ['\x7d']) (by decide)))

theorem Carries.block_comma (hh : Holds head (m :: ms)) (h : Carries ls mss) :
    Carries (closedBy "," (Emit.block head ls)) ((m :: ms) :: mss) := by
  rw [Emit.block, closedBy_concat]
  exact .cons (hh.seal (by decide)) (h.body (holds_text (a := ['\x7d', ',']) (by decide)))

end TaggedSum.Emit
