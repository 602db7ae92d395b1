import TaggedSum.Proofs.Lists
import TaggedSum.Xml.Event

namespace TaggedSum.Xml

/-- An attribute as it is written, with the blanks before it, before its equals sign and behind
it. -/
structure Spelling where
  lead : List Char
  name : List Char
  before : List Char
  behind : List Char
  quote : Char
  raw : List Char

def Blank (cs : List Char) : Prop := ∀ c ∈ cs, isSpace c = true

/-- A name begins with anything but white space. -/
inductive IsName : List Char → Prop
  | cons {c : Char} {cs : List Char} (hc : isSpace c = false)
      (hcs : ∀ d ∈ cs, (!isSpace d && d != '=') = true) : IsName (c :: cs)

theorem IsName.singleton {c : Char} (h : isSpace c = false) : IsName [c] :=
  .cons h (List.forall_mem_nil _)

theorem IsName.concat {cs : List Char} {c : Char} (h : IsName cs) (hc : isSpace c = false)
    (hne : c ≠ '=') : IsName (cs ++ [c]) := by
  cases h with
  | cons hd hcs =>
    refine .cons hd fun d hm => ?_
    obtain hm | hm := List.mem_append.mp hm
    · exact hcs d hm
    · rw [List.mem_singleton.mp hm]
      simp [hc, hne]

namespace Spelling

structure WellFormed (s : Spelling) : Prop where
  lead : Blank s.lead
  name : IsName s.name
  before : Blank s.before
  behind : Blank s.behind
  quote : isQuote s.quote = true
  raw : s.quote ∉ s.raw

def chars (s : Spelling) : List Char :=
  s.lead ++ (s.name ++ (s.before ++ '=' :: (s.behind ++ s.quote :: (s.raw ++ [s.quote]))))

def meaning (s : Spelling) : Attribute := ⟨.ofList s.name, s.raw⟩

end Spelling

/-- The text is a sequence of well-formed attributes, each with a name that has not been given. -/
inductive Written : List (List Char) → List Char → List Attribute → Prop
  | trail {given : List (List Char)} {cs : List Char} (h : Blank cs) : Written given cs []
  | cons {given : List (List Char)} {s : Spelling} {cs : List Char} {as : List Attribute}
      (hs : s.WellFormed) (hn : s.name ∉ given) (h : Written (s.name :: given) cs as) :
    Written given (s.chars ++ cs) (s.meaning :: as)

namespace Item.Scan

variable {given : List (List Char)} {name cs ds : List Char} {as : List Attribute}

theorem items_cons (s : Scan) (c : Char) (cs : List Char) :
    items s (c :: cs) = (s.step c).2 ++ items (s.step c).1 cs := rfl

/-- Characters that leave the scan where it is -/
theorem items_stay {s : Scan} (h : ∀ c ∈ cs, s.step c = (s, [])) :
    items s (cs ++ ds) = items s ds := by
  induction cs with
  | nil => rfl
  | cons c cs ih =>
    rw [List.cons_append, items_cons, h c List.mem_cons_self, List.nil_append]
    exact ih fun c hc => h c (List.mem_cons_of_mem _ hc)

theorem items_between (h : Blank cs) :
    items ⟨given, .between⟩ (cs ++ ds) = items ⟨given, .between⟩ ds :=
  items_stay fun c hc => by simp [step, h c hc]

theorem items_behindName (h : Blank cs) :
    items ⟨given, .behindName name⟩ (cs ++ ds) = items ⟨given, .behindName name⟩ ds := by
  refine items_stay fun c hc => ?_
  have hs := h c hc
  have hne : c ≠ '=' := by
    rintro rfl
    exact absurd hs (by decide)
  simp [step, hs, hne]

theorem items_behindEquals (h : Blank cs) :
    items ⟨given, .behindEquals name⟩ (cs ++ ds) = items ⟨given, .behindEquals name⟩ ds :=
  items_stay fun c hc => by simp [step, h c hc]

theorem items_name {acc : List Char} (h : ∀ d ∈ cs, (!isSpace d && d != '=') = true) :
    items ⟨given, .name acc⟩ (cs ++ ds) = items ⟨given, .name (cs.reverse ++ acc)⟩ ds := by
  induction cs generalizing acc with
  | nil => rfl
  | cons c cs ih =>
    have hc : isSpace c = false ∧ c ≠ '=' := by simpa using h c List.mem_cons_self
    rw [List.cons_append, items_cons, List.reverse_cons, List.append_assoc]
    simpa [step, hc] using ih fun c hc => h c (List.mem_cons_of_mem _ hc)

theorem items_value {acc : List Char} {quote : Char} (h : quote ∉ cs) :
    items ⟨given, .value name quote acc⟩ (cs ++ ds) =
      items ⟨given, .value name quote (cs.reverse ++ acc)⟩ ds := by
  induction cs generalizing acc with
  | nil => rfl
  | cons c cs ih =>
    have hc : c ≠ quote := fun hc => h (hc ▸ List.mem_cons_self)
    rw [List.cons_append, items_cons, List.reverse_cons, List.append_assoc]
    simpa [step, hc] using ih fun hq => h (List.mem_cons_of_mem _ hq)

/-- The end of a name, with or without white space before the equals sign. -/
theorem items_name_end {acc : List Char} (h : Blank cs) :
    items ⟨given, .name acc⟩ (cs ++ '=' :: ds) =
      (equals given acc.reverse).2 ++ items (equals given acc.reverse).1 ds := by
  cases cs with
  | nil => rfl
  | cons c cs =>
    have hc := h c List.mem_cons_self
    have hne : c ≠ '=' := by
      rintro rfl
      exact absurd hc (by decide)
    have hstep : step ⟨given, .name acc⟩ c = (⟨given, .behindName acc.reverse⟩, []) := by
      simp [step, hc, hne]
    rw [List.cons_append, items_cons, hstep, List.nil_append,
      items_behindName fun c hc => h c (List.mem_cons_of_mem _ hc)]
    rfl

/-- A well-formed attribute is found. -/
theorem items_spelling {s : Spelling} (hs : s.WellFormed) (hn : s.name ∉ given) :
    items ⟨given, .between⟩ (s.chars ++ ds) =
      .found s.meaning :: items ⟨s.name :: given, .between⟩ ds := by
  obtain ⟨lead, name, before, behind, quote, raw⟩ := s
  obtain ⟨hl, hname, hb, hbe, hq, hr⟩ := hs
  dsimp only at hl hname hb hbe hq hr hn
  simp only [Spelling.chars, Spelling.meaning, List.append_assoc, List.cons_append,
    List.nil_append]
  rw [items_between hl]
  cases hname with
  | @cons c cs hc hcs =>
    have hstep : step ⟨given, .between⟩ c = (⟨given, .name [c]⟩, []) := by simp [step, hc]
    have heq : equals given (c :: cs) =
        (⟨(c :: cs) :: given, .behindEquals (c :: cs)⟩, []) := by
      simp [equals, hn]
    have hquote : step ⟨(c :: cs) :: given, .behindEquals (c :: cs)⟩ quote =
        (⟨(c :: cs) :: given, .value (c :: cs) quote []⟩, []) := by
      have hs : isSpace quote = false := by
        simp only [isQuote, Bool.or_eq_true, beq_iff_eq] at hq
        obtain rfl | rfl := hq <;> decide
      simp [step, hs, hq]
    rw [List.cons_append, items_cons, hstep, List.nil_append, items_name hcs, items_name_end hb,
      List.reverse_append, List.reverse_reverse, List.reverse_singleton, List.singleton_append,
      heq, List.nil_append, items_behindEquals hbe, items_cons, hquote, List.nil_append,
      items_value hr, items_cons]
    simp [step]

theorem items_of_written (h : Written given cs as) :
    items ⟨given, .between⟩ cs = as.map .found := by
  induction h with
  | @trail given cs h =>
    rw [← List.append_nil cs, items_between h]
    rfl
  | cons hs hn h ih => rw [items_spelling hs hn, ih, List.map_cons]

-- The other way round, what is found place by place where there is no fault
theorem exists_of_value {quote : Char}
    (h : items ⟨given, .value name quote []⟩ cs = as.map .found) :
    ∃ raw ds bs, quote ∉ raw ∧ cs = raw ++ quote :: ds ∧ as = ⟨.ofList name, raw⟩ :: bs ∧
      items ⟨given, .between⟩ ds = bs.map .found := by
  obtain ⟨raw, hraw, rfl | ⟨c, ds, rfl, hc⟩⟩ := Lists.exists_split (· != quote) cs
  all_goals have hq : quote ∉ raw := fun hm => by simpa using hraw quote hm
  · rw [← List.append_nil raw, items_value hq] at h
    cases as <;> cases h
  · obtain rfl : c = quote := by simpa using hc
    rw [items_value hq, items_cons] at h
    simp only [step, BEq.rfl, if_true, List.append_nil, List.reverse_reverse,
      List.singleton_append] at h
    cases as with
    | nil => cases h
    | cons a bs =>
      obtain ⟨ha, h⟩ := List.cons.inj h
      exact ⟨raw, ds, bs, hq, rfl, by rw [Item.found.inj ha], h⟩

theorem exists_of_behindEquals (h : items ⟨given, .behindEquals name⟩ cs = as.map .found) :
    ∃ behind quote ds, Blank behind ∧ isQuote quote = true ∧ cs = behind ++ quote :: ds ∧
      items ⟨given, .value name quote []⟩ ds = as.map .found := by
  obtain ⟨behind, hb, rfl | ⟨c, ds, rfl, hc⟩⟩ := Lists.exists_split isSpace cs
  · rw [← List.append_nil behind, items_behindEquals hb] at h
    cases as <;> cases h
  · rw [items_behindEquals hb, items_cons] at h
    cases hq : isQuote c with
    | false =>
      simp only [step, hc, hq] at h
      cases as <;> cases h
    | true =>
      simp only [step, hc, hq] at h
      exact ⟨behind, c, ds, hb, hq, rfl, h⟩

theorem exists_of_behindName (h : items ⟨given, .behindName name⟩ cs = as.map .found) :
    ∃ before ds, Blank before ∧ cs = before ++ '=' :: ds ∧
      (equals given name).2 ++ items (equals given name).1 ds = as.map .found := by
  obtain ⟨before, hb, rfl | ⟨c, ds, rfl, hc⟩⟩ := Lists.exists_split isSpace cs
  · rw [← List.append_nil before, items_behindName hb] at h
    cases as <;> cases h
  · rw [items_behindName hb, items_cons] at h
    by_cases he : c = '='
    · subst he
      exact ⟨before, ds, hb, rfl, h⟩
    · simp only [step, hc, beq_iff_eq, he] at h
      cases as <;> cases h

theorem exists_of_name {acc : List Char} (h : items ⟨given, .name acc⟩ cs = as.map .found) :
    ∃ rest before ds, (∀ d ∈ rest, (!isSpace d && d != '=') = true) ∧ Blank before ∧
      cs = rest ++ (before ++ '=' :: ds) ∧
      (equals given (acc.reverse ++ rest)).2 ++ items (equals given (acc.reverse ++ rest)).1 ds =
        as.map .found := by
  obtain ⟨rest, hr, rfl | ⟨c, ds, rfl, hc⟩⟩ :=
    Lists.exists_split (fun d => !isSpace d && d != '=') cs
  · rw [← List.append_nil rest, items_name hr] at h
    cases as <;> cases h
  · rw [items_name hr, items_cons] at h
    by_cases he : c = '='
    · subst he
      refine ⟨rest, [], ds, hr, List.forall_mem_nil _, rfl, ?_⟩
      simpa [step] using h
    · have hs : isSpace c = true := by simpa [he] using hc
      have hstep : step ⟨given, .name (rest.reverse ++ acc)⟩ c =
          (⟨given, .behindName (acc.reverse ++ rest)⟩, []) := by
        simp [step, he, hs]
      rw [hstep, List.nil_append] at h
      obtain ⟨before, es, hb, rfl, h'⟩ := exists_of_behindName h
      exact ⟨rest, c :: before, es, hr, List.forall_mem_cons.mpr ⟨hs, hb⟩, rfl, h'⟩

theorem exists_of_equals (h : (equals given name).2 ++ items (equals given name).1 cs =
    as.map .found) :
    name ∉ given ∧ items ⟨name :: given, .behindEquals name⟩ cs = as.map .found := by
  simp only [equals] at h
  split at h
  · cases as <;> cases h
  · rename_i hn
    exact ⟨by simpa using hn, h⟩

/-- Without a fault there is nothing, or a well-formed attribute first. -/
theorem exists_spelling (h : items ⟨given, .between⟩ cs = as.map .found) :
    Blank cs ∧ as = [] ∨ ∃ (s : Spelling) (ds : List Char) (bs : List Attribute),
      s.WellFormed ∧ s.name ∉ given ∧ cs = s.chars ++ ds ∧ as = s.meaning :: bs ∧
        items ⟨s.name :: given, .between⟩ ds = bs.map .found := by
  obtain ⟨lead, hl, rfl | ⟨c, ds, rfl, hc⟩⟩ := Lists.exists_split isSpace cs
  · rw [← List.append_nil lead, items_between hl] at h
    exact .inl ⟨hl, List.map_eq_nil_iff.mp h.symm⟩
  · have hstep : step ⟨given, .between⟩ c = (⟨given, .name [c]⟩, []) := by simp [step, hc]
    rw [items_between hl, items_cons, hstep, List.nil_append] at h
    obtain ⟨rest, before, ds₁, hr, hb, rfl, h₁⟩ := exists_of_name h
    obtain ⟨hn, h₂⟩ := exists_of_equals h₁
    obtain ⟨behind, quote, ds₂, hbe, hq, rfl, h₃⟩ := exists_of_behindEquals h₂
    obtain ⟨raw, ds₃, bs, hraw, rfl, rfl, h₄⟩ := exists_of_value h₃
    exact .inr ⟨⟨lead, c :: rest, before, behind, quote, raw⟩, ds₃, bs,
      ⟨hl, .cons hc hr, hb, hbe, hq, hraw⟩, hn, by simp [Spelling.chars], rfl, h₄⟩

theorem written_of_items (h : items ⟨given, .between⟩ cs = as.map .found) :
    Written given cs as := by
  induction hn : cs.length using Nat.strongRecOn generalizing cs given as with
  | ind n ih =>
    obtain ⟨hb, rfl⟩ | ⟨s, ds, bs, hs, hg, rfl, rfl, h'⟩ := exists_spelling h
    · exact .trail hb
    · refine .cons hs hg (ih _ ?_ h' rfl)
      rw [← hn, Spelling.chars]
      simp only [List.length_append, List.length_cons]
      omega

/-- The scan finds nothing but attributes in exactly the texts that are sequences of them. -/
theorem written_iff : Written given cs as ↔ items ⟨given, .between⟩ cs = as.map .found :=
  ⟨items_of_written, written_of_items⟩

end Item.Scan

namespace Attribute

/-- A quote that a value which is found cannot contain as well. -/
def quote (a : Attribute) : Char := if '"' ∈ a.raw then '\x27' else '"'

def spelling (a : Attribute) : Spelling := ⟨[' '], a.name.toList, [], [], a.quote, a.raw⟩

/-- It can be written. -/
structure Legible (a : Attribute) : Prop where
  name : IsName a.name.toList
  raw : ∃ quote, isQuote quote = true ∧ quote ∉ a.raw

theorem meaning_spelling (a : Attribute) : a.spelling.meaning = a := by
  simp [spelling, Spelling.meaning]

theorem Legible.wellFormed {a : Attribute} (h : a.Legible) : a.spelling.WellFormed := by
  refine ⟨fun c hc => ?_, h.name, List.forall_mem_nil _, List.forall_mem_nil _, ?_, ?_⟩
  · rw [List.mem_singleton.mp hc]
    rfl
  · simp only [spelling, quote]
    split <;> decide
  · simp only [spelling, quote]
    split
    · rename_i hd
      obtain ⟨q, hq, hr⟩ := h.raw
      simp only [isQuote, Bool.or_eq_true, beq_iff_eq] at hq
      obtain rfl | rfl := hq
      · exact absurd hd hr
      · exact hr
    · assumption

end Attribute

theorem Written.mono {given given' : List (List Char)} {cs : List Char} {as : List Attribute}
    (h : Written given cs as) (hg : given' ⊆ given) : Written given' cs as := by
  induction h generalizing given' with
  | trail h => exact .trail h
  | cons hs hn h ih =>
    exact .cons hs (fun hm => hn (hg hm)) (ih (List.cons_subset_cons _ hg))

theorem Written.fresh {given : List (List Char)} {cs : List Char} {as : List Attribute}
    (h : Written given cs as) : ∀ a ∈ as, a.name.toList ∉ given := by
  induction h with
  | trail h => exact List.forall_mem_nil _
  | cons hs hn h ih =>
    refine List.forall_mem_cons.mpr ⟨?_, fun a ha hg => ih a ha (List.mem_cons_of_mem _ hg)⟩
    rwa [Spelling.meaning, String.toList_ofList]

/-- No name is given twice. -/
theorem Written.nodup {given : List (List Char)} {cs : List Char} {as : List Attribute}
    (h : Written given cs as) : (as.map (·.name)).Nodup := by
  induction h with
  | trail h => exact List.nodup_nil
  | @cons given s cs as hs hn h ih =>
    refine List.nodup_cons.mpr ⟨fun hm => ?_, ih⟩
    obtain ⟨a, ha, he⟩ := List.mem_map.mp hm
    refine h.fresh a ha ?_
    rw [he, Spelling.meaning, String.toList_ofList]
    exact List.mem_cons_self

namespace Item.Scan

/-- The names that are not to be found any more: all that have been given, but for one whose value
is still to come. -/
def settled (s : Scan) : List (List Char) :=
  match s.place with
  | .behindEquals _ => s.given.tail
  | .value _ _ _ => s.given.tail
  | _ => s.given

/-- A name that is new and has its value to come. -/
def Pending (given : List (List Char)) (name : List Char) : Prop :=
  IsName name ∧ given.head? = some name ∧ name ∉ given.tail

/-- Names and values so far can be written. -/
def Sound (s : Scan) : Prop :=
  match s.place with
  | .between => True
  | .name cs => IsName cs.reverse
  | .behindName name => IsName name
  | .behindEquals name => Pending s.given name
  | .value name quote cs => Pending s.given name ∧ isQuote quote = true ∧ quote ∉ cs
  | .skipped => True

/-- What a step may leave: nothing is found and no name gets free, or an attribute is found whose
name was free and is so no more. -/
def Leaves (s : Scan) (r : Scan × List Item) : Prop :=
  r.1.Sound ∧
    (r.2.filterMap found? = [] ∧ s.settled ⊆ r.1.settled ∨
      ∃ a : Attribute, r.2 = [.found a] ∧ a.Legible ∧ a.name.toList ∉ s.settled ∧
        r.1.settled = a.name.toList :: s.settled)

section Leaves

variable (given : List (List Char)) (c : Char)

theorem leaves_between : Leaves ⟨given, .between⟩ (step ⟨given, .between⟩ c) := by
  cases hc : isSpace c with
  | true =>
    have hstep : step ⟨given, .between⟩ c = (⟨given, .between⟩, []) := by simp [step, hc]
    rw [hstep]
    exact ⟨trivial, .inl ⟨rfl, List.Subset.refl given⟩⟩
  | false =>
    have hstep : step ⟨given, .between⟩ c = (⟨given, .name [c]⟩, []) := by simp [step, hc]
    rw [hstep]
    exact ⟨IsName.singleton hc, .inl ⟨rfl, List.Subset.refl given⟩⟩

theorem leaves_skipped : Leaves ⟨given, .skipped⟩ (step ⟨given, .skipped⟩ c) := by
  cases hc : isSpace c with
  | true =>
    have hstep : step ⟨given, .skipped⟩ c = (⟨given, .between⟩, []) := by simp [step, hc]
    rw [hstep]
    exact ⟨trivial, .inl ⟨rfl, List.Subset.refl given⟩⟩
  | false =>
    have hstep : step ⟨given, .skipped⟩ c = (⟨given, .skipped⟩, []) := by simp [step, hc]
    rw [hstep]
    exact ⟨trivial, .inl ⟨rfl, List.Subset.refl given⟩⟩

/-- Behind an equals sign the name is given, and pending if it is new. -/
theorem leaves_equals {s : Scan} (hs : s.settled = given) {name : List Char} (h : IsName name) :
    Leaves s (equals given name) := by
  simp only [equals]
  split
  · exact ⟨trivial, .inl ⟨rfl, hs ▸ List.subset_cons_self name s.settled⟩⟩
  · rename_i hn
    exact ⟨⟨h, rfl, by simpa using hn⟩, .inl ⟨rfl, hs ▸ List.Subset.refl given⟩⟩

theorem leaves_name {cs : List Char} (h : IsName cs.reverse) :
    Leaves ⟨given, .name cs⟩ (step ⟨given, .name cs⟩ c) := by
  by_cases he : c = '='
  · subst he
    exact leaves_equals given rfl h
  · cases hc : isSpace c with
    | true =>
      have hstep : step ⟨given, .name cs⟩ c = (⟨given, .behindName cs.reverse⟩, []) := by
        simp [step, hc, he]
      rw [hstep]
      exact ⟨h, .inl ⟨rfl, List.Subset.refl given⟩⟩
    | false =>
      have hstep : step ⟨given, .name cs⟩ c = (⟨given, .name (c :: cs)⟩, []) := by
        simp [step, hc, he]
      have hn : IsName (c :: cs).reverse := List.reverse_cons ▸ h.concat hc he
      rw [hstep]
      exact ⟨hn, .inl ⟨rfl, List.Subset.refl given⟩⟩

theorem leaves_behindName {name : List Char} (h : IsName name) :
    Leaves ⟨given, .behindName name⟩ (step ⟨given, .behindName name⟩ c) := by
  by_cases he : c = '='
  · subst he
    exact leaves_equals given rfl h
  · cases hc : isSpace c with
    | true =>
      have hstep : step ⟨given, .behindName name⟩ c = (⟨given, .behindName name⟩, []) := by
        simp [step, hc, he]
      rw [hstep]
      exact ⟨h, .inl ⟨rfl, List.Subset.refl given⟩⟩
    | false =>
      have hstep : step ⟨given, .behindName name⟩ c =
          (⟨given, .name [c]⟩, [.fault .noEquals]) := by
        simp [step, hc, he]
      rw [hstep]
      exact ⟨IsName.singleton hc, .inl ⟨rfl, List.Subset.refl given⟩⟩

theorem leaves_behindEquals {name : List Char} (h : Pending given name) :
    Leaves ⟨given, .behindEquals name⟩ (step ⟨given, .behindEquals name⟩ c) := by
  cases hc : isSpace c with
  | true =>
    have hstep : step ⟨given, .behindEquals name⟩ c = (⟨given, .behindEquals name⟩, []) := by
      simp [step, hc]
    rw [hstep]
    exact ⟨h, .inl ⟨rfl, List.Subset.refl given.tail⟩⟩
  | false =>
    cases hq : isQuote c with
    | true =>
      have hstep : step ⟨given, .behindEquals name⟩ c = (⟨given, .value name c []⟩, []) := by
        simp [step, hc, hq]
      rw [hstep]
      exact ⟨⟨h, hq, List.not_mem_nil⟩, .inl ⟨rfl, List.Subset.refl given.tail⟩⟩
    | false =>
      have hstep : step ⟨given, .behindEquals name⟩ c =
          (⟨given, .skipped⟩, [.fault .unquoted]) := by
        simp [step, hc, hq]
      rw [hstep]
      exact ⟨trivial, .inl ⟨rfl, (List.tail_sublist given).subset⟩⟩

theorem leaves_value {name cs : List Char} {quote : Char} (h : Pending given name)
    (hquote : isQuote quote = true) (hraw : quote ∉ cs) :
    Leaves ⟨given, .value name quote cs⟩ (step ⟨given, .value name quote cs⟩ c) := by
  by_cases hq : c = quote
  · have hstep : step ⟨given, .value name quote cs⟩ c =
        (⟨given, .between⟩, [.found ⟨.ofList name, cs.reverse⟩]) := by
      simp [step, hq]
    have ha : Attribute.Legible ⟨.ofList name, cs.reverse⟩ :=
      ⟨by simpa using h.1, quote, hquote, by simpa using hraw⟩
    rw [hstep]
    refine ⟨trivial, .inr ⟨_, rfl, ha, ?_, ?_⟩⟩
    · rw [String.toList_ofList]
      exact h.2.2
    · rw [String.toList_ofList]
      exact (List.cons_head?_tail h.2.1).symm
  · have hstep : step ⟨given, .value name quote cs⟩ c =
        (⟨given, .value name quote (c :: cs)⟩, []) := by
      simp [step, hq]
    have hcs : quote ∉ c :: cs := fun hm => (List.mem_cons.mp hm).elim (Ne.symm hq) hraw
    rw [hstep]
    exact ⟨⟨h, hquote, hcs⟩, .inl ⟨rfl, List.Subset.refl given.tail⟩⟩

end Leaves

theorem leaves_step {s : Scan} (h : s.Sound) (c : Char) : Leaves s (s.step c) := by
  obtain ⟨given, place⟩ := s
  cases place with
  | between => exact leaves_between given c
  | name cs => exact leaves_name given c h
  | behindName name => exact leaves_behindName given c h
  | behindEquals name => exact leaves_behindEquals given c h
  | value name quote cs => exact leaves_value given c h.1 h.2.1 h.2.2
  | skipped => exact leaves_skipped given c

/-- What is found can be written, in the same order. -/
theorem written_attributes {s : Scan} (h : s.Sound) (cs : List Char) :
    Written s.settled (((items s cs).filterMap found?).flatMap fun a => a.spelling.chars)
      ((items s cs).filterMap found?) := by
  induction cs generalizing s with
  | nil =>
    have hf : (items s []).filterMap found? = [] := by
      obtain ⟨given, place⟩ := s
      cases place <;> rfl
    rw [hf]
    exact .trail (List.forall_mem_nil _)
  | cons c cs ih =>
    obtain ⟨hs, ⟨hf, hsub⟩ | ⟨a, hf, ha, hn, hset⟩⟩ := leaves_step h c
    · rw [items_cons, List.filterMap_append, hf, List.nil_append]
      exact (ih hs).mono hsub
    · have hw := ih hs
      rw [hset] at hw
      have hc := Written.cons ha.wellFormed hn hw
      rw [Attribute.meaning_spelling] at hc
      rwa [items_cons, hf]

end Item.Scan

namespace Tag

/-- The tag with nothing but its attributes. -/
def tidy (t : Tag) : Tag := ⟨t.name, t.attributes.flatMap fun a => a.spelling.chars⟩

theorem name_tidy (t : Tag) : t.tidy.name = t.name := rfl

theorem written_tidy (t : Tag) : Written [] t.tidy.written t.attributes :=
  Item.Scan.written_attributes (s := ⟨[], .between⟩) trivial t.written

/-- What is written in a tag are attributes if the scan finds nothing else. -/
theorem written_iff_items {t : Tag} {as : List Attribute} :
    Written [] t.written as ↔ t.items = as.map .found := Item.Scan.written_iff

theorem attributes_of_written {t : Tag} {as : List Attribute} (h : Written [] t.written as) :
    t.attributes = as := by
  rw [attributes, written_iff_items.mp h, List.filterMap_map]
  exact List.filterMap_some

theorem attributes_tidy (t : Tag) : t.tidy.attributes = t.attributes :=
  attributes_of_written t.written_tidy

/-- Attributes are all that is written where no item is passed over. -/
theorem written_iff_found (t : Tag) :
    (∃ as, Written [] t.written as) ↔ ∀ i ∈ t.items, i.found? ≠ none := by
  constructor
  · rintro ⟨as, h⟩ i hi
    rw [written_iff_items.mp h] at hi
    obtain ⟨a, -, rfl⟩ := List.mem_map.mp hi
    exact nofun
  · intro h
    refine ⟨t.attributes, written_iff_items.mpr ?_⟩
    rw [attributes]
    generalize t.items = is at h
    induction is with
    | nil => rfl
    | cons i is ih =>
      obtain ⟨hi, his⟩ := List.forall_mem_cons.mp h
      cases i with
      | found a => exact congrArg (Item.found a :: ·) (ih his)
      | fault e => exact absurd rfl hi

end Tag

namespace Event

def tidy : Event → Event
  | start t => start t.tidy
  | empty t => empty t.tidy
  | e => e

end Event

/-- The text with nothing but attributes in its tags. -/
def Stream.tidy (x : Stream) : Stream := ⟨x.events.map Event.tidy, x.fault⟩

end TaggedSum.Xml
