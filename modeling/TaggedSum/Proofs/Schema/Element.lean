import TaggedSum.Proofs.Outcome
import TaggedSum.Schema.Element

namespace TaggedSum.Element

open Xml (Event Tag)
open Outcome

def Place.inField : Place → Bool
  | .text _ _ _ _ => true
  | _ => false

/-- Elements are read only when there is a schema to take them. -/
def State.Ready (s : State) : Prop := s.schema = none → s.place = .document

section Made

variable {t : Tag}

theorem definitions_schema {s : Schema} (h : schema t = .ok s) :
    s.definitions = [] ∧ s.unlisted = 0 := by
  obtain ⟨vs, -, h⟩ := bind_eq_ok.mp h
  obtain ⟨package, -, h⟩ := bind_eq_ok.mp h
  cases h
  exact ⟨rfl, rfl⟩

theorem variants_enum {e : Enum} (h : enum t = .ok e) : e.variants = [] := by
  obtain ⟨vs, -, h⟩ := bind_eq_ok.mp h
  obtain ⟨name, -, h⟩ := bind_eq_ok.mp h
  cases h
  rfl

theorem fields_struct {d : Struct} (h : struct t = .ok d) : d.fields = [] := by
  obtain ⟨vs, -, h⟩ := bind_eq_ok.mp h
  obtain ⟨name, -, h⟩ := bind_eq_ok.mp h
  cases h
  rfl

theorem fields_variant {v : Variant} (h : variant t = .ok v) : v.fields = [] := by
  obtain ⟨vs, -, h⟩ := bind_eq_ok.mp h
  obtain ⟨name, -, h⟩ := bind_eq_ok.mp h
  cases h
  rfl

theorem add_eq_ok {s s' : Schema} {d : Definition} :
    add s d = .ok s' ↔ s.has d.name = false ∧ s.add d = s' := by
  rw [add]
  cases s.has d.name <;> simp

theorem describe_nil (f : Field) : describe f [] = f := by
  simp [describe, Text.trim, Text.trimEnd, Text.trimStart]

end Made

namespace State

variable {s s' : State}

theorem step_empty (hs : s.place.inField = false) (t : Tag) :
    s.step (.empty t) = s.step (.start t) >>= (·.step .stop) := by
  obtain ⟨sc, place⟩ := s
  cases place with
  | document =>
    simp only [step, openTop]
    cases sc with
    | none =>
      by_cases h : t.name = "sumSchema"
      · simp only [if_pos h]
        cases Element.schema t <;> rfl
      · simp only [if_neg h, throw_def, error_bind]
    | some sc =>
      by_cases h : t.name = "enum"
      · simp only [if_pos h]
        cases Element.enum t <;> rfl
      · simp only [if_neg h]
        by_cases h : t.name = "struct"
        · simp only [if_pos h]
          cases hd : Element.struct t with
          | error e => rfl
          | ok d =>
            -- a struct starts without fields, which is all that an element without content has
            obtain ⟨name, docs, fields⟩ := d
            obtain rfl := fields_struct hd
            rfl
        · simp only [if_neg h, throw_def, error_bind]
  | enum e =>
    simp only [step, openVariant]
    by_cases h : t.name = "variant"
    · simp only [if_pos h]
      cases hv : Element.variant t with
      | error e => rfl
      | ok v =>
        obtain ⟨name, tag, docs, fields⟩ := v
        obtain rfl := fields_variant hv
        rfl
    · simp only [if_neg h, throw_def, error_bind]
  | payload owner fields =>
    simp only [step, openField]
    by_cases h : t.name = "field"
    · simp only [if_pos h]
      cases Element.field t with
      | error e => rfl
      | ok f =>
        -- no text is a description that changes nothing
        have hs : State.mk sc (.payload owner (fields ++ [f])) =
            ⟨sc, .payload owner (fields ++ [describe f []])⟩ := by rw [describe_nil]
        exact congrArg Except.ok hs
    · simp only [if_neg h, throw_def, error_bind]
  | text owner fields f cs => cases hs

theorem step_char (hs : s.place.inField = false) (c : Char) : s.step (.char c) = .ok s := by
  obtain ⟨sc, place⟩ := s
  cases place with
  | text owner fields f cs => cases hs
  | _ => rfl

theorem step_reference (hs : s.place.inField = false) (body : List Char) :
    s.step (.reference body) = .ok s := by
  obtain ⟨sc, place⟩ := s
  cases place with
  | text owner fields f cs => cases hs
  | _ => rfl

/-- What an event does to a reader that takes it, unless it is a single tag. -/
inductive Moves : State → Event → State → Prop
  | root {t : Tag} {sc : Schema} (hn : t.name = "sumSchema") (h : Element.schema t = .ok sc) :
    Moves ⟨none, .document⟩ (.start t) ⟨some sc, .document⟩
  | enum {t : Tag} {sc : Schema} {e : Enum} (hn : t.name = "enum") (h : Element.enum t = .ok e) :
    Moves ⟨some sc, .document⟩ (.start t) ⟨some sc, .enum e⟩
  | struct {t : Tag} {sc : Schema} {d : Struct} (hn : t.name = "struct")
      (h : Element.struct t = .ok d) :
    Moves ⟨some sc, .document⟩ (.start t) ⟨some sc, .payload (.struct d) []⟩
  | variant {t : Tag} {sc : Schema} {e : Enum} {v : Variant} (hn : t.name = "variant")
      (h : Element.variant t = .ok v) :
    Moves ⟨some sc, .enum e⟩ (.start t) ⟨some sc, .payload (.variant e v) []⟩
  | field {t : Tag} {sc : Schema} {owner : Owner} {fields : List Field} {f : Field}
      (hn : t.name = "field") (h : Element.field t = .ok f) :
    Moves ⟨some sc, .payload owner fields⟩ (.start t) ⟨some sc, .text owner fields f []⟩
  | endEnum {sc : Schema} {e : Enum} (h : sc.has e.name = false) :
    Moves ⟨some sc, .enum e⟩ .stop ⟨some (sc.add (.enum e)), .document⟩
  | endStruct {sc : Schema} {d : Struct} {fields : List Field} (h : sc.has d.name = false) :
    Moves ⟨some sc, .payload (.struct d) fields⟩ .stop
      ⟨some (sc.add (.struct { d with fields := fields })), .document⟩
  | endVariant {sc : Schema} {e : Enum} {v : Variant} {fields : List Field} :
    Moves ⟨some sc, .payload (.variant e v) fields⟩ .stop
      ⟨some sc, .enum { e with variants := e.variants ++ [{ v with fields := fields }] }⟩
  | endField {sc : Schema} {owner : Owner} {fields : List Field} {f : Field} {cs : List Char} :
    Moves ⟨some sc, .text owner fields f cs⟩ .stop
      ⟨some sc, .payload owner (fields ++ [describe f cs])⟩
  | content {sc : Schema} {e : Event} {owner : Owner} {fields : List Field} {f : Field}
      {cs cs' : List Char} (he : e ≠ .stop) :
    Moves ⟨some sc, .text owner fields f cs⟩ e ⟨some sc, .text owner fields f cs'⟩
  | after {sc : Option Schema} : Moves ⟨sc, .document⟩ .stop ⟨sc, .document⟩
  | between {s : State} {e : Event} (hs : s.place.inField = false) (he : ∀ t, e ≠ .start t)
    (hne : e ≠ .stop) : Moves s e s

theorem define_eq (sc : Schema) (place : Place) (d : Definition) :
    define ⟨some sc, place⟩ d = (add sc d).map fun sc => ⟨some sc, .document⟩ := by
  simp only [define]
  cases add sc d <;> rfl

theorem define_eq_ok {sc : Schema} {d : Definition} (place : Place)
    (h : define ⟨some sc, place⟩ d = .ok s') :
    sc.has d.name = false ∧ s' = ⟨some (sc.add d), .document⟩ := by
  rw [define_eq, map_eq_ok] at h
  obtain ⟨sc', h, rfl⟩ := h
  obtain ⟨hd, rfl⟩ := add_eq_ok.mp h
  exact ⟨hd, rfl⟩

/-- Opening an element that is expected reads its attributes. -/
theorem openTop_eq_ok {sc : Option Schema} {t : Tag}
    (h : openTop ⟨sc, .document⟩ t true = .ok s') : Moves ⟨sc, .document⟩ (.start t) s' := by
  cases sc with
  | none =>
    simp only [openTop] at h
    split at h
    · rename_i hn
      obtain ⟨sc, hsc, h⟩ := bind_eq_ok.mp h
      cases h
      exact .root hn hsc
    · cases h
  | some sc =>
    simp only [openTop] at h
    split at h
    · rename_i hn
      obtain ⟨e, he, h⟩ := bind_eq_ok.mp h
      cases h
      exact .enum hn he
    · split at h
      · rename_i hn
        obtain ⟨d, hd, h⟩ := bind_eq_ok.mp h
        cases h
        exact .struct hn hd
      · cases h

theorem openVariant_eq_ok {sc : Schema} {e : Enum} {t : Tag}
    (h : openVariant ⟨some sc, .enum e⟩ e t true = .ok s') :
    Moves ⟨some sc, .enum e⟩ (.start t) s' := by
  simp only [openVariant] at h
  split at h
  · rename_i hn
    obtain ⟨v, hv, h⟩ := bind_eq_ok.mp h
    cases h
    exact .variant hn hv
  · cases h

theorem openField_eq_ok {sc : Schema} {owner : Owner} {fields : List Field} {t : Tag}
    (h : openField ⟨some sc, .payload owner fields⟩ owner fields t true = .ok s') :
    Moves ⟨some sc, .payload owner fields⟩ (.start t) s' := by
  simp only [openField] at h
  split at h
  · rename_i hn
    obtain ⟨f, hf, h⟩ := bind_eq_ok.mp h
    cases h
    exact .field hn hf
  · cases h

theorem finish_eq_ok {sc : Schema} {owner : Owner} {fields : List Field}
    (h : finish ⟨some sc, .payload owner fields⟩ owner fields = .ok s') :
    Moves ⟨some sc, .payload owner fields⟩ .stop s' := by
  cases owner with
  | variant e v =>
    cases h
    exact .endVariant
  | struct d =>
    obtain ⟨hd, rfl⟩ := define_eq_ok (.payload (.struct d) fields) h
    exact .endStruct hd

theorem Ready.exists_schema {sc : Option Schema} {place : Place} (h : Ready ⟨sc, place⟩)
    (hp : place ≠ .document) : ∃ s, sc = some s :=
  Option.ne_none_iff_exists'.mp fun hs => hp (h hs)

theorem moves_of_step {e : Event} (hr : s.Ready) (he : ∀ t, e ≠ .empty t)
    (h : s.step e = .ok s') : Moves s e s' := by
  obtain ⟨sc, place⟩ := s
  cases place with
  | document =>
    cases e with
    | start t => exact openTop_eq_ok h
    | stop =>
      cases h
      exact .after
    | empty t => exact absurd rfl (he t)
    | _ =>
      cases h
      exact .between rfl nofun nofun
  | enum d =>
    obtain ⟨sc, rfl⟩ := hr.exists_schema nofun
    cases e with
    | start t => exact openVariant_eq_ok h
    | stop =>
      obtain ⟨hd, rfl⟩ := define_eq_ok (.enum d) h
      exact .endEnum hd
    | empty t => exact absurd rfl (he t)
    | _ =>
      cases h
      exact .between rfl nofun nofun
  | payload owner fields =>
    obtain ⟨sc, rfl⟩ := hr.exists_schema nofun
    cases e with
    | start t => exact openField_eq_ok h
    | stop => exact finish_eq_ok h
    | empty t => exact absurd rfl (he t)
    | _ =>
      cases h
      exact .between rfl nofun nofun
  | text owner fields f cs =>
    obtain ⟨sc, rfl⟩ := hr.exists_schema nofun
    cases e with
    | stop =>
      cases h
      exact .endField
    | reference body =>
      simp only [step] at h
      -- a reference that means no character is refused
      split at h
      · cases h
        exact .content nofun
      · cases h
    | _ =>
      cases h
      exact .content nofun

theorem Moves.ready {e : Event} (h : Moves s e s') (hr : s.Ready) : s'.Ready := by
  cases h with
  | after => exact hr
  | between => exact hr
  | _ => exact nofun

theorem step_empty_inField (hs : s.place.inField = true) (t : Tag) :
    s.step (.empty t) = .ok s := by
  obtain ⟨sc, place⟩ := s
  cases place with
  | text owner fields f cs => rfl
  | _ => cases hs

/-- The moves that a run consists of. A single tag is two of them outside fields, and none in
one. -/
inductive Path : State → List Event → State → Prop
  | done {s : State} : Path s [] s
  | move {s s₁ s' : State} {e : Event} {es : List Event} (he : ∀ t, e ≠ .empty t)
      (h : Moves s e s₁) (hp : Path s₁ es s') : Path s (e :: es) s'
  | single {s s₁ s₂ s' : State} {t : Tag} {es : List Event} (hs : s.place.inField = false)
      (h₁ : Moves s (.start t) s₁) (h₂ : Moves s₁ .stop s₂) (hp : Path s₂ es s') :
    Path s (.empty t :: es) s'
  | skipped {s s' : State} {t : Tag} {es : List Event} (hs : s.place.inField = true)
      (hp : Path s es s') : Path s (.empty t :: es) s'

theorem path_of_run {es : List Event} (hr : s.Ready) (h : es.foldlM step s = .ok s') :
    Path s es s' := by
  induction es generalizing s with
  | nil =>
    cases h
    exact .done
  | cons e es ih =>
    obtain ⟨s₁, h₁, h₂⟩ := bind_eq_ok.mp (List.foldlM_cons.symm.trans h)
    by_cases he : ∃ t, e = .empty t
    · obtain ⟨t, rfl⟩ := he
      cases hs : s.place.inField with
      | true =>
        rw [step_empty_inField hs] at h₁
        cases h₁
        exact .skipped hs (ih hr h₂)
      | false =>
        rw [step_empty hs, bind_eq_ok] at h₁
        obtain ⟨s₀, h₀, h₁⟩ := h₁
        have hm₀ : Moves s (.start t) s₀ := moves_of_step hr nofun h₀
        have hm₁ : Moves s₀ .stop s₁ := moves_of_step (hm₀.ready hr) nofun h₁
        exact .single hs hm₀ hm₁ (ih (hm₁.ready (hm₀.ready hr)) h₂)
    · have he : ∀ t, e ≠ .empty t := fun t ht => he ⟨t, ht⟩
      have hm := moves_of_step hr he h₁
      exact .move he hm (ih (hm.ready hr) h₂)

/-- What every move preserves holds behind a run. -/
theorem Path.preserves {P : State → Prop} (hP : ∀ s e s', Moves s e s' → P s → P s')
    {es : List Event} (h : Path s es s') (hs : P s) : P s' := by
  induction h with
  | done => exact hs
  | move he h hp ih => exact ih (hP _ _ _ h hs)
  | single hf h₁ h₂ hp ih => exact ih (hP _ _ _ h₂ (hP _ _ _ h₁ hs))
  | skipped hf hp ih => exact ih hs

theorem Path.ready {es : List Event} (h : Path s es s') (hr : s.Ready) : s'.Ready :=
  h.preserves (fun _ _ _ hm => hm.ready) hr

theorem ready_start : start.Ready := fun _ => rfl

theorem schema?_eq_ok {sc : Schema} : s.schema? = .ok sc ↔ s = ⟨some sc, .document⟩ := by
  obtain ⟨sc', place⟩ := s
  cases place with
  | document => cases sc' <;> simp [schema?]
  | _ => simp [schema?]

end State

theorem load_eq_ok {s : State} {x : Xml.Stream} {sc : Schema} : load s x = .ok sc ↔
    x.fault = none ∧ x.events.foldlM State.step s = .ok ⟨some sc, .document⟩ := by
  rw [load, bind_eq_ok]
  cases x.fault with
  | none => simp [State.schema?_eq_ok]
  | some fault => simp

theorem ofStream_eq_ok {x : Xml.Stream} {s : Schema} : ofStream x = .ok s ↔
    x.fault = none ∧ x.events.foldlM State.step .start = .ok ⟨some s, .document⟩ :=
  load_eq_ok

end TaggedSum.Element
