import Mathlib.Data.List.Basic
import TaggedSum.Proofs.Schema.Element
import TaggedSum.Proofs.Xml.Opened

namespace TaggedSum.Element

open Xml (Event Tag)
open Xml.Event (opens opened)
open Outcome

/-- The elements that an owner of fields is in, innermost first, without the schema element. -/
def ownerStanding : Owner → List String
  | .variant _ _ => ["variant", "enum"]
  | .struct _ => ["struct"]

def Place.standing : Place → List String
  | .document => []
  | .enum _ => ["enum"]
  | .payload owner _ => ownerStanding owner
  | .text owner _ _ _ => "field" :: ownerStanding owner

/-- No element starts in a field; single tags may stand there. -/
def Unnested (names : List String) (es : List Event) : Prop :=
  ∀ es₁ t es₂, es = es₁ ++ .start t :: es₂ → (opened names es₁).head? ≠ some "field"

theorem Unnested.head {names : List String} {t : Tag} {es : List Event}
    (h : Unnested names (.start t :: es)) : names.head? ≠ some "field" := h [] t es rfl

theorem Unnested.tail {names : List String} {e : Event} {es : List Event}
    (h : Unnested names (e :: es)) : Unnested (opens names e) es :=
  fun es₁ t es₂ hes => h (e :: es₁) t es₂ (by rw [hes, List.cons_append])

namespace State

variable {s s' : State} {names : List String}

/-- The elements of the place are those that are open, but for the schema element. -/
def Level (names : List String) (s : State) : Prop :=
  (s.schema = none → names = []) ∧
    (names = s.place.standing ∨ names = s.place.standing ++ ["sumSchema"])

theorem Level.head?_ne (h : Level names s) (hs : s.place.inField = false) :
    names.head? ≠ some "field" := by
  obtain ⟨sc, place⟩ := s
  obtain ⟨-, rfl | rfl⟩ := h
  all_goals
    cases place with
    | document => simp [Place.standing]
    | enum e => simp [Place.standing]
    | payload owner fields => cases owner <;> simp [Place.standing, ownerStanding]
    | text owner fields f cs => cases hs

theorem Level.head?_eq (h : Level names s) (hs : s.place.inField = true) :
    names.head? = some "field" := by
  obtain ⟨sc, place⟩ := s
  obtain ⟨-, rfl | rfl⟩ := h
  all_goals
    cases place with
    | text owner fields f cs => rfl
    | _ => cases hs

/-- An element starts within those that are open. -/
theorem Level.cons {sc : Schema} {place place' : Place} {name : String}
    (h : Level names ⟨some sc, place⟩) (hp : place'.standing = name :: place.standing) :
    Level (name :: names) ⟨some sc, place'⟩ :=
  ⟨nofun, h.2.imp (fun hn => by rw [hn, hp]) (fun hn => by rw [hn, hp, List.cons_append])⟩

/-- An element ends, and there is the place that it stands in. -/
theorem Level.pop {sc sc' : Schema} {place place' : Place} {name : String}
    (h : Level names ⟨some sc, place⟩) (hp : place.standing = name :: place'.standing) :
    Level names.tail ⟨some sc', place'⟩ :=
  ⟨nofun, h.2.imp (fun hn => by rw [hn, hp, List.tail_cons])
    (fun hn => by rw [hn, hp, List.cons_append, List.tail_cons])⟩

theorem Moves.level {e : Event} (h : Moves s e s') (hl : Level names s)
    (he : ∀ t, e = .start t → names.head? ≠ some "field") : Level (opens names e) s' := by
  cases h with
  | root hn h =>
    obtain rfl := hl.1 rfl
    exact ⟨nofun, .inr (congrArg (fun n => [n]) hn)⟩
  | enum hn h => exact hl.cons (by rw [hn]; rfl)
  | struct hn h => exact hl.cons (by rw [hn]; rfl)
  | variant hn h => exact hl.cons (by rw [hn]; rfl)
  | field hn h => exact hl.cons (by rw [hn]; rfl)
  | endEnum h => exact hl.pop rfl
  | endStruct h => exact hl.pop rfl
  | endVariant => exact hl.pop rfl
  | endField => exact hl.pop rfl
  | @content sc e owner fields f cs cs' hne =>
    have hs : ∀ t, e ≠ .start t := fun t ht => he t ht (hl.head?_eq rfl)
    rw [Xml.Event.opens_of_ne names hs hne]
    exact ⟨nofun, hl.2⟩
  | after =>
    refine ⟨fun hs => congrArg List.tail (hl.1 hs), .inl ?_⟩
    obtain hn | hn := hl.2 <;> exact congrArg List.tail hn
  | between hs he hne => rwa [Xml.Event.opens_of_ne names he hne]

theorem Path.level {es : List Event} (h : Path s es s') (hl : Level names s)
    (hu : Unnested names es) : Level (opened names es) s' := by
  induction h generalizing names with
  | done => exact hl
  | move he h hp ih => exact ih (h.level hl fun t ht => (ht ▸ hu).head) hu.tail
  | single hs h₁ h₂ hp ih =>
    have hl₁ := h₁.level hl fun t ht => hl.head?_ne hs
    exact ih (h₂.level hl₁ nofun) hu.tail
  | skipped hs hp ih => exact ih hl hu.tail

/-- Before there is a schema no element is open. -/
theorem Moves.opens_eq_nil {e : Event} (h : Moves s e s') (hl : s.schema = none → names = [])
    (hs : s'.schema = none) : opens names e = [] := by
  cases h with
  | after => exact congrArg List.tail (hl hs)
  | between hf he hne => rw [Xml.Event.opens_of_ne names he hne, hl hs]
  | _ => cases hs

theorem Path.opened_eq_nil {es : List Event} (h : Path s es s')
    (hl : s.schema = none → names = []) (hs : s'.schema = none) : opened names es = [] := by
  induction h generalizing names with
  | done => exact hl hs
  | move he h hp ih => exact ih (h.opens_eq_nil hl) hs
  | single hf h₁ h₂ hp ih => exact ih (h₂.opens_eq_nil (h₁.opens_eq_nil hl)) hs
  | skipped hf hp ih => exact ih hl hs

/-- The definitions so far are the first of those that there will be. -/
def Begins (sc : Schema) (s : State) : Prop :=
  ∃ sc', s.schema = some sc' ∧ sc'.package = sc.package ∧ sc'.description = sc.description ∧
    sc.definitions <+: sc'.definitions

theorem Begins.add {sc sc' : Schema} {place place' : Place} {d : Definition}
    (h : Begins sc ⟨some sc', place⟩) : Begins sc ⟨some (sc'.add d), place'⟩ := by
  obtain ⟨sc', hs, hp, hd, hb⟩ := h
  cases hs
  exact ⟨_, rfl, hp, hd, hb.trans (List.prefix_append _ _)⟩

theorem Moves.begins {sc : Schema} {e : Event} (h : Moves s e s') (hb : Begins sc s) :
    Begins sc s' := by
  cases h with
  | root hn h =>
    obtain ⟨sc', hs, -⟩ := hb
    cases hs
  | endEnum h => exact hb.add
  | endStruct h => exact hb.add
  | _ => exact hb

end State

/-- The text ends in the schema element: in its first tag, or where the element is open. -/
inductive Inside (x : Xml.Stream) : Prop
  | tag (he : ∀ e ∈ x.events, e.tag? = none)
      (hf : x.fault = some .tagNotClosed ∨ ∃ quote, x.fault = some (.valueNotClosed quote))
  | content (h : (opened [] x.events).getLast? = some "sumSchema")

/-- How the text is read that is the beginning of one with the schema `s`, where `st` is the reader
at the cut. -/
structure CutOff (s : Schema) (text : String) (st : State) : Prop where
  run : (Xml.Stream.ofText text).events.foldlM State.step .start = .ok st
  /-- It is refused unless the cut is in no markup and in no definition. -/
  refused_iff : (∃ e, Schema.ofXml text = .error e) ↔
    (Xml.Stream.ofText text).fault ≠ none ∨ st.place ≠ .document
  /-- There is none if only the schema element is open. -/
  document_iff : (Xml.Stream.ofText text).fault = none →
    Unnested [] (Xml.Stream.ofText text).events →
    (st.place = .document ↔ opened [] (Xml.Stream.ofText text).events = ["sumSchema"])
  /-- The error tells what is not closed. -/
  error_eq : ∀ e, Schema.ofXml text = .error e →
    (∃ fault, (Xml.Stream.ofText text).fault = some fault ∧ e = .xml fault) ∨
      ∃ name, e = .invalidStructure (.unterminatedEnum name) ∨
        e = .invalidStructure (.unterminatedElement name)
  /-- What is loaded nevertheless lacks definitions at the end, if any. -/
  beginning : ∀ s', Schema.ofXml text = .ok s' → s'.package = s.package ∧
    s'.description = s.description ∧ s'.definitions <+: s.definitions

theorem Inside.opened_ne_nil {x : Xml.Stream} (h : Inside x) (hf : x.fault = none) :
    opened [] x.events ≠ [] := by
  cases h with
  | tag he hf' => simp [hf] at hf'
  | content h =>
    intro ho
    rw [ho] at h
    cases h

/-- What is open tells whether the reader is in a definition. -/
theorem State.Level.document_iff {s : State} {names : List String} (h : s.Level names)
    (hn : names ≠ []) : s.place = .document ↔ names = ["sumSchema"] := by
  obtain ⟨sc, place⟩ := s
  constructor
  · rintro rfl
    exact h.2.resolve_left hn
  · rintro rfl
    cases place with
    | document => rfl
    | enum e => simpa [Place.standing] using h.2
    | payload owner fields => cases owner <;> simpa [Place.standing, ownerStanding] using h.2
    | text owner fields f cs => simpa [Place.standing] using h.2

/-- Where there is a schema, only a definition that is open keeps it back. -/
theorem State.schema?_cases {s : State} (hs : s.schema ≠ none) :
    s.place = .document ∧ (∃ sc, s.schema? = .ok sc) ∨
      s.place ≠ .document ∧ ∃ name,
        s.schema? = .error (.invalidStructure (.unterminatedEnum name)) ∨
          s.schema? = .error (.invalidStructure (.unterminatedElement name)) := by
  obtain ⟨sc, place⟩ := s
  cases place with
  | document =>
    obtain ⟨sc, rfl⟩ := Option.ne_none_iff_exists'.mp hs
    exact .inl ⟨rfl, sc, rfl⟩
  | enum e => exact .inr ⟨nofun, e.name, .inl rfl⟩
  | payload owner fields => exact .inr ⟨nofun, owner.name, .inr rfl⟩
  | text owner fields f cs => exact .inr ⟨nofun, owner.name, .inr rfl⟩

theorem ofStream_of_run {x : Xml.Stream} {s : State}
    (h : x.events.foldlM State.step .start = .ok s) :
    ofStream x = match x.fault with
      | some fault => .error (.xml fault)
      | none => s.schema? := by
  simp only [ofStream, load, h, ok_bind]
  cases x.fault <;> rfl

theorem cutOff_of_ofXml {whole text : String} {s : Schema} (hs : Schema.ofXml whole = .ok s)
    (hp : text.toList <+: whole.toList) (hi : Inside (.ofText text)) :
    ∃ st, CutOff s text st := by
  -- the reader of the whole text goes through the state at the cut
  obtain ⟨es, hes⟩ := Xml.Stream.events_prefix hp
  obtain ⟨-, hrun⟩ := ofStream_eq_ok.mp hs
  rw [← hes, List.foldlM_append] at hrun
  obtain ⟨st, hst, hrest⟩ := bind_eq_ok.mp hrun
  have hpath := State.path_of_run State.ready_start hst
  have hpath' := State.path_of_run (hpath.ready State.ready_start) hrest
  have hread : Schema.ofXml text = _ := ofStream_of_run hst
  have hsc (hf : (Xml.Stream.ofText text).fault = none) : st.schema ≠ none := fun h =>
    hi.opened_ne_nil hf (hpath.opened_eq_nil (fun _ => rfl) h)
  refine ⟨st, hst, ?_, ?_, ?_, ?_⟩
  · rw [hread]
    cases hf : (Xml.Stream.ofText text).fault with
    | some fault => simp
    | none =>
      obtain ⟨hd, sc, h⟩ | ⟨hd, name, h | h⟩ := State.schema?_cases (hsc hf) <;> simp [h, hd]
  · intro hf hu
    exact (hpath.level ⟨fun _ => rfl, .inl rfl⟩ hu).document_iff (hi.opened_ne_nil hf)
  · intro e he
    rw [hread] at he
    cases hf : (Xml.Stream.ofText text).fault with
    | some fault =>
      rw [hf] at he
      cases he
      exact .inl ⟨fault, rfl, rfl⟩
    | none =>
      rw [hf] at he
      obtain ⟨hd, sc, h⟩ | ⟨hd, name, h | h⟩ := State.schema?_cases (hsc hf)
      · cases h.symm.trans he
      · exact .inr ⟨name, .inl (Except.error.inj (he.symm.trans h))⟩
      · exact .inr ⟨name, .inr (Except.error.inj (he.symm.trans h))⟩
  · intro s' hs'
    obtain ⟨-, hst'⟩ := ofStream_eq_ok.mp hs'
    obtain rfl := Except.ok.inj (hst.symm.trans hst')
    obtain ⟨sc, hsc, hp, hd, hb⟩ := hpath'.preserves (fun _ _ _ hm => hm.begins)
      ⟨s', rfl, rfl, rfl, List.prefix_rfl⟩
    cases hsc
    exact ⟨hp.symm, hd.symm, hb⟩

namespace Pair

def first : String := "<sumSchema package='p'><struct name='A'/>"

def inSecond : String := first ++ "<struct name='B'>"

def whole : String := inSecond ++ "</struct></sumSchema>"

def struct (name : String) : Struct := ⟨name, none, []⟩

def schema (names : List String) : Schema :=
  .ofDefinitions "p" none (names.map fun name => .struct (struct name))

theorem ofXml_whole : Schema.ofXml whole = .ok (schema ["A", "B"]) := by decide +kernel

theorem run_inSecond : (Xml.Stream.ofText inSecond).events.foldlM State.step .start =
    .ok ⟨some (schema ["A"]), .payload (.struct (struct "B")) []⟩ := by
  decide +kernel

end Pair

theorem cutOff_pair :
    Schema.ofXml Pair.whole = .ok (Pair.schema ["A", "B"]) ∧
      Pair.inSecond.toList <+: Pair.whole.toList ∧ Inside (.ofText Pair.inSecond) ∧
      ∃ e, Schema.ofXml Pair.inSecond = .error e := by
  have hp : Pair.inSecond.toList <+: Pair.whole.toList := by decide +kernel
  have hi : Inside (.ofText Pair.inSecond) := .content (by decide +kernel)
  obtain ⟨st, h⟩ := cutOff_of_ofXml Pair.ofXml_whole hp hi
  obtain rfl := Except.ok.inj (h.run.symm.trans Pair.run_inSecond)
  exact ⟨Pair.ofXml_whole, hp, hi, h.refused_iff.mpr (.inr nofun)⟩

/-- The end of the schema element is not waited for. -/
theorem ofXml_first :
    Schema.ofXml Pair.whole = .ok (Pair.schema ["A", "B"]) ∧
      Pair.first.toList <+: Pair.whole.toList ∧ Inside (.ofText Pair.first) ∧
      Schema.ofXml Pair.first = .ok (Pair.schema ["A"]) :=
  ⟨Pair.ofXml_whole, by decide +kernel, .content (by decide +kernel), by decide +kernel⟩

end TaggedSum.Element
