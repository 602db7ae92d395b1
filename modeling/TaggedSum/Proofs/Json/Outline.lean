import TaggedSum.Proofs.Json.Text
import TaggedSum.Proofs.Outcome

namespace TaggedSum.Json

open Outline (Frame State place open? step run)
open Token (scan)

/-- The document holds texts and containers only, of which at most `room` are within each other. -/
inductive Fits : Nat → Json → Prop
  | string {room : Nat} (s : String) : Fits room (.string s)
  | array {room : Nat} {js : List Json} (h : ∀ j ∈ js, Fits room j) : Fits (room + 1) (.array js)
  | object {room : Nat} {ms : List (String × Json)} (h : ∀ m ∈ ms, Fits room m.2) :
    Fits (room + 1) (.object ms)

mutual

/-- How the text of the document is outlined. Numbers, which can be written in many ways, are left
out. -/
def outline : Json → Outline
  | .null => .null
  | .bool b => .bool b
  | .number _ => .broken
  | .string s => .text (Piece.ofText s)
  | .array js => .array (outlineItems js) true
  | .object ms => .object (outlineMembers ms) true

def outlineItems : List Json → List Outline
  | [] => []
  | j :: js => j.outline :: outlineItems js

def outlineMembers : List (String × Json) → List (List Piece × Outline)
  | [] => []
  | (k, j) :: ms => (Piece.ofText k, j.outline) :: outlineMembers ms

end

theorem scan_cons {c : Char} {cs : List Char} (h : Token.isSpace c = false) :
    scan (c :: cs) = (Token.first c cs).1 :: scan (Token.first c cs).2 := by
  have hd : (c :: cs).dropWhile Token.isSpace = c :: cs := by simp [h]
  rw [scan]
  split
  · rename_i hn
    rw [hd] at hn
    cases hn
  · rename_i hc
    rw [hd] at hc
    cases hc
    rfl

theorem scan_openArray (cs : List Char) : scan ('[' :: cs) = .openArray :: scan cs := scan_cons rfl

theorem scan_closeArray (cs : List Char) : scan (']' :: cs) = .closeArray :: scan cs :=
  scan_cons rfl

theorem scan_openObject (cs : List Char) : scan ('\x7b' :: cs) = .openObject :: scan cs :=
  scan_cons rfl

theorem scan_closeObject (cs : List Char) : scan ('\x7d' :: cs) = .closeObject :: scan cs :=
  scan_cons rfl

theorem scan_colon (cs : List Char) : scan (':' :: cs) = .colon :: scan cs := scan_cons rfl

theorem scan_comma (cs : List Char) : scan (',' :: cs) = .comma :: scan cs := scan_cons rfl

theorem scan_stringChars (s : String) (cs : List Char) :
    scan (stringChars s ++ cs) = .text (Piece.ofText s) :: scan cs := by
  have hf : Token.first '"' (s.toList.flatMap escapeChar ++ '"' :: cs) =
      (.text (Piece.ofText s), cs) := by
    rw [Token.first, scanText_flatMap]
    rfl
  rw [stringChars, List.cons_append, List.append_assoc, List.singleton_append, scan_cons rfl, hf]

theorem run_cons {s s' : State} {t : Token} (h : step s t = some s') (ts : List Token) :
    run s (t :: ts) = run s' ts := by
  rw [run, h]

/-- The document is read wherever a value is awaited, and placed there. -/
def Readable (j : Json) : Prop :=
  ∀ (s : State) (frames : List Frame), (∀ t, t ≠ .closeArray → step s t = open? frames t) →
    ∀ cs, run s (scan (j.chars ++ cs)) = run (place j.outline frames) (scan cs)

theorem run_itemsChars {js : List Json} (h : ∀ j ∈ js, Readable j) (frames : List Frame)
    (vs : List Outline) (cs : List Char) :
    run ⟨frames, .moreItems vs⟩ (scan (itemsChars js ++ cs)) =
      run (place (.array (vs.reverse ++ outlineItems js) true) frames) (scan cs) := by
  induction js generalizing vs with
  | nil =>
    rw [itemsChars, List.singleton_append, scan_closeArray, outlineItems, List.append_nil]
    exact run_cons rfl _
  | cons j js ih =>
    obtain ⟨hj, hjs⟩ := List.forall_mem_cons.mp h
    have hcomma : step ⟨frames, .moreItems vs⟩ .comma = some ⟨frames, .item vs⟩ := rfl
    rw [itemsChars, List.cons_append, scan_comma, run_cons hcomma, List.append_assoc,
      hj ⟨frames, .item vs⟩ (.array vs :: frames) (fun t _ => rfl), place, ih hjs,
      List.reverse_cons, List.append_assoc, outlineItems, List.singleton_append]

/-- A name and its value, where a name is awaited -/
theorem run_member {k : String} {j : Json} (hj : Readable j) {s : State} {frames : List Frame}
    {vs : List (List Piece × Outline)}
    (hs : ∀ name, step s (.text name) = some ⟨frames, .colon vs name⟩) (cs : List Char) :
    run s (scan (stringChars k ++ ':' :: (j.chars ++ cs))) =
      run ⟨frames, .moreMembers ((Piece.ofText k, j.outline) :: vs)⟩ (scan cs) := by
  have hcolon (name : List Piece) : step ⟨frames, .colon vs name⟩ .colon =
      some ⟨.member vs name :: frames, .value⟩ := rfl
  rw [scan_stringChars, run_cons (hs _), scan_colon, run_cons (hcolon _),
    hj _ _ (fun t _ => rfl), place]

theorem run_membersChars {ms : List (String × Json)} (h : ∀ m ∈ ms, Readable m.2)
    (frames : List Frame) (vs : List (List Piece × Outline)) (cs : List Char) :
    run ⟨frames, .moreMembers vs⟩ (scan (membersChars ms ++ cs)) =
      run (place (.object (vs.reverse ++ outlineMembers ms) true) frames) (scan cs) := by
  induction ms generalizing vs with
  | nil =>
    rw [membersChars, List.singleton_append, scan_closeObject, outlineMembers, List.append_nil]
    exact run_cons rfl _
  | cons m ms ih =>
    obtain ⟨k, j⟩ := m
    obtain ⟨hj, hms⟩ := List.forall_mem_cons.mp h
    have hcomma : step ⟨frames, .moreMembers vs⟩ .comma = some ⟨frames, .name vs⟩ := rfl
    rw [membersChars, List.cons_append, scan_comma, run_cons hcomma, List.append_assoc,
      List.cons_append, List.append_assoc, run_member hj (fun _ => rfl), ih hms,
      List.reverse_cons, List.append_assoc, outlineMembers, List.singleton_append]

theorem readable_of_fits {room : Nat} {j : Json} (h : j.Fits room) : Readable j := by
  induction h with
  | string t =>
    intro s frames hs cs
    have hstep := hs (.text (Piece.ofText t)) (by simp)
    rw [chars, scan_stringChars, run_cons hstep, outline]
  | @array room js h ih =>
    intro s frames hs cs
    have hstep : step s .openArray = some ⟨frames, .firstItem⟩ := hs .openArray (by simp)
    cases js with
    | nil =>
      have hclose : step ⟨frames, .firstItem⟩ .closeArray = some (place (.array [] true) frames) :=
        rfl
      rw [chars, List.cons_append, scan_openArray, run_cons hstep, List.singleton_append,
        scan_closeArray, run_cons hclose, outline, outlineItems]
    | cons j js =>
      obtain ⟨hj, hjs⟩ := List.forall_mem_cons.mp ih
      -- only the bracket that closes is not taken for an item behind the one that opens
      have hitem : ∀ t, t ≠ .closeArray →
          step ⟨frames, .firstItem⟩ t = open? (.array [] :: frames) t := by
        intro t ht
        cases t with
        | closeArray => exact absurd rfl ht
        | _ => rfl
      rw [chars, List.cons_append, scan_openArray, run_cons hstep, List.append_assoc,
        hj _ _ hitem, place, run_itemsChars hjs, outline, outlineItems]
      rfl
  | @object room ms h ih =>
    intro s frames hs cs
    have hstep : step s .openObject = some ⟨frames, .firstName⟩ := hs .openObject (by simp)
    cases ms with
    | nil =>
      have hclose : step ⟨frames, .firstName⟩ .closeObject =
          some (place (.object [] true) frames) := rfl
      rw [chars, List.cons_append, scan_openObject, run_cons hstep, List.singleton_append,
        scan_closeObject, run_cons hclose, outline, outlineMembers]
    | cons m ms =>
      obtain ⟨k, j⟩ := m
      obtain ⟨hj, hms⟩ := List.forall_mem_cons.mp ih
      rw [chars, List.cons_append, scan_openObject, run_cons hstep, List.append_assoc,
        List.cons_append, List.append_assoc, run_member hj (fun _ => rfl), run_membersChars hms,
        outline, outlineMembers]
      rfl

/-- The text of the document is outlined as the document is. -/
theorem ofText_render {room : Nat} {j : Json} (h : j.Fits room) :
    Outline.ofText j.render = ⟨j.outline, true⟩ := by
  have hr := readable_of_fits h .start [] (fun t _ => rfl) []
  have hn : scan [] = [] := by
    rw [scan]
    rfl
  rw [List.append_nil, hn] at hr
  rw [Outline.ofText, render, String.toList_ofList, hr]
  rfl

theorem items?_outlineItems {room : Nat} {js : List Json}
    (h : ∀ j ∈ js, j.outline.json? room = some j) :
    Outline.items? room (outlineItems js) = some js := by
  induction js with
  | nil => rfl
  | cons j js ih =>
    obtain ⟨hj, hjs⟩ := List.forall_mem_cons.mp h
    rw [outlineItems, Outline.items?, hj, ih hjs]
    rfl

theorem members?_outlineMembers {room : Nat} {ms : List (String × Json)}
    (h : ∀ m ∈ ms, m.2.outline.json? room = some m.2) :
    Outline.members? room (outlineMembers ms) = some ms := by
  induction ms with
  | nil => rfl
  | cons m ms ih =>
    obtain ⟨hj, hms⟩ := List.forall_mem_cons.mp h
    rw [outlineMembers, Outline.members?, Piece.text?_ofText, hj, ih hms]
    rfl

theorem json?_outline {room : Nat} {j : Json} (h : j.Fits room) :
    j.outline.json? room = some j := by
  induction h with
  | string t => rw [outline, Outline.json?, Piece.text?_ofText, Option.map_some]
  | array h ih =>
    rw [outline, Outline.json?, if_pos rfl, items?_outlineItems ih, Option.map_some]
  | object h ih =>
    rw [outline, Outline.json?, if_pos rfl, members?_outlineMembers ih, Option.map_some]

end TaggedSum.Json
