import TaggedSum.Proofs.Emit.Shows

namespace TaggedSum.Emit

open Outcome

/-- The run does not get stuck and ends as the outcome does, with related results. -/
inductive SameOutcome {α β : Type} (r : α → β → Prop) : Run α → Except DecodeError β → Prop
  | ok {a : α} {b : β} (h : r a b) : SameOutcome r (.of (.ok a)) (.ok b)
  | error (e : DecodeError) : SameOutcome r (.of (.error e)) (.error e)

namespace SameOutcome

variable {α β γ δ : Type} {r : α → β → Prop} {q : γ → δ → Prop} {x : Run α}
  {y : Except DecodeError β}

theorem of_eq {x : Run α} {y : Except DecodeError α} (h : x = .of y) :
    SameOutcome (fun a b => a = b ∧ y = .ok b) x y := by
  subst h
  cases y with
  | ok a => exact .ok ⟨rfl, rfl⟩
  | error e => exact .error e

theorem imp {r' : α → β → Prop} (h : SameOutcome r x y) (hr : ∀ a b, r a b → r' a b) :
    SameOutcome r' x y := by
  cases h with
  | ok h => exact .ok (hr _ _ h)
  | error e => exact .error e

theorem bind (h : SameOutcome r x y) {f : α → Run γ} {g : β → Except DecodeError δ}
    (hf : ∀ a b, r a b → SameOutcome q (f a) (g b)) : SameOutcome q (x >>= f) (y >>= g) := by
  cases h with
  | ok h => exact hf _ _ h
  | error e => exact .error e

/-- The last step of a run gives a result. -/
theorem bind_map (h : SameOutcome r x y) {f : α → γ} {g : β → δ}
    (hf : ∀ a b, r a b → q (f a) (g b)) :
    SameOutcome q (x >>= fun a => pure (f a)) (y.map g) := by
  cases h with
  | ok h => exact .ok (hf _ _ h)
  | error e => exact .error e

theorem map {z : Except DecodeError α} {f : α → γ} {g : α → δ}
    (hf : ∀ a, z = .ok a → q (f a) (g a)) : SameOutcome q (.of (z.map f)) (z.map g) := by
  cases z with
  | ok a => exact .ok (hf a rfl)
  | error e => exact .error e

theorem within (h : SameOutcome r x y) (place : Location) :
    SameOutcome r (x.within place) (y.mapError (.within place)) := by
  cases h with
  | ok h => exact .ok h
  | error e => exact .error _

section Lists

variable {read : Json → Location → Run α} {read' : Json → Location → Except DecodeError β}
  {place : Location}

theorem items (h : ∀ j place, SameOutcome r (read j place) (read' j place)) (i : Nat)
    (js : List Json) :
    SameOutcome (List.Forall₂ r) (Run.items read place i js) (Slot.items read' place i js) := by
  induction js generalizing i with
  | nil => exact .ok .nil
  | cons j js ih =>
    refine (h j _).bind fun a b hab => ?_
    exact (ih (i + 1)).bind fun as bs hs => .ok (.cons hab hs)

theorem entries (h : ∀ j place, SameOutcome r (read j place) (read' j place))
    (ms : List (String × Json)) :
    SameOutcome (Members.Related r) (Run.entries read place ms) (Slot.entries read' place ms) := by
  induction ms with
  | nil => exact .ok .nil
  | cons m ms ih =>
    refine (h m.2 _).bind fun a b hab => ?_
    exact ih.bind fun as bs hs => .ok (.cons ⟨rfl, hab⟩ hs)

theorem seq (h : ∀ j place, SameOutcome r (read j place) (read' j place)) (j : Json) :
    SameOutcome (List.Forall₂ r) (Run.seq read j place) (Slot.seq read' j place) := by
  cases j with
  | array js => exact items h 0 js
  | _ => exact .error _

theorem mapping (h : ∀ j place, SameOutcome r (read j place) (read' j place)) (j : Json) :
    SameOutcome (fun as bs => ∃ es, Members.Related r as bs ∧ Members.sorted es = bs)
      (Run.map read j place) (Slot.map read' j place) := by
  cases j with
  | object ms =>
    exact (entries h ms).bind_map fun as bs hs => ⟨bs, Members.related_sorted hs, rfl⟩
  | _ => exact .error _

end Lists

end SameOutcome

section Slot

variable {p : CodecPlan} {call : String → Json → Run Datum} {s : Scope}

/-- The calls of `from_json` for a reference do what the interpreter does. -/
def CallsRead (p : CodecPlan) (call : String → Json → Run Datum) (name : String) : Prop :=
  ∃ c, p.get? name = some c ∧ ∀ j, SameOutcome (CodecShows p.get? c) (call (identifier name) j)
    (Decode.definition p.decoder p.extraKeys c j)

/-- A reader looks its document and its place up before it reads. -/
theorem SameOutcome.operands {α β : Type} {r : α → β → Prop} {j : Operand} {place : PlaceTerm}
    {x : Except DecodeError Json} {l : Location} {f : Json → Location → Run α}
    {g : Json → Except DecodeError β} (hj : j.run s = .of x) (hp : place.run s = .of (.ok l))
    (h : ∀ k, SameOutcome r (f k l) (g k)) :
    SameOutcome r (j.run s >>= fun k => place.run s >>= f k) (x >>= g) := by
  refine (SameOutcome.of_eq hj).bind fun k _ hk => ?_
  obtain ⟨rfl, -⟩ := hk
  rw [hp]
  exact h k

/-- Wherever its operand and place come from, the reader of a slot does what the interpreter
does. -/
theorem ReadExpr.sameOutcome (hg : p.Grounded) {t : FieldType}
    (hc : ∀ r, t.reference? = some r → CallsRead p call r) {j : Operand} {place : PlaceTerm}
    {x : Except DecodeError Json} {l : Location} (hj : j.run s = .of x)
    (hp : place.run s = .of (.ok l)) :
    SameOutcome (SlotShows p.get? t) ((ReadExpr.ofType t j place).run call s)
      (x >>= fun j => Decode.slot p.decoder t j l) := by
  induction t generalizing j place s x l with
  | string =>
    refine .operands hj hp fun k => ?_
    exact .map fun s _ => .string s
  | bool =>
    refine .operands hj hp fun k => ?_
    exact .map fun b _ => .bool b
  | signed w =>
    refine .operands hj hp fun k => ?_
    refine .map fun i hi => ?_
    obtain ⟨-, -, -, hfits⟩ := Slot.integer_eq_ok_iff.mp hi
    exact .signed hfits
  | unsigned w =>
    refine .operands hj hp fun k => ?_
    refine .map fun n hn => ?_
    obtain ⟨-, -, -, hfits⟩ := Slot.unsigned_eq_ok_iff.mp hn
    exact .unsigned hfits
  | reference name =>
    obtain ⟨c, hget, hcall⟩ := hc name rfl
    refine .operands hj hp fun k => ?_
    simp only [Decode.slot, CodecPlan.decoder_eq hg, hget, Option.map_some]
    have h := (hcall k).within l
    exact h.imp fun d v hd => .reference hget hd
  | seq item ih =>
    refine .operands hj hp fun k => ?_
    -- the closure binds `item` and `at` innermost, whatever encloses it
    have hitem : ∀ k place, SameOutcome (SlotShows p.get? item)
        ((ReadExpr.ofType item (.name "item") (.name "at")).run call (s.each k place))
        (Decode.slot p.decoder item k place) := fun k l => ih hc (x := .ok k) (l := l) rfl rfl
    refine (SameOutcome.seq hitem k).bind_map fun ds vs hs => .seq hs.length_eq ?_
    exact fun n d v hd hv => Lists.rel_of_getElem? hs hd hv
  | map entry ih =>
    refine .operands hj hp fun k => ?_
    have hentry : ∀ k place, SameOutcome (SlotShows p.get? entry)
        ((ReadExpr.ofType entry (.name "item") (.name "at")).run call (s.each k place))
        (Decode.slot p.decoder entry k place) := fun k l => ih hc (x := .ok k) (l := l) rfl rfl
    refine (SameOutcome.mapping hentry k).bind_map fun ds es hs => ?_
    obtain ⟨vs, hs, rfl⟩ := hs
    refine .map (Members.ascending_sorted vs) (Members.names_related hs) ?_
    exact fun n d e hd he => (Lists.rel_of_getElem? hs hd he).2

end Slot

end TaggedSum.Emit
