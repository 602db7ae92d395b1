import TaggedSum.Proofs.Emit.Reading

namespace TaggedSum.Emit

open Outcome

variable {p : CodecPlan} {call : String → Json → Run Datum} {s : Scope}

theorem runElements_sameOutcome (hg : p.Grounded) {ts : List FieldType} {items js : List Json}
    {k : Nat} (hc : ∀ t ∈ ts, ∀ r, t.reference? = some r → CallsRead p call r)
    (hl : ts.length = js.length) (hs : s.items = some items)
    (hjs : ∀ (n : Nat), js[n]? = items[k + n]?) :
    SameOutcome (fun ds vs => ts.length = ds.length ∧ ts.length = vs.length ∧
        ∀ (n : Nat) (t : FieldType) (d : Datum) (v : Value), ts[n]? = some t → ds[n]? = some d →
          vs[n]? = some v → SlotShows p.get? t d v)
      (runElements call s ((ts.zipIdx k).map fun (t, i) => .ofType t (.element i) (.index i)))
      (Decode.elements p.decoder k ts js) := by
  induction ts generalizing js k with
  | nil => exact .ok ⟨rfl, rfl, fun n t d v ht => by simp at ht⟩
  | cons t ts ih =>
    cases js with
    | nil => cases hl
    | cons j js =>
      obtain ⟨hct, hcts⟩ := List.forall_mem_cons.mp hc
      have hj : (Operand.element k).run s = .of (.ok j) := by
        have h0 : items[k]? = some j := (hjs 0).symm
        simp only [Operand.run, hs, Option.bind_some, h0, Run.bound_some]
      have hrest : ∀ (n : Nat), js[n]? = items[k + 1 + n]? := by
        intro n
        have := hjs (n + 1)
        rwa [List.getElem?_cons_succ, Nat.add_comm n, ← Nat.add_assoc] at this
      refine (ReadExpr.sameOutcome hg hct hj rfl).bind fun d v hdv => ?_
      refine (ih hcts (Nat.succ.inj hl) hrest).bind fun ds vs hs => .ok ?_
      obtain ⟨hd, hv, hall⟩ := hs
      refine ⟨congrArg Nat.succ hd, congrArg Nat.succ hv, ?_⟩
      intro n t' d' v' ht' hd' hv'
      cases n with
      | zero =>
        cases ht'
        cases hd'
        cases hv'
        exact hdv
      | succ n => exact hall n t' d' v' ht' hd' hv'

theorem runMembers_sameOutcome (hg : p.Grounded) {fields : List (String × FieldType)}
    {object : List (String × Json)}
    (hc : ∀ t ∈ fields.map Prod.snd, ∀ r, t.reference? = some r → CallsRead p call r)
    (hs : s.object = some object) :
    SameOutcome (fun ds vs => Members.names ds = (Members.names fields).map identifier ∧
        Members.names vs = Members.names fields ∧
        ∀ name t, (name, t) ∈ fields → ∃ d v, (identifier name, d) ∈ ds ∧ (name, v) ∈ vs ∧
          SlotShows p.get? t d v)
      (runMembers call s
        (fields.map fun (name, t) => (name, .ofType t (.member name) (.field name))))
      (Decode.members p.decoder object fields) := by
  induction fields with
  | nil => exact .ok ⟨rfl, rfl, fun _ _ h => by cases h⟩
  | cons m fields ih =>
    obtain ⟨name, t⟩ := m
    obtain ⟨hct, hcts⟩ := List.forall_mem_cons.mp hc
    have hj : (Operand.member name).run s = .of (Slot.field object name) := by
      simp only [Operand.run, hs, Run.bound_some, Run.of_ok_bind]
    rw [Decode.members, ← bind_assoc]
    refine (ReadExpr.sameOutcome hg hct hj rfl).bind fun d v hdv => ?_
    refine (ih hcts).bind fun ds vs hs => .ok ?_
    obtain ⟨hd, hv, hall⟩ := hs
    refine ⟨by simp only [Members.names_cons, List.map_cons, hd],
      by simp only [Members.names_cons, hv], ?_⟩
    intro name' t' hm
    rcases List.mem_cons.mp hm with h | hm
    · obtain ⟨rfl, rfl⟩ := Prod.mk.inj h
      exact ⟨d, v, List.mem_cons_self, List.mem_cons_self, hdv⟩
    · obtain ⟨d', v', hd', hv', h⟩ := hall name' t' hm
      exact ⟨d', v', List.mem_cons_of_mem _ hd', List.mem_cons_of_mem _ hv', h⟩

/-- The lines that build a payload with members do what the interpreter does. -/
theorem runPayload_sameOutcome (hg : p.Grounded) {l : Layout} {source : String} {j : Json}
    (hl : l.names.Nodup) (hi : (l.names.map identifier).Nodup) (hu : l ≠ .unit)
    (hc : ∀ t ∈ l.types, ∀ r, t.reference? = some r → CallsRead p call r)
    (hj : Members.get? source s.documents = some j) :
    SameOutcome (PayloadShows p.get? l) (runPayload call source s (readPayload source l))
      (Decode.payload p.decoder l j) := by
  cases l with
  | unit => exact absurd rfl hu
  | newtype t =>
    have ho : (Operand.name source).run s = .of (.ok j) := by
      simp only [Operand.run, hj, Run.bound_some]
    exact (ReadExpr.sameOutcome hg (hc t List.mem_cons_self) ho rfl).bind_map
      fun d v h => .newtype h
  | tuple ts =>
    simp only [readPayload, runPayload, hj, Run.bound_some, Run.of_ok_bind, List.length_map,
      List.length_zipIdx, Decode.payload]
    -- the number of elements is checked before any of them is read
    refine (SameOutcome.of_eq rfl).bind fun js _ hjs => ?_
    obtain ⟨rfl, hjs⟩ := hjs
    obtain ⟨-, hlen⟩ := Slot.array_eq_ok_iff.mp hjs
    refine (runElements_sameOutcome hg hc hlen.symm rfl fun n => ?_).bind fun ds vs hs => .ok ?_
    · rw [Nat.zero_add]
    · exact .tuple hs.1 hs.2.1 hs.2.2
  | struct fields =>
    simp only [readPayload, runPayload, hj, Run.bound_some, Run.of_ok_bind, Decode.payload]
    refine (SameOutcome.of_eq rfl).bind fun object _ ho => ?_
    obtain ⟨rfl, -⟩ := ho
    refine (runMembers_sameOutcome hg hc rfl).bind fun ds vs hs => .ok ?_
    obtain ⟨hd, hv, hall⟩ := hs
    have hnd : (Members.names vs).Nodup := hv ▸ hl
    have hndi : (Members.names ds).Nodup := hd ▸ hi
    -- the interpreter sorts the members, the built value has them as they are declared
    refine .struct (Members.ascending_sorted vs) hd ?_ ?_
    · intro name
      rw [Members.mem_names_sorted hnd, hv]
    · intro name t d v ht hgd hgv
      obtain ⟨d', v', hd', hv', h⟩ := hall name t ht
      rw [Members.get?_of_mem hndi hd'] at hgd
      rw [Members.get?_sorted hnd, Members.get?_of_mem hnd hv'] at hgv
      obtain rfl := Option.some.inj hgd
      obtain rfl := Option.some.inj hgv
      exact h

/-- Whichever variants are left out, a tag finds the variant that it finds among all. -/
theorem find?_filter {e : EnumCodec} (h : e.tags.Nodup) (q : VariantCodec → Bool) (tag : String) :
    (e.variants.filter q).find? (·.tag = tag) = (e.variant? tag).filter q := by
  cases hv : e.variant? tag with
  | none =>
    rw [Option.filter_none, List.find?_eq_none]
    intro v hmem
    exact List.find?_eq_none.mp hv v (List.mem_of_mem_filter hmem)
  | some v =>
    obtain ⟨hmem, rfl⟩ := (EnumCodec.variant?_eq_some_iff h).mp hv
    cases hq : q v with
    | true =>
      have hn : ((e.variants.filter q).map (·.tag)).Nodup :=
        h.sublist (List.filter_sublist.map _)
      rw [Option.filter_some_pos hq]
      exact Lists.find?_of_nodup hn (List.mem_filter.mpr ⟨hmem, hq⟩)
    | false =>
      rw [Option.filter_some_neg (by simp [hq]), List.find?_eq_none]
      intro w hw
      obtain ⟨hw, hqw⟩ := List.mem_filter.mp hw
      simp only [decide_eq_true_eq]
      intro ht
      rw [List.inj_on_of_nodup_map h hw hmem ht, hq] at hqw
      cases hqw

theorem find?_readArm {vs : List VariantCodec} {tag : String} :
    (vs.map readArm).find? (·.tag = tag) = (vs.find? (·.tag = tag)).map readArm := by
  rw [List.find?_map]
  rfl

theorem ChoiceReader.sameOutcome (hg : p.Grounded) {e : EnumCodec}
    (hd : (TaggedSum.Codec.enum e).Distinct)
    (hi : ∀ l ∈ (TaggedSum.Codec.enum e).layouts, (l.names.map identifier).Nodup)
    (hc : ∀ r ∈ (TaggedSum.Codec.enum e).references, CallsRead p call r) (j : Json) :
    SameOutcome (CodecShows p.get? (.enum e))
      ((ChoiceReader.ofCodec p.extraKeys e).run call (identifier e.name) j)
      (Decode.definition p.decoder p.extraKeys (.enum e) j) := by
  rw [Decode.definition, Decode.choice, map_bind]
  refine (SameOutcome.of_eq rfl).bind fun tagged _ ht => ?_
  obtain ⟨rfl, -⟩ := ht
  -- arms with and without payload are printed apart; tags are distinct, so each is found as ever
  have hunits := fun tag => @EnumCodec.mem_units_iff_variant? e hd.tags tag
  cases tagged with
  | bare tag =>
    simp only [ChoiceReader.ofCodec, find?_readArm, find?_filter hd.tags, List.contains_iff_mem,
      hunits tag]
    cases hv : e.variant? tag with
    | none => simpa using .error _
    | some v =>
      obtain ⟨hmem, rfl⟩ := (EnumCodec.variant?_eq_some_iff hd.tags).mp hv
      by_cases hu : v.layout = .unit
      · simp only [Option.filter_some, VariantCodec.isUnit, hu, beq_self_eq_true, if_true,
          Option.map_some, Option.some.injEq, exists_eq_left', pure_def]
        exact .ok (.enum hmem (hu ▸ .unit))
      · -- a bare tag of a variant with payload falls through to the last arm
        simp only [Option.filter_some, VariantCodec.isUnit, beq_iff_eq, hu, if_false,
          Option.map_none, Option.some.injEq, exists_eq_left', throw_def]
        exact .error _
  | wrapped tag k =>
    simp only [ChoiceReader.ofCodec, find?_readArm, find?_filter hd.tags, List.contains_iff_mem,
      hunits tag]
    cases hv : e.variant? tag with
    | none => simpa using .error _
    | some v =>
      obtain ⟨hmem, rfl⟩ := (EnumCodec.variant?_eq_some_iff hd.tags).mp hv
      by_cases hu : v.layout = .unit
      · simp only [Option.filter_some, VariantCodec.isUnit, hu, beq_self_eq_true, Bool.not_true,
          Bool.false_eq_true, if_false, Option.map_none, Option.some.injEq, exists_eq_left',
          if_true, Decode.wrapped, map_error]
        exact .error _
      · have hl : v.layout ∈ (TaggedSum.Codec.enum e).layouts := List.mem_map_of_mem hmem
        have hk : Members.get? "payload" (Scope.ofDocument "payload" k).documents = some k := by
          simp only [Scope.ofDocument, Members.get?, if_true]
        have hp := runPayload_sameOutcome hg (hd.members _ hl) (hi _ hl) hu
          (fun t ht r hr => hc r (Codec.mem_references hl ht hr)) hk
        simp only [Option.filter_some, VariantCodec.isUnit, Bool.not_eq_true', beq_eq_false_iff_ne,
          ne_eq, hu, not_false_eq_true, if_true, Option.map_some, Decode.wrapped_eq hu, map_map]
        exact hp.bind_map fun d a h => .enum hmem h

/-- In a program whose types have distinct identifiers, each codec is found by its own. -/
theorem Program.find?_ofPlan (hr : RendersApart p) {c : Codec} (hc : c ∈ p.codecs) :
    (Program.ofPlan p).find? (·.type = identifier c.name) = some (.ofCodec p.extraKeys c) := by
  have htype : ∀ c, (Impl.ofCodec p.extraKeys c).type = identifier c.name := by
    intro c
    cases c <;> rfl
  have hn : (p.codecs.map fun c => identifier c.name).Nodup := by
    have := hr.types
    rwa [CodecPlan.names, List.map_map] at this
  rw [Program.ofPlan, List.find?_map]
  simp only [Function.comp_def, htype]
  rw [Lists.find?_of_nodup hn hc, Option.map_some]

end TaggedSum.Emit
