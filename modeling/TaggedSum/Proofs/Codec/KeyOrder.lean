import TaggedSum.Proofs.Codec.Canonical
import TaggedSum.Proofs.Codec.Replacement
import TaggedSum.Proofs.Json.Order
import TaggedSum.Proofs.Schema.Reference

namespace TaggedSum

open Outcome

/-- Both runs end with the same value or both fail, in the exact case with the same error. -/
def Comparison.success (exact : Prop) : Comparison where
  rel x y := (∀ a, x = .ok a ↔ y = .ok a) ∧ (exact → x = y)
  refl _ := ⟨fun _ => .rfl, fun _ => rfl⟩
  bind h h' := by
    refine ⟨fun b => ?_, fun hx => ?_⟩
    · simp only [bind_eq_ok, h.1, (h' _).1]
    · rw [h.2 hx, funext fun a => (h' a).2 hx]
  within place h := by
    refine ⟨fun a => ?_, fun hx => ?_⟩
    · rw [mapError_eq_ok, mapError_eq_ok, h.1]
    · rw [h.2 hx]

/-- What is read of the entries in one order is read of them in another, and each entry is read as
it was. -/
theorem Slot.entries_of_reordered {α : Type} {read : Json → Location → Except DecodeError α}
    {place : Location} {ms ms' : List (String × Json)} {es : List (String × α)}
    (hn : (Members.names ms).Perm (Members.names ms')) (hd : (Members.names ms).Nodup)
    (hread : ∀ name j j', Members.get? name ms = some j → Members.get? name ms' = some j' →
      ∀ a, read j (.entry place name) = .ok a → read j' (.entry place name) = .ok a)
    (h : Slot.entries read place ms = .ok es) :
    ∃ es', Slot.entries read place ms' = .ok es' ∧ ∀ e ∈ es', e ∈ es := by
  have hall : ∀ m ∈ ms', ∃ e, m.1 = e.1 ∧ read m.2 (.entry place m.1) = .ok e.2 ∧ e ∈ es := by
    rintro ⟨name, j'⟩ hm
    have hj' := Members.get?_of_mem (hn.nodup_iff.mp hd) hm
    obtain ⟨j, hj⟩ := Members.get?_of_mem_names (hn.mem_iff.mpr (Members.mem_names_of_mem hm))
    obtain ⟨e, he, rfl, ha⟩ :=
      Lists.exists_of_mem_left (Slot.entries_eq_ok_iff.mp h) (Members.mem_of_get? hj)
    exact ⟨e, rfl, hread _ _ _ hj hj' _ ha, he⟩
  obtain ⟨es', hes'⟩ := Lists.exists_forall₂ hall
  refine ⟨es', Slot.entries_eq_ok_iff.mpr (hes'.imp fun _ _ h => ⟨h.1, h.2.1⟩), fun e he => ?_⟩
  obtain ⟨m, -, -, -, hmem⟩ := Lists.exists_of_mem_right hes' he
  exact hmem

/-- A mapping is read from its entries in any order. -/
theorem Slot.map_of_reordered {α : Type} {read : Json → Location → Except DecodeError α}
    {place : Location} {ms ms' : List (String × Json)} {as : List (String × α)}
    (hn : (Members.names ms).Perm (Members.names ms')) (hd : (Members.names ms).Nodup)
    (hread : ∀ name j j', Members.get? name ms = some j → Members.get? name ms' = some j' →
      ∀ a, read j (.entry place name) = .ok a → read j' (.entry place name) = .ok a)
    (h : Slot.map read (.object ms) place = .ok as) :
    Slot.map read (.object ms') place = .ok as := by
  obtain ⟨ms, es, hms, hes, rfl⟩ := Slot.map_eq_ok_iff.mp h
  cases hms
  obtain ⟨es', hes', hmem⟩ := Slot.entries_of_reordered hn hd hread hes
  have hne := Members.names_related (Slot.related_of_entries hes)
  have hne' := Members.names_related (Slot.related_of_entries hes')
  have hnd : (Members.names es).Nodup := hne ▸ hd
  refine Slot.map_eq_ok_iff.mpr ⟨ms', es', rfl, hes', ?_⟩
  refine Members.sorted_eq_of_get? (Members.ascending_sorted es) ?_ ?_ ?_
  · exact hne' ▸ hn.nodup_iff.mp hd
  · intro n
    rw [Members.mem_names_sorted hnd, ← hne, ← hne', hn.mem_iff]
  · intro e he
    rw [Members.get?_sorted hnd, Members.get?_of_mem hnd (hmem e he)]

section Reordered

open Comparison

variable {exact : Prop} {f : String → Option Decoder} {ek : ExtraKeys} {j j' : Json}

theorem slots_reordered {t : FieldType} (hx : exact → ¬t.HoldsMap)
    (href : ∀ r, t.reference? = some r → ∀ j j', j.Distinct → j.Reordered j' →
      (success exact).Slots f f (.reference r) j j')
    (hd : j.Distinct) (h : j.Reordered j') : (success exact).Slots f f t j j' := by
  induction t generalizing j j' with
  | string => cases h <;> exact fun _ => (success exact).refl _
  | bool => cases h <;> exact fun _ => (success exact).refl _
  | signed w => cases h <;> exact fun _ => (success exact).refl _
  | unsigned w => cases h <;> exact fun _ => (success exact).refl _
  | reference name => exact href name rfl _ _ hd h
  | seq item ih =>
    cases h with
    | same => exact fun _ => (success exact).refl _
    | object => exact fun _ => (success exact).refl _
    | array hl h =>
      cases hd with
      | array hd =>
        refine slots_seq (Lists.forall₂_of_getElem? hl fun n k k' hk hk' => ?_)
        exact ih (fun he hm => hx he (.seq hm)) href (hd k (List.mem_of_getElem? hk))
          (h n k k' hk hk')
  | map entry ih =>
    cases h with
    | same => exact fun _ => (success exact).refl _
    | array => exact fun _ => (success exact).refl _
    | @object ms ms' hn h =>
      cases hd with
      | object hnd hd =>
        have hentry : ∀ name k k', Members.get? name ms = some k →
            Members.get? name ms' = some k' → (success exact).Slots f f entry k k' :=
          fun name k k' hk hk' => ih (fun he _ => hx he .map) href
            (hd _ (Members.mem_of_get? hk)) (h name k k' hk hk')
        intro place
        -- which entry fails first depends on the order, so only success is kept
        refine Comparison.map (C := success exact)
          ⟨fun as => ⟨?_, ?_⟩, fun he => absurd .map (hx he)⟩ _
        · exact Slot.map_of_reordered hn hnd fun name k k' hk hk' a =>
            ((hentry name k k' hk hk' _).1 a).mp
        · exact Slot.map_of_reordered hn.symm (hn.nodup_iff.mp hnd) fun name k' k hk' hk a =>
            ((hentry name k k' hk hk' _).1 a).mpr

theorem payloads_reordered {l : Layout} (hs : ∀ t ∈ l.types, ∀ j j', j.Distinct →
      j.Reordered j' → (success exact).Slots f f t j j')
    (hd : j.Distinct) (h : j.Reordered j') : (success exact).Payloads f f l j j' := by
  cases l with
  | unit => cases h <;> exact (success exact).refl _
  | newtype t => exact payloads_newtype (hs t List.mem_cons_self _ _ hd h)
  | tuple ts =>
    cases h with
    | same => exact (success exact).refl _
    | object => exact (success exact).refl _
    | array hl h =>
      cases hd with
      | array hd =>
        exact payloads_tuple hl fun n t k k' ht hk hk' => hs t (List.mem_of_getElem? ht) k k'
          (hd k (List.mem_of_getElem? hk)) (h n k k' hk hk')
  | struct fields =>
    cases h with
    | same => exact (success exact).refl _
    | array => exact (success exact).refl _
    | @object ms ms' hn h =>
      cases hd with
      | object hnd hd =>
        refine payloads_struct fun name t ht => ?_
        by_cases hname : name ∈ Members.names ms
        · obtain ⟨k, hk⟩ := Members.get?_of_mem_names hname
          obtain ⟨k', hk'⟩ := Members.get?_of_mem_names (hn.mem_iff.mp hname)
          exact .inr ⟨k, k', hk, hk', hs t (List.mem_map_of_mem ht) k k'
            (hd _ (Members.mem_of_get? hk)) (h name k k' hk hk')⟩
        · have hname' := mt hn.mem_iff.mpr hname
          exact .inl ⟨Members.get?_eq_none_iff.mpr hname, Members.get?_eq_none_iff.mpr hname'⟩

theorem choice_reordered {e : EnumCodec} (hp : ∀ v ∈ e.variants, ∀ j j', j.Distinct →
      j.Reordered j' → (success exact).Payloads f f v.layout j j')
    (hd : j.Distinct) (h : j.Reordered j') :
    (success exact).rel (Decode.choice f ek e j) (Decode.choice f ek e j') := by
  cases h with
  | same => exact (success exact).refl _
  | array => exact (success exact).refl _
  | object hn h =>
    cases hd with
    | object hnd hd =>
      refine Comparison.choice hn fun v tag k k' hv hk hk' => ?_
      exact hp v (List.mem_of_find?_eq_some hv) k k' (hd _ hk.mem) (h tag k k'
        (Members.get?_of_mem hnd hk.mem) (Members.get?_of_mem (hn.nodup_iff.mp hnd) hk'.mem))

variable {s : Schema} {ir : Resolved.Schema} {name : String}

/-- Every definition that a name reaches is read alike from documents that differ in their order. -/
theorem definition_reordered (hs : Resolved.Schema.ofSchema s = .ok ir)
    (hx : exact → ∀ d, s.Needs name d → ∀ field ∈ d.fields, ¬field.type.HoldsMap) :
    ∀ c ∈ (CodecPlan.ofSchema ek ir).codecs, s.Reaches name c.name → ∀ j j', j.Distinct →
      j.Reordered j' → (success exact).rel
        (Decode.definition (CodecPlan.ofSchema ek ir).decoder ek c j)
        (Decode.definition (CodecPlan.ofSchema ek ir).decoder ek c j') := by
  have hg := grounded_ofSchema ek hs
  refine hg.induction_slots fun c hc ih hreach => ?_
  obtain ⟨d, hd, r, hr, rfl⟩ := exists_definition ek hs hc
  rw [name_ofDefinition hr] at hreach
  have hp : ∀ l ∈ (Codec.ofDefinition r).layouts, ∀ j j', j.Distinct → j.Reordered j' →
      (success exact).Payloads (CodecPlan.ofSchema ek ir).decoder
        (CodecPlan.ofSchema ek ir).decoder l j j' := by
    intro l hl j j'
    refine payloads_reordered fun t ht j j' => ?_
    obtain ⟨field, hfield, rfl⟩ := exists_field hr hl ht
    refine slots_reordered (fun he => hx he d ⟨hd, hreach⟩ field hfield) fun n hn j j' hj h => ?_
    refine slots_reference_of_get? hg hg rfl fun c hget => ?_
    have hname := ((CodecPlan.get?_eq_some_iff hg).mp hget).2
    have hmore : s.Reaches name c.name := hreach.tail
      ⟨d, hd, rfl, field, hfield, FieldType.mentions_iff.mpr (hname ▸ hn)⟩
    exact ih l hl _ ht n hn c hget hmore j j' hj h
  intro j j' hj h
  generalize Codec.ofDefinition r = c at hp ⊢
  cases c with
  | enum e =>
    exact Comparison.map (choice_reordered (fun v hv => hp _ (List.mem_map_of_mem hv)) hj h) _
  | record r => exact Comparison.map (hp _ List.mem_cons_self j j' hj h) _

theorem decode?_reordered (hs : Resolved.Schema.ofSchema s = .ok ir)
    (hx : exact → ∀ d, s.Needs name d → ∀ field ∈ d.fields, ¬field.type.HoldsMap)
    (hd : j.Distinct) (h : j.Reordered j') :
    (∀ v, (CodecPlan.ofSchema ek ir).decode? name j = some (.ok v) ↔
      (CodecPlan.ofSchema ek ir).decode? name j' = some (.ok v)) ∧
    (exact → (CodecPlan.ofSchema ek ir).decode? name j =
      (CodecPlan.ofSchema ek ir).decode? name j') := by
  have hg := grounded_ofSchema ek hs
  simp only [CodecPlan.decode?_eq hg]
  cases hc : (CodecPlan.ofSchema ek ir).get? name with
  | none => exact ⟨fun _ => .rfl, fun _ => rfl⟩
  | some c =>
    obtain ⟨hmem, rfl⟩ := (CodecPlan.get?_eq_some_iff hg).mp hc
    have hrel := definition_reordered hs hx c hmem .refl j j' hd h
    simp only [Option.map_some, Option.some.injEq]
    exact hrel

end Reordered

/-- A member is put into the object of a struct payload that does not declare it. -/
def Replacement.undeclared : Replacement where
  definition _ _ _ := False
  payload l j j' := ∃ fields ms ns key k, l = .struct fields ∧ key ∉ Members.names fields ∧
    j = .object (ms ++ ns) ∧ j' = .object (ms ++ (key, k) :: ns)

theorem Replacement.sound_undeclared (p : CodecPlan) : undeclared.Sound p where
  definition _ hr := hr.elim
  payload hr := by
    obtain ⟨fields, ms, ns, key, k, rfl, hkey, rfl, rfl⟩ := hr
    refine Comparison.equal.payloads_struct fun name t ht => Comparison.member_of_get?_eq ?_
    have hne : key ≠ name := fun he => hkey (he ▸ Members.mem_names_of_mem ht)
    rw [Members.get?_append, Members.get?_append, Members.get?, if_neg hne]

namespace CodecPlan

/-- Reordering the members of objects does not change whether a document is read, nor as what; where
no mapping is reached, not even the error. Members of struct payloads that are not declared change
nothing. -/
theorem keyOrder_of_ofSchema {s : Schema} {ir : Resolved.Schema} (ek : ExtraKeys) (name : String)
    (h : Resolved.Schema.ofSchema s = .ok ir) :
    (∀ j j', j.Distinct → j.Reordered j' → ∀ v,
      (ofSchema ek ir).decode? name j = some (.ok v) ↔
        (ofSchema ek ir).decode? name j' = some (.ok v)) ∧
    ((∀ d, s.Needs name d → ∀ field ∈ d.fields, ¬field.type.HoldsMap) →
      ∀ j j', j.Distinct → j.Reordered j' →
        (ofSchema ek ir).decode? name j = (ofSchema ek ir).decode? name j') ∧
    ∀ j j', (ofSchema ek ir).Replaced .undeclared name j j' →
      (ofSchema ek ir).decode? name j = (ofSchema ek ir).decode? name j' := by
  refine ⟨fun j j' hj hr => ?_, fun hx j j' hj hr => ?_, fun j j' hr => ?_⟩
  · exact (decode?_reordered h False.elim hj hr).1
  · exact (decode?_reordered h (fun _ : True => hx) hj hr).2 trivial
  · exact decode?_replaced (grounded_ofSchema ek h) (Replacement.sound_undeclared _) hr

end CodecPlan

namespace Pages

def sizedDot : List (String × Json) :=
  [("size", .null), ("dot", .number (.double ⟨false, 7 * pow2 50, -50⟩))]

/-- The stray page with the members of its objects backwards. -/
def turned : Json :=
  .object [("marks", .array [.object sizedDot.reverse, .string "Blank"]), ("author", .null),
    ("title", .string "one")]

/-- The turned page without its author. -/
def turnedAnonymous : Json :=
  .object [("marks", .array [.object sizedDot.reverse, .string "Blank"]),
    ("title", .string "one")]

theorem distinct_stray : stray.Distinct := by
  simp [stray]

theorem reordered_stray : stray.Reordered turned := by
  have hdot : Json.Reordered (.object sizedDot) (.object sizedDot.reverse) :=
    .of_perm (by decide) (List.forall₂_same.mpr fun m _ => ⟨rfl, .same m.2⟩)
      (List.reverse_perm _).symm
  have hmarks : Json.Reordered (.array [.object sizedDot, .string "Blank"])
      (.array [.object sizedDot.reverse, .string "Blank"]) := by
    refine .array rfl fun n j j' hj hj' => ?_
    rcases n with _ | _ | n
    · cases hj
      cases hj'
      exact hdot
    · cases hj
      cases hj'
      exact .same _
    · cases hj
  have hmembers : Members.Related Json.Reordered
      [("title", .string "one"), ("author", .null),
        ("marks", .array [.object sizedDot, .string "Blank"])]
      [("title", .string "one"), ("author", .null),
        ("marks", .array [.object sizedDot.reverse, .string "Blank"])] :=
    .cons ⟨rfl, .same _⟩ (.cons ⟨rfl, .same _⟩ (.cons ⟨rfl, hmarks⟩ .nil))
  exact .of_perm (by decide) hmembers (List.reverse_perm _).symm

theorem replaced_turned (ek : ExtraKeys) :
    (plan ek).Replaced .undeclared "Page" turnedAnonymous turned :=
  .single (.reference rfl (.record (.here ⟨_, [("marks", _)], _, "author", .null, rfl,
    (by decide : "author" ∉ ["title", "marks"]), rfl, rfl⟩)))

theorem not_holdsMap (d : Definition) (h : schema.Needs "Page" d) :
    ∀ field ∈ d.fields, ¬field.type.HoldsMap := by
  intro field hf hm
  rcases List.mem_pair.mp h.1 with rfl | rfl
  · rcases List.mem_pair.mp hf with rfl | rfl
    · cases hm
    · cases hm with
      | seq hm => cases hm
  · cases List.mem_singleton.mp hf
    cases hm

end Pages

/-- The stray page is read in either direction, with its author and without. -/
theorem CodecPlan.keyOrder_stray :
    Resolved.Schema.ofSchema Pages.schema = .ok Pages.resolved ∧
      Pages.stray.Distinct ∧ Pages.stray.Reordered Pages.turned ∧
      (∀ d, Pages.schema.Needs "Page" d → ∀ field ∈ d.fields, ¬field.type.HoldsMap) ∧
      (CodecPlan.ofSchema .ignore Pages.resolved).decode? "Page" Pages.turnedAnonymous =
        some (.ok Pages.dotted) ∧
      (CodecPlan.ofSchema .reject Pages.resolved).decode? "Page" Pages.stray =
        (CodecPlan.ofSchema .reject Pages.resolved).decode? "Page" Pages.turnedAnonymous := by
  obtain ⟨hok, -, hundeclared⟩ :=
    CodecPlan.keyOrder_of_ofSchema .ignore "Page" Pages.ofSchema_schema
  obtain ⟨-, hexact, hundeclared'⟩ :=
    CodecPlan.keyOrder_of_ofSchema .reject "Page" Pages.ofSchema_schema
  refine ⟨Pages.ofSchema_schema, Pages.distinct_stray, Pages.reordered_stray,
    Pages.not_holdsMap, ?_, ?_⟩
  · rw [hundeclared _ _ (Pages.replaced_turned .ignore)]
    exact (hok _ _ Pages.distinct_stray Pages.reordered_stray _).mp Pages.decode?_stray
  · rw [hundeclared' _ _ (Pages.replaced_turned .reject)]
    exact hexact Pages.not_holdsMap _ _ Pages.distinct_stray Pages.reordered_stray

end TaggedSum
