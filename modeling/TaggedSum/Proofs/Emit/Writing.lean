import TaggedSum.Proofs.Emit.Shows
import TaggedSum.Proofs.Text.Identifier

namespace TaggedSum.Emit

open Outcome

variable {p : CodecPlan} {call : Datum → Option Json}

theorem slotName_injective : Function.Injective slotName := Text.numbered_injective

theorem get?_slotName {ds : List Datum} {n i : Nat} {d : Datum} (hl : n = ds.length)
    (hd : ds[i]? = some d) : Members.get? (slotName i) ((slotNames n).zip ds) = some d := by
  have hlen : (slotNames n).length = ds.length := by simp [slotNames, hl]
  have hnames : Members.names ((slotNames n).zip ds) = slotNames n :=
    List.map_fst_zip (Nat.le_of_eq hlen)
  have hnd : (slotNames n).Nodup := List.nodup_range.map slotName_injective
  refine Members.get?_of_mem (hnames.symm ▸ hnd) ?_
  have hi : i < n := hl ▸ (List.getElem?_eq_some_iff.mp hd).1
  have hslot : (slotNames n)[i]? = some (slotName i) := by simp [slotNames, hi]
  exact List.mem_of_getElem? (List.getElem?_zip_eq_some.mpr ⟨hslot, hd⟩)

/-- The calls of `to_json` for a reference do what the interpreter does. -/
def CallsWrite (p : CodecPlan) (call : Datum → Option Json) (name : String) : Prop :=
  ∃ c, p.get? name = some c ∧ ∀ d v, CodecShows p.get? c d v →
    ∃ j, call d = some j ∧ ∀ place, Encode.definition p.encoder c v place = .ok j

section Closures

variable {t : FieldType} {x : String} {s : List (String × Datum)}

/-- The closure over the items of a sequence binds `item` innermost. -/
theorem seq_run_eq {ds : List Datum} {vs : List Value} (hx : Members.get? x s = some (.vec ds))
    (hl : ds.length = vs.length)
    (h : ∀ (n : Nat) (d : Datum) (v : Value), ds[n]? = some d → vs[n]? = some v →
      SlotShows p.get? t d v)
    (ht : ∀ d v, SlotShows p.get? t d v →
      ∃ j, (WriteExpr.ofType t "item").run call (("item", d) :: s) = some j ∧
        ∀ place, Encode.slot p.encoder t v place = .ok j) :
    ∃ j, (WriteExpr.ofType (.seq t) x).run call s = some j ∧
      ∀ place, Encode.slot p.encoder (.seq t) (.seq vs) place = .ok j := by
  obtain ⟨js, hjs, hws⟩ := Lists.exists_common (Lists.forall₂_of_getElem? hl h) ht
  refine ⟨.array js, ?_, fun place => ?_⟩
  · simp only [WriteExpr.ofType, WriteExpr.run, hx, Lists.mapM_eq_some hjs, Option.map_some]
  · simp only [Encode.slot, Encode.items_of_forall₂ hws, map_ok]

/-- The closure over the entries of a mapping binds `key` and, innermost, `item`. -/
theorem map_run_eq {ds : List (String × Datum)} {es : List (String × Value)}
    (hx : Members.get? x s = some (.map ds)) (ho : Members.Ascending es)
    (hn : Members.names ds = Members.names es)
    (h : ∀ (n : Nat) (d : String × Datum) (e : String × Value), ds[n]? = some d →
      es[n]? = some e → SlotShows p.get? t d.2 e.2)
    (ht : ∀ key d v, SlotShows p.get? t d v →
      ∃ j, (WriteExpr.ofType t "item").run call (("item", d) :: ("key", .string key) :: s) =
        some j ∧ ∀ place, Encode.slot p.encoder t v place = .ok j) :
    ∃ j, (WriteExpr.ofType (.map t) x).run call s = some j ∧
      ∀ place, Encode.slot p.encoder (.map t) (.map es) place = .ok j := by
  have hentry : ∀ (d : String × Datum) (e : String × Value),
      d.1 = e.1 ∧ SlotShows p.get? t d.2 e.2 →
      ∃ m : String × Json, ((WriteExpr.ofType t "item").run call
          (("item", d.2) :: ("key", .string d.1) :: s)).map (d.1, ·) = some m ∧
        e.1 = m.1 ∧ ∀ place, Encode.slot p.encoder t e.2 place = .ok m.2 := by
    rintro ⟨key, d⟩ ⟨_, v⟩ ⟨rfl, hdv⟩
    obtain ⟨j, hj, hw⟩ := ht key d v hdv
    exact ⟨(key, j), by rw [hj, Option.map_some], rfl, hw⟩
  obtain ⟨ms, hms, hws⟩ := Lists.exists_common (Members.related_of_getElem? hn h) hentry
  -- keys ascend, so inserting the entries one by one replaces none
  have hnd : (Members.names ms).Nodup :=
    Members.names_related (r := fun v j => ∀ place, Encode.slot p.encoder t v place = .ok j)
      hws ▸ ho.nodup
  refine ⟨.object ms, ?_, fun place => ?_⟩
  · simp only [WriteExpr.ofType, WriteExpr.run, hx, Lists.mapM_eq_some hms, Option.map_some,
      Members.merge_eq_self hnd]
  · simp only [Encode.slot, Encode.entries_of_related hws, map_ok]

end Closures

theorem WriteExpr.run_eq (hg : p.Grounded) {t : FieldType}
    (hc : ∀ r, t.reference? = some r → CallsWrite p call r) {x : String}
    {s : List (String × Datum)} {d : Datum} {v : Value} (hx : Members.get? x s = some d)
    (hd : SlotShows p.get? t d v) :
    ∃ j, (WriteExpr.ofType t x).run call s = some j ∧
      ∀ place, Encode.slot p.encoder t v place = .ok j := by
  induction t generalizing x s d v with
  | string =>
    cases hd with
    | string t => exact ⟨_, by simp only [WriteExpr.ofType, WriteExpr.run, hx], fun _ => rfl⟩
  | bool =>
    cases hd with
    | bool b => exact ⟨_, by simp only [WriteExpr.ofType, WriteExpr.run, hx], fun _ => rfl⟩
  | signed w =>
    cases hd with
    | @signed _ n h =>
      refine ⟨.number (.integer n), ?_, fun place => ?_⟩
      · simp only [WriteExpr.ofType, WriteExpr.run, hx]
      · simp only [Encode.slot, h, if_true]
  | unsigned w =>
    cases hd with
    | @unsigned _ n h =>
      refine ⟨.number (.integer n), ?_, fun place => ?_⟩
      · simp only [WriteExpr.ofType, WriteExpr.run, hx]
      · simp only [Encode.slot, h, if_true]
  | reference name =>
    cases hd with
    | reference hget h =>
      obtain ⟨c, hget', hcall⟩ := hc name rfl
      obtain rfl := Option.some.inj (hget.symm.trans hget')
      obtain ⟨j, hj, hw⟩ := hcall d v h
      refine ⟨j, ?_, fun place => ?_⟩
      · simp only [WriteExpr.ofType, WriteExpr.run, hx, Option.bind_some, hj]
      · simp only [Encode.slot, CodecPlan.encoder_eq hg, hget, Option.map_some, hw]
  | seq item ih =>
    cases hd with
    | @seq _ ds vs hl h =>
      exact seq_run_eq hx hl h fun d v => ih hc (if_pos rfl)
  | map entry ih =>
    cases hd with
    | @map _ ds es ho hn h =>
      -- the closure binds the key of an entry as well as its item
      exact map_run_eq hx ho hn h fun key d v =>
        ih hc (s := ("item", d) :: ("key", .string key) :: s) (if_pos rfl)

theorem writeElements_eq (hg : p.Grounded) {ts : List FieldType} {vs : List Value} {k : Nat}
    {s : List (String × Datum)} (hc : ∀ t ∈ ts, ∀ r, t.reference? = some r → CallsWrite p call r)
    (hl : ts.length = vs.length)
    (h : ∀ (n : Nat) (t : FieldType) (v : Value), ts[n]? = some t → vs[n]? = some v →
      ∃ d, Members.get? (slotName (k + n)) s = some d ∧ SlotShows p.get? t d v) :
    ∃ js, ((ts.zipIdx k).map fun (t, i) => WriteExpr.ofType t (slotName i)).mapM
        (fun e => e.run call s) = some js ∧
      Encode.elements p.encoder k ts vs = .ok js := by
  induction ts generalizing vs k with
  | nil => exact ⟨[], rfl, rfl⟩
  | cons t ts ih =>
    cases vs with
    | nil => cases hl
    | cons v vs =>
      obtain ⟨hct, hcts⟩ := List.forall_mem_cons.mp hc
      obtain ⟨d, hx, hd⟩ := h 0 t v rfl rfl
      obtain ⟨j, hj, hw⟩ := WriteExpr.run_eq hg hct hx hd
      have hrest : ∀ (n : Nat) (t : FieldType) (v : Value), ts[n]? = some t → vs[n]? = some v →
          ∃ d, Members.get? (slotName (k + 1 + n)) s = some d ∧ SlotShows p.get? t d v := by
        intro n t v ht hv
        obtain ⟨d, hx, hd⟩ := h (n + 1) t v ht hv
        exact ⟨d, by rwa [Nat.add_assoc, Nat.add_comm 1], hd⟩
      obtain ⟨js, hjs, hws⟩ := ih hcts (Nat.succ.inj hl) hrest
      rw [Nat.add_zero] at hj
      refine ⟨j :: js, ?_, ?_⟩
      · rw [List.zipIdx_cons, List.map_cons, List.mapM_cons, hj, hjs]
        rfl
      · simp only [Encode.elements, hw, hws, ok_bind, pure_def]

theorem writeMembers_eq (hg : p.Grounded) {fields : List (String × FieldType)}
    {values : List (String × Value)} {k : Nat} {s : List (String × Datum)}
    (hc : ∀ t ∈ fields.map Prod.snd, ∀ r, t.reference? = some r → CallsWrite p call r)
    (h : ∀ (n : Nat) (name : String) (t : FieldType), fields[n]? = some (name, t) →
      ∃ d v, Members.get? (slotName (k + n)) s = some d ∧ Members.get? name values = some v ∧
        SlotShows p.get? t d v) :
    ∃ ms, ((fields.zipIdx k).map fun ((name, t), i) =>
        (name, WriteExpr.ofType t (slotName i))).mapM
        (fun m => (m.2.run call s).map (m.1, ·)) = some ms ∧
      Encode.members p.encoder values fields = .ok ms := by
  induction fields generalizing k with
  | nil => exact ⟨[], rfl, rfl⟩
  | cons m fields ih =>
    obtain ⟨name, t⟩ := m
    obtain ⟨hct, hcts⟩ := List.forall_mem_cons.mp hc
    obtain ⟨d, v, hx, hv, hd⟩ := h 0 name t rfl
    obtain ⟨j, hj, hw⟩ := WriteExpr.run_eq hg hct hx hd
    have hrest : ∀ (n : Nat) (name : String) (t : FieldType), fields[n]? = some (name, t) →
        ∃ d v, Members.get? (slotName (k + 1 + n)) s = some d ∧
          Members.get? name values = some v ∧ SlotShows p.get? t d v := by
      intro n name t hn
      obtain ⟨d, v, hx, hv, hd⟩ := h (n + 1) name t hn
      exact ⟨d, v, by rwa [Nat.add_assoc, Nat.add_comm 1], hv, hd⟩
    obtain ⟨ms, hms, hws⟩ := ih hcts hrest
    rw [Nat.add_zero] at hj
    refine ⟨(name, j) :: ms, ?_, ?_⟩
    · rw [List.zipIdx_cons, List.map_cons, List.mapM_cons, hj, hms]
      rfl
    · simp only [Encode.members, hv, hw, hws, ok_bind, pure_def]

/-- The pattern of named members finds each by its identifier. -/
theorem bind_struct {fields : List (String × FieldType)} {ds : List (String × Datum)}
    (hd : Members.names ds = (Members.names fields).map identifier) :
    ∃ ds', bind (writePayload (.struct fields)) (.struct ds) =
        some ((slotNames ds'.length).zip ds') ∧
      List.Forall₂ (fun m d => Members.get? (identifier m.1) ds = some d) fields ds' := by
  have hbound : ∀ m ∈ fields, ∃ d, Members.get? (identifier m.1) ds = some d := by
    intro m hm
    refine Members.get?_of_mem_names ?_
    rw [hd]
    exact List.mem_map_of_mem (List.mem_map_of_mem hm)
  obtain ⟨ds', hds'⟩ := Lists.exists_forall₂ hbound
  let es := fields.zipIdx.map fun ((name, t), i) => (name, WriteExpr.ofType t (slotName i))
  have hlen : es.length = ds'.length := by
    rw [List.length_map, List.length_zipIdx, hds'.length_eq]
  have hes : List.Forall₂ (fun e d => Members.get? (identifier e.1) ds = some d) es ds' := by
    refine Lists.forall₂_of_getElem? hlen fun n e d he hd => ?_
    rw [List.getElem?_map, List.getElem?_zipIdx, Option.map_map] at he
    obtain ⟨m, hm, rfl⟩ := Option.map_eq_some_iff.mp he
    have h := Lists.rel_of_getElem? hds' hm hd
    exact h
  refine ⟨ds', ?_, hds'⟩
  change (es.mapM fun e => Members.get? (identifier e.1) ds).map ((slotNames es.length).zip ·) = _
  rw [Lists.mapM_eq_some hes, hlen, Option.map_some]

theorem writePayload_eq (hg : p.Grounded) {l : Layout} {d : Payload Datum} {a : Payload Value}
    (owner : String) (hl : l.names.Nodup)
    (hc : ∀ t ∈ l.types, ∀ r, t.reference? = some r → CallsWrite p call r)
    (hd : PayloadShows p.get? l d a) :
    ∃ s j, bind (writePayload l) d = some s ∧ runWritten call s (writePayload l) = some j ∧
      Encode.payload p.encoder owner l a = .ok j := by
  cases hd with
  | unit => exact ⟨[], .null, rfl, rfl, rfl⟩
  | @newtype t d v h =>
    obtain ⟨j, hj, hw⟩ := WriteExpr.run_eq hg (hc t List.mem_cons_self)
      (s := [(slotName 0, d)]) (if_pos rfl) h
    exact ⟨_, j, rfl, hj, hw _⟩
  | @tuple ts ds vs hd hv h =>
    have hslots : ∀ (n : Nat) (t : FieldType) (v : Value), ts[n]? = some t → vs[n]? = some v →
        ∃ d, Members.get? (slotName (0 + n)) ((slotNames ds.length).zip ds) = some d ∧
          SlotShows p.get? t d v := by
      intro n t v ht hv
      have hn : n < ds.length := hd ▸ (List.getElem?_eq_some_iff.mp ht).1
      have hdn : ds[n]? = some ds[n] := List.getElem?_eq_getElem hn
      exact ⟨ds[n], by rw [Nat.zero_add]; exact get?_slotName rfl hdn, h n t _ v ht hdn hv⟩
    have hct : ∀ t ∈ ts, ∀ r, t.reference? = some r → CallsWrite p call r := hc
    obtain ⟨js, hjs, hws⟩ := writeElements_eq hg hct hv hslots
    refine ⟨(slotNames ds.length).zip ds, .array js, ?_, congrArg (Option.map Json.array) hjs, ?_⟩
    · simp only [writePayload, bind, List.length_map, List.length_zipIdx, hd, if_true]
    · simp only [Encode.payload, if_pos hv, hws, map_ok]
  | @struct fields ds values ho hd hv h =>
    -- the pattern binds the fields in the order of declaration, whatever the order of the members
    obtain ⟨ds', hbind, hds'⟩ := bind_struct hd
    have hslots : ∀ (n : Nat) (name : String) (t : FieldType), fields[n]? = some (name, t) →
        ∃ d v, Members.get? (slotName (0 + n)) ((slotNames ds'.length).zip ds') = some d ∧
          Members.get? name values = some v ∧ SlotShows p.get? t d v := by
      intro n name t hn
      have hm : (name, t) ∈ fields := List.mem_of_getElem? hn
      obtain ⟨d, hdn, hd⟩ := Lists.exists_of_getElem? hds' hn
      obtain ⟨v, hvn⟩ := Members.get?_of_mem_names ((hv name).mpr (Members.mem_names_of_mem hm))
      exact ⟨d, v, by rw [Nat.zero_add]; exact get?_slotName rfl hdn, hvn,
        h name t d v hm hd hvn⟩
    obtain ⟨ms, hms, hws⟩ := writeMembers_eq hg hc hslots
    have hnd : (Members.names ms).Nodup := (Encode.get?_of_members hws).1 ▸ hl
    refine ⟨_, .object ms, hbind, ?_, ?_⟩
    · rw [← Members.merge_eq_self hnd]
      exact congrArg (Option.map fun ms => Json.object (Members.merge ms)) hms
    · simp only [Encode.payload, hws, map_ok]

end TaggedSum.Emit
