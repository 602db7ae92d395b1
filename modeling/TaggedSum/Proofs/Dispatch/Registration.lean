import TaggedSum.Dispatch.Plan
import TaggedSum.Proofs.Codec.Lookup
import TaggedSum.Proofs.Codec.RoundTrip
import TaggedSum.Proofs.Schema.Named

namespace TaggedSum

variable {m : Type → Type} {ι σ ρ ε : Type}

namespace Handlers

/-- The set that registrations give, one after the other. -/
def register (rs : List (String × Handler m ρ ε)) : Handlers m ρ ε :=
  rs.foldl (fun hs r => hs.on r.1 r.2) empty

theorem registered_foldl (rs : List (String × Handler m ρ ε)) (hs : Handlers m ρ ε) :
    (rs.foldl (fun hs r => hs.on r.1 r.2) hs).registered =
      rs.foldl (fun ms r => Members.set r.1 r.2 ms) hs.registered := by
  induction rs generalizing hs with
  | nil => rfl
  | cons r rs ih => exact ih (hs.on r.1 r.2)

/-- The handler of a tag is the one registered last for it. -/
theorem handler?_register (tag : String) (rs : List (String × Handler m ρ ε)) :
    (register rs).handler? tag = Members.last? tag rs := by
  rw [handler?, register, registered_foldl]
  exact Members.get?_merge rs

end Handlers

/-- What answers a payload and may change a state; the label tells its calls from others. -/
structure Responder (ι σ ρ ε : Type) where
  label : ι
  respond : Payload Value → σ → Except ε ρ × σ

/-- The responder as a handler that keeps account of its calls, the latest at the end. -/
def Responder.handler (r : Responder ι σ ρ ε) :
    Handler (StateM (σ × List (ι × Payload Value))) ρ ε :=
  fun x (state, calls) =>
    let (answer, state) := r.respond x state
    (answer, state, calls ++ [(r.label, x)])

/-- What a single handler makes of a payload; the default if there is none. -/
def Handler.answer [Monad m] [Inhabited ρ] (x : Payload Value) :
    Option (Handler m ρ ε) → m (Except (MatchError ε) ρ)
  | some h => do return (← h x).mapError .handler
  | none => return .ok default

/-- What a single responder makes of a payload and a state, with an account of its one call; the
default, and no call, if there is none. -/
def Responder.answer [Inhabited ρ] (x : Payload Value) (state : σ) :
    Option (Responder ι σ ρ ε) → Except (MatchError ε) ρ × σ × List (ι × Payload Value)
  | some r =>
    let (answer, state) := r.respond x state
    (answer.mapError .handler, state, [(r.label, x)])
  | none => (.ok default, state, [])

theorem Responder.answer_ne_unsupportedVariant [Inhabited ρ] (x : Payload Value) (state : σ)
    (r : Option (Responder ι σ ρ ε)) (tag : String) :
    (answer x state r).1 ≠ .error (.unsupportedVariant tag) := by
  cases r with
  | none => exact nofun
  | some r =>
    intro he
    obtain ⟨e, -, he⟩ := Outcome.mapError_eq_error.mp he
    cases he

namespace Dispatcher

variable {d : Dispatcher} {a : Choice Value}

/-- Dispatches a choice to responders: the result, the state left and the calls made. -/
def run [Inhabited ρ] (d : Dispatcher) (a : Choice Value)
    (rs : List (String × Responder ι σ ρ ε)) (state : σ) :
    Except (MatchError ε) ρ × σ × List (ι × Payload Value) :=
  d.apply a (.register (rs.map fun r => (r.1, r.2.handler))) (state, [])

/-- The choice is answered by what was registered last for its tag, which is called once and with
its payload, or by the default; nothing else is called or matters. -/
structure Serves (d : Dispatcher) (a : Choice Value) : Prop where
  apply_eq : ∀ {m : Type → Type} [Monad m] {ρ ε : Type} [Inhabited ρ]
    (rs : List (String × Handler m ρ ε)),
    d.apply a (.register rs) = Handler.answer a.payload (Members.last? a.tag rs)
  run_eq : ∀ {ι σ ρ ε : Type} [Inhabited ρ] (rs : List (String × Responder ι σ ρ ε)) (state : σ),
    d.run a rs state = Responder.answer a.payload state (Members.last? a.tag rs)
  supported : ∀ {ι σ ρ ε : Type} [Inhabited ρ] (rs : List (String × Responder ι σ ρ ε)) (state : σ)
    (tag : String), (d.run a rs state).1 ≠ .error (.unsupportedVariant tag)
  apply_undisturbed : ∀ {m : Type → Type} [Monad m] {ρ ε : Type} [Inhabited ρ]
    (rs rs' : List (String × Handler m ρ ε)),
    rs.filter (·.1 = a.tag) = rs'.filter (·.1 = a.tag) →
      d.apply a (.register rs) = d.apply a (.register rs')
  run_undisturbed : ∀ {ι σ ρ ε : Type} [Inhabited ρ] (rs rs' : List (String × Responder ι σ ρ ε))
    (state : σ), rs.filter (·.1 = a.tag) = rs'.filter (·.1 = a.tag) →
      d.run a rs state = d.run a rs' state

/-- The choice is refused by its tag, and no handler is called, not even one of that tag. -/
structure Refuses (d : Dispatcher) (a : Choice Value) : Prop where
  apply_eq : ∀ {m : Type → Type} [Monad m] {ρ ε : Type} [Inhabited ρ] (hs : Handlers m ρ ε),
    d.apply a hs = pure (.error (.unsupportedVariant a.tag))
  run_eq : ∀ {ι σ ρ ε : Type} [Inhabited ρ] (rs : List (String × Responder ι σ ρ ε)) (state : σ),
    d.run a rs state = (.error (.unsupportedVariant a.tag), state, [])

theorem declares_iff {tag : String} : d.declares tag = true ↔ tag ∈ d.tags := by
  rw [declares, List.contains_iff_mem]

theorem apply_register [Monad m] [Inhabited ρ] (h : a.tag ∈ d.tags)
    (rs : List (String × Handler m ρ ε)) :
    d.apply a (.register rs) = Handler.answer a.payload (Members.last? a.tag rs) := by
  rw [apply, if_pos (declares_iff.mpr h), Handlers.handler?_register]
  cases Members.last? a.tag rs <;> rfl

theorem run_of_mem [Inhabited ρ] (h : a.tag ∈ d.tags) (rs : List (String × Responder ι σ ρ ε))
    (state : σ) :
    d.run a rs state = Responder.answer a.payload state (Members.last? a.tag rs) := by
  rw [run, apply_register h, Members.last?_map]
  cases Members.last? a.tag rs <;> rfl

/-- A choice of a declared tag is served: what is registered for other tags does not decide which
handler is the last one of its tag. -/
theorem serves (h : a.tag ∈ d.tags) : d.Serves a where
  apply_eq := apply_register h
  run_eq := run_of_mem h
  supported rs state tag := by
    rw [run_of_mem h]
    exact Responder.answer_ne_unsupportedVariant a.payload state _ tag
  apply_undisturbed rs rs' he := by
    rw [apply_register h, apply_register h, Members.last?, Members.last?, he]
  run_undisturbed rs rs' state he := by
    rw [run_of_mem h, run_of_mem h, Members.last?, Members.last?, he]

theorem refuses (h : a.tag ∉ d.tags) : d.Refuses a := by
  have hd : ¬ d.declares a.tag := fun hd => h (declares_iff.mp hd)
  constructor
  · intro m _ ρ ε _ hs
    rw [apply, if_neg hd]
  · intro ι σ ρ ε _ rs state
    rw [run, apply, if_neg hd]
    rfl

end Dispatcher

/-- What a choice is read as has a tag of its enum. -/
theorem Decode.tag_mem_of_choice {definitions : String → Option Decoder} {ek : ExtraKeys}
    {e : EnumCodec} {j : Json} {a : Choice Value} (h : Decode.choice definitions ek e j = .ok a) :
    a.tag ∈ e.tags := by
  rcases Decode.choice_eq_ok h with ⟨v, hv, -, -, rfl⟩ | ⟨v, hv, -, -, -, -, -, -, -, rfl⟩
  · exact List.mem_map_of_mem hv
  · exact List.mem_map_of_mem hv

section Schema

variable {s : TaggedSum.Schema} {ir : Resolved.Schema} {e : TaggedSum.Enum}

/-- A declared enum is resolved, with the tags that it declares. -/
theorem Resolved.Schema.exists_enum (h : Resolved.Schema.ofSchema s = .ok ir)
    (he : .enum e ∈ s.definitions) :
    ∃ r ∈ ir.enums, r.name = e.name ∧
      r.variants.map (·.tag) = e.variants.map (·.wireTag) := by
  obtain ⟨hv, ds, hds, hres⟩ := Resolved.ofSchema_eq_ok h
  have hd : .enum e ∈ ds :=
    (TaggedSum.Schema.mem_dependencyOrder (TaggedSum.Schema.linked_of_validate hv) hds).mpr he
  obtain ⟨r, hr, hdr⟩ := Lists.exists_of_mem_left hres hd
  obtain ⟨vs, hvs, rfl⟩ := Resolved.ofDefinition_enum hdr
  exact ⟨_, Resolved.Schema.mem_enums.mpr hr, rfl, tags_variants hvs⟩

theorem DispatchPlan.eq_of_enum (h : Resolved.Schema.ofSchema s = .ok ir) {p q : DispatchPlan}
    (hp : p ∈ DispatchPlan.ofSchema ir) (hq : q ∈ DispatchPlan.ofSchema ir)
    (he : p.enum = q.enum) : p = q := by
  obtain ⟨e, he', rfl⟩ := List.mem_map.mp hp
  obtain ⟨f, hf', rfl⟩ := List.mem_map.mp hq
  have hn := (Resolved.Schema.named_of_ofSchema h).names_nodup
  have := List.inj_on_of_nodup_map hn (Resolved.Schema.mem_enums.mp he')
    (Resolved.Schema.mem_enums.mp hf') he
  rw [Resolved.Definition.enum.inj this]

/-- Every choice that an enum's documents are read as is served by the enum's dispatcher, and every
choice of another tag is refused by it. -/
theorem DispatchPlan.serves_of_ofSchema (h : Resolved.Schema.ofSchema s = .ok ir)
    (he : .enum e ∈ s.definitions) : ∃ p ∈ DispatchPlan.ofSchema ir, p.enum = e.name ∧
      (∀ q ∈ DispatchPlan.ofSchema ir, q.enum = e.name → q = p) ∧
      (∀ ek j a, (CodecPlan.ofSchema ek ir).decodeChoice? e.name j = some (.ok a) →
        p.dispatcher.Serves a) ∧
      ∀ a : Choice Value, a.tag ∉ e.variants.map (·.wireTag) → p.dispatcher.Refuses a := by
  obtain ⟨r, hr, hn, ht⟩ := Resolved.Schema.exists_enum h he
  have hp : DispatchPlan.ofEnum r ∈ DispatchPlan.ofSchema ir := List.mem_map_of_mem hr
  have htags : (DispatchPlan.ofEnum r).dispatcher.tags = r.variants.map (·.tag) := by
    simp [DispatchPlan.ofEnum, DispatchPlan.dispatcher, DispatchPlan.armOf]
  refine ⟨_, hp, hn, fun q hq he => DispatchPlan.eq_of_enum h hq hp (he.trans hn.symm), ?_, ?_⟩
  · intro ek j a ha
    have hg := grounded_ofSchema ek h
    have hc : (CodecPlan.ofSchema ek ir).get? e.name = some (.enum (.ofEnum r)) :=
      (CodecPlan.get?_eq_some_iff hg).mpr
        ⟨List.mem_map_of_mem (Resolved.Schema.mem_enums.mp hr), hn⟩
    simp only [CodecPlan.decodeChoice?_eq hg, hc, Option.some.injEq] at ha
    have hm := Decode.tag_mem_of_choice ha
    simp only [EnumCodec.tags, EnumCodec.ofEnum, List.map_map, Function.comp_def] at hm
    exact Dispatcher.serves (htags ▸ hm)
  · intro a ha
    exact Dispatcher.refuses (htags ▸ ht ▸ ha)

end Schema

/-- A mark that was read is served; a name that is no tag is refused. -/
theorem DispatchPlan.serves_mark :
    Resolved.Schema.ofSchema Pages.schema = .ok Pages.resolved ∧
      Pages.mark ∈ Pages.schema.definitions ∧
      (CodecPlan.ofSchema .reject Pages.resolved).decodeChoice? "Mark"
        (.object [("dot", .number (.integer 5))]) = some (.ok ⟨"dot", .newtype (.unsigned 5)⟩) ∧
      ∃ p ∈ DispatchPlan.ofSchema Pages.resolved,
        p.dispatcher.Serves ⟨"dot", .newtype (.unsigned 5)⟩ ∧
          p.dispatcher.Refuses ⟨"Dot", .unit⟩ := by
  have hread : (CodecPlan.ofSchema .reject Pages.resolved).decodeChoice? "Mark"
      (.object [("dot", .number (.integer 5))]) = some (.ok ⟨"dot", .newtype (.unsigned 5)⟩) := rfl
  have hm : Pages.mark ∈ Pages.schema.definitions := List.mem_cons_of_mem _ List.mem_cons_self
  obtain ⟨p, hp, -, -, hserves, hrefuses⟩ := serves_of_ofSchema Pages.ofSchema_schema hm
  exact ⟨Pages.ofSchema_schema, hm, hread, p, hp, hserves _ _ _ hread, hrefuses _ (by decide)⟩

end TaggedSum
