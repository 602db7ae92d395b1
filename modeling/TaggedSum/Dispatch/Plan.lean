import TaggedSum.Dispatch.Dispatcher
import TaggedSum.Schema.Resolved

namespace TaggedSum

structure HandlerParam where
  name : String
  type : FieldType
  deriving DecidableEq

structure DispatchArm where
  variant : String
  tag : String
  handler : String
  shape : Shape
  params : List HandlerParam
  deriving DecidableEq

/-- The name of what registers the handler of the arm. -/
def DispatchArm.setter (a : DispatchArm) : String := "on_" ++ a.handler

structure DispatchPlan where
  enum : String
  handlers : String
  arms : List DispatchArm
  deriving DecidableEq

namespace DispatchPlan

def armOf (v : Resolved.Variant) : DispatchArm :=
  ⟨v.name, v.tag, v.handler, v.shape,
    List.zipWith HandlerParam.mk (Resolved.bindings v.fields) (v.fields.map (·.type))⟩

def ofEnum (e : Resolved.Enum) : DispatchPlan := ⟨e.name, e.handlersName, e.variants.map armOf⟩

/-- The plans of all enums, in dependency order. -/
def ofSchema (s : Resolved.Schema) : List DispatchPlan := s.enums.map ofEnum

def arm? (p : DispatchPlan) (tag : String) : Option DispatchArm := p.arms.find? (·.tag = tag)

def dispatcher (p : DispatchPlan) : Dispatcher := ⟨p.enum, p.arms.map (·.tag)⟩

end DispatchPlan

end TaggedSum
