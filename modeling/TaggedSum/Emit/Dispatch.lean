import TaggedSum.Dispatch.Plan
import TaggedSum.Emit.Config
import TaggedSum.Emit.Name

namespace TaggedSum.Emit.Dispatch

/-- What the handler of an arm is given: a borrow of each payload field. -/
def borrowed (a : DispatchArm) : String := commaList (a.params.map fun p => "&" ++ typeName p.type)

def handlersStruct (c : Config) (p : DispatchPlan) : List String :=
  (if c.docs then
    ["/// Handlers for the variants of [`" ++ identifier p.enum ++ "`].", "///",
      "/// Variants without a handler yield `R::default()`."]
  else []) ++
    "#[allow(clippy::type_complexity)]" ::
    block ("pub struct " ++ p.handlers ++ "<'h, R, E>")
      (p.arms.map (fun a =>
        identifier a.handler ++ ": Option<Box<dyn FnOnce(" ++ borrowed a ++
          ") -> Result<R, E> + 'h>>,") ++
        ["_marker: std::marker::PhantomData<(&'h (), fn() -> (R, E))>,"]) ++
    [""]

def setterLines (c : Config) (a : DispatchArm) : List String :=
  (if c.docs then ["/// Registers the handler for `" ++ a.variant ++ "`."] else []) ++
    "#[must_use]" ::
    block ("pub fn " ++ a.setter ++ "(mut self, handler: impl FnOnce(" ++ borrowed a ++
        ") -> Result<R, E> + 'h) -> Self")
      ["self." ++ identifier a.handler ++ " = Some(Box::new(handler));", "self"]

def handlersImpl (c : Config) (p : DispatchPlan) : List String :=
  block ("impl<'h, R, E> " ++ p.handlers ++ "<'h, R, E>")
    (["/// Creates an empty handler set.", "#[must_use]"] ++
      block "pub fn new() -> Self"
        (block "Self"
          (p.arms.map (fun a => identifier a.handler ++ ": None,") ++
            ["_marker: std::marker::PhantomData,"])) ++
      p.arms.flatMap (fun a => "" :: setterLines c a)) ++
    [""] ++
    block ("impl<R, E> Default for " ++ p.handlers ++ "<'_, R, E>")
      (block "fn default() -> Self" ["Self::new()"]) ++
    [""]

/-- The pattern of the arm's variant, which binds its payload to slot names. -/
def pattern (a : DispatchArm) : String :=
  let head := "Self::" ++ identifier a.variant
  let slots := slotNames a.params.length
  match a.shape with
  | .unit => head
  | .newtype => head ++ "(" ++ commaList slots ++ ")"
  | .tuple => head ++ "(" ++ commaList slots ++ ")"
  | .struct =>
    let bindings := List.zipWith (fun p slot => identifier p.name ++ ": " ++ slot) a.params slots
    head ++ " \x7b " ++ commaList bindings ++ " \x7d"

def applyArm (a : DispatchArm) : List String :=
  closedBy "," (block (pattern a ++ " => match handlers." ++ identifier a.handler)
    ["Some(handler) => handler(" ++ commaList (slotNames a.params.length) ++ "),",
      "None => Ok(R::default()),"])

def applyBody (p : DispatchPlan) : List String :=
  if p.arms.isEmpty then ["match *self \x7b\x7d"] else block "match self" (p.arms.flatMap applyArm)

def apply (p : DispatchPlan) : List String :=
  let handlers := if p.arms.isEmpty then "_handlers" else "handlers"
  block ("impl " ++ identifier p.enum)
    (["/// Runs the handler registered for the held variant.", "///", "/// # Errors",
      "/// Returns the error reported by the invoked handler."] ++
      block ("pub fn apply<R: Default, E>(&self, " ++ handlers ++ ": " ++ p.handlers ++
          "<'_, R, E>) -> Result<R, E>")
        (applyBody p)) ++
    [""]

def plan (c : Config) (p : DispatchPlan) : List String :=
  handlersStruct c p ++ handlersImpl c p ++ apply p

end TaggedSum.Emit.Dispatch
