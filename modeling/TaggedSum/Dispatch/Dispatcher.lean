import TaggedSum.Members
import TaggedSum.Value

namespace TaggedSum

/-- What is done with the payload of a choice. A handler acts in some monad, so what it does besides
returning a result stays visible. -/
abbrev Handler (m : Type → Type) (ρ ε : Type) := Payload Value → m (Except ε ρ)

/-- Handlers by tag, in the order in which tags were first registered. -/
structure Handlers (m : Type → Type) (ρ ε : Type) where
  registered : List (String × Handler m ρ ε)

namespace Handlers

variable {m : Type → Type} {ρ ε : Type}

def empty : Handlers m ρ ε := ⟨[]⟩

def on (hs : Handlers m ρ ε) (tag : String) (h : Handler m ρ ε) : Handlers m ρ ε :=
  ⟨Members.set tag h hs.registered⟩

def handler? (hs : Handlers m ρ ε) (tag : String) : Option (Handler m ρ ε) :=
  Members.get? tag hs.registered

def has (hs : Handlers m ρ ε) (tag : String) : Bool := (hs.handler? tag).isSome

def size (hs : Handlers m ρ ε) : Nat := hs.registered.length

end Handlers

inductive MatchError (ε : Type) where
  | unsupportedVariant (tag : String)
  | handler (e : ε)
  deriving DecidableEq

namespace MatchError

variable {ε : Type}

def message (text : ε → String) : MatchError ε → String
  | unsupportedVariant tag => "unsupported variant '" ++ tag ++ "'"
  | handler e => "handler error: " ++ text e

def handlerError? : MatchError ε → Option ε
  | handler e => some e
  | unsupportedVariant _ => none

end MatchError

structure Dispatcher where
  enum : String
  tags : List String
  deriving DecidableEq

namespace Dispatcher

def declares (d : Dispatcher) (tag : String) : Bool := d.tags.contains tag

/-- Runs the handler of the choice's tag on its payload. Without a handler the result is the
default; a tag that the enum does not declare is refused whether it has a handler or not. -/
def apply {m : Type → Type} [Monad m] {ρ ε : Type} [Inhabited ρ] (d : Dispatcher) (c : Choice Value)
    (hs : Handlers m ρ ε) : m (Except (MatchError ε) ρ) :=
  if d.declares c.tag then
    match hs.handler? c.tag with
    | some h => do return (← h c.payload).mapError .handler
    | none => return .ok default
  else return .error (.unsupportedVariant c.tag)

end Dispatcher

end TaggedSum
