import EntityGraph.Validate.Basic

/-!
# Handlers behind a validator

A handler that gets only arguments which have been validated.  When the arguments are rejected
it is not called.
-/

namespace EntityGraph

structure HandlerInput where
  /-- The object that the handler works on. -/
  parent : Json
  args : Json
  context : Option Json

structure ValidatedHandler (ε α : Type) where
  validator : Validator
  entity : InputObject
  handler : HandlerInput → Except ε α

/-- What becomes of a call. -/
inductive HandlerResult (ε α : Type) where
  | answered (value : α)
  | failed (error : ε)
  | rejected (error : ValidationError)
  | unfinished

namespace HandlerResult

variable {ε α : Type}

/-- How often the handler was called. -/
def calls : HandlerResult ε α → Nat
  | .answered _ => 1
  | .failed _ => 1
  | .rejected _ => 0
  | .unfinished => 0

end HandlerResult

variable {ε α : Type}

/-- Puts a validator in front of a handler. -/
def Validator.wrap (v : Validator) (entity : String) (handler : HandlerInput → Except ε α) :
    Except ValidationError (ValidatedHandler ε α) := do
  let object ← v.object entity
  return ⟨v, object, handler⟩

/-- Calls the handler with validated arguments.  The hooks are those that the validation has
started. -/
def ValidatedHandler.call (h : ValidatedHandler ε α) (input : HandlerInput) :
    List HookCall × HandlerResult ε α :=
  let verdict := h.validator.validate h.entity input.args input.context
  (verdict.calls,
    match verdict.outcome with
    | .done args =>
      match h.handler { input with args } with
      | .ok value => .answered value
      | .error e => .failed e
    | .failed e => .rejected e
    | .unfinished => .unfinished)

end EntityGraph
