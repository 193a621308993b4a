import EntityGraph.Hook.Basic
import EntityGraph.Validate.Error

/-!
# Runs

A run of the validator goes from hook to hook.  It keeps note of the hooks that it has started
and of the time that it has left, and halts at the first rejection or when its time is over.
What follows is not looked at any more:

    (x >>= f) p = f a q           when x p is done with a and has come to q
    (x >>= f) p = x p             when x p has halted

So a run does no more than fits into its time, however much the hooks would make it do.
`Run.verdict` gives a run its time and says what becomes of it.
-/

namespace EntityGraph

/-- A hook that has been started, with what it was given. -/
inductive HookCall where
  | assertion (hook : Assertion) (value : Json)
  | transform (hook : Transform) (input : TransformInput)

/-- How far a run has come. -/
structure Progress where
  /-- The milliseconds that are left, if there is a limit. -/
  left : Option Nat
  /-- The hooks that have been started, the last one first. -/
  started : List HookCall

/-- Why a run does not go on. -/
inductive Halt where
  | rejected (error : ValidationError)
  /-- The next answer comes after the limit, or never. -/
  | overdue

abbrev Run := EStateM Halt Progress

/-- What becomes of a validation. -/
inductive Outcome (α : Type) where
  | done (value : α)
  | failed (error : ValidationError)
  /-- A transform never answers, or the hooks keep nesting values in one another. -/
  | unfinished

structure Verdict (α : Type) where
  /-- The hooks that were started, in order. -/
  calls : List HookCall
  outcome : Outcome α

namespace Run

variable {α : Type}

def fail (e : ValidationError) : Run α := throw (.rejected e)

/-- What has no end is over when the time is. -/
def endless : Run α := throw .overdue

/-! ## Time -/

/-- Lets time pass.  Work that ends at the limit counts. -/
def wait (milliseconds : Nat) : Run Unit := do
  let p ← get
  match p.left with
  | none => pure ()
  | some left =>
    if left < milliseconds then throw .overdue
    else set { p with left := some (left - milliseconds) }

/-! ## Hooks -/

/-- Takes note of a hook, which also counts when its answer does not come in time. -/
def start (call : HookCall) : Run Unit :=
  modify fun p => { p with started := call :: p.started }

def check (hook : Assertion) (value : Json) (path : FieldPath) : Run Unit := do
  start (.assertion hook value)
  match hook.check value with
  | .ok () => pure ()
  | .error reason => fail (.assertionFailed path reason)

def transform (hook : Transform) (input : TransformInput) (path : FieldPath) : Run Json := do
  start (.transform hook input)
  match hook.run input with
  | .after ms result =>
    wait ms
    match result with
    | .ok value => pure value
    | .error reason => fail (.transformRejected path reason)
  | .never => endless

/-- The assertion, then the transform.  The result is the value to go on with. -/
def hooks (h : Hooks) (input : TransformInput) (path : FieldPath) : Run Json := do
  match h.assertion with
  | some hook => check hook input.value path
  | none => pure ()
  match h.transform with
  | some hook => transform hook input path
  | none => pure input.value

/-! ## Verdicts -/

/-- What becomes of a run for the given entity when it has the given time. -/
def verdict (limit : Option Duration) (entity : String) (x : Run α) : Verdict α :=
  match x ⟨limit.map Duration.millis, []⟩ with
  | .ok a p => ⟨p.started.reverse, .done a⟩
  | .error (.rejected e) p => ⟨p.started.reverse, .failed e⟩
  | .error .overdue p =>
    ⟨p.started.reverse,
      match limit with
      | some limit => .failed (.timedOut entity limit)
      | none => .unfinished⟩

end Run

end EntityGraph
