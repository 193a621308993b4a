import EntityGraph.Json.Basic

/-!
# Hooks

Two kinds of check that a program attaches to fields and to list types.  An `Assertion` looks at
a value and may reject it.  A `Transform` replaces a value; it also sees the value's parent and
the request context, and may take time, or for ever.
-/

namespace EntityGraph

structure Assertion where
  /-- What stands for the hook in a trace. -/
  label : Json
  /-- The error is the reason for rejecting the value. -/
  check : Json → Except String Unit

/-- What a transform looks at. -/
structure TransformInput where
  /-- The object or array that holds the value. -/
  parent : Json
  value : Json
  context : Option Json

/-- When a transform answers, and what. -/
inductive Reply where
  | after (milliseconds : Nat) (result : Except String Json)
  | never

structure Transform where
  /-- What stands for the hook in a trace. -/
  label : Json
  run : TransformInput → Reply

/-- What is attached to one place.  The assertion comes before the transform. -/
structure Hooks where
  assertion : Option Assertion
  transform : Option Transform

def Hooks.none : Hooks := ⟨.none, .none⟩

instance : Inhabited Hooks := ⟨.none⟩

end EntityGraph
