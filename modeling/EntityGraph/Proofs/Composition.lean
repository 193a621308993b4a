import EntityGraph.Hook.Attach
import EntityGraph.Proofs.Sharing

/-!
# Substituting in stages

An argument reaches a deep instantiation in several substitutions, one for each template on the way.
They come to a single one, whatever names the bindings share:

    (ty.substitute b).substitute next = ty.substitute (b.andThen next)    (substitute_substitute)
    ty.substitute .empty = ty                                             (substitute_empty)

What one substitution does is told place by place (`head?_substitute_iff`).  Everywhere stands what
stood there before, a list with its hooks or a reference with its file, unless that is the name of
a bound parameter.  There the argument stands as it was given, with all that is below it, and the
parameters that it mentions itself are left alone.

For templates this means that to replace parameters in the arguments and then to instantiate gives
the same fields as to instantiate and then to replace them, as long as the template does not mention
the same names by accident (`fields_instanceOf_substitute`).
-/

namespace EntityGraph

/-! ## Algorithm -/

/-- What a part of a type shows, without the parts below it. -/
inductive TypeHead where
  | list (hooks : Hooks)
  | named (name : String) (fileName : Option String)
  | generic (name : String) (arity : Nat) (fileName : Option String)

namespace FieldType

def head : FieldType → TypeHead
  | .list _ hooks => .list hooks
  | .named name fileName => .named name fileName
  | .generic name args fileName => .generic name args.length fileName

def child? : TypeStep → FieldType → Option FieldType
  | .element, .list element _ => some element
  | .argument i, .generic _ args _ => args[i]?
  | _, _ => none

/-- The part of a type that is reached by the given steps. -/
def part? : List TypeStep → FieldType → Option FieldType
  | [], ty => some ty
  | step :: steps, ty => (ty.child? step).bind (part? steps)

def head? (steps : List TypeStep) (ty : FieldType) : Option TypeHead := (ty.part? steps).map head

end FieldType

/-- A reference with `b` substituted in its arguments. -/
def Reference.substitute (b : Bindings) (r : Reference) : Reference :=
  { r with args := r.args.map (FieldType.substituteAll b) }

namespace Bindings

/-- One substitution for two: what the first puts in is subject to the second, and so is what the
first does not bind. -/
def andThen (b next : Bindings) : Bindings := fun x =>
  match b x with
  | some arg => some (arg.substitute next)
  | none => next x

/-- This is the name of a bound parameter. -/
def Replaces (b : Bindings) : TypeHead → Prop
  | .named x _ => ∃ arg, b x = some arg
  | _ => False

/-- Where something in the result of a substitution comes from: it stood in the type at the same
place, or it stands in the argument for a parameter that was at a place above. -/
inductive Origin (b : Bindings) (ty : FieldType) (steps : List TypeStep) (head : TypeHead) : Prop
  | kept : ty.head? steps = some head → ¬ b.Replaces head → Origin b ty steps head
  | inserted {above below : List TypeStep} {x : String} {fileName : Option String}
      {arg : FieldType} : steps = above ++ below → ty.head? above = some (.named x fileName) →
      b x = some arg → arg.head? below = some head → Origin b ty steps head

end Bindings

/-- What the fields of the template mention besides its parameters is not bound by `next`. -/
def Object.Avoids (t : Object) (r : Reference) (next : Bindings) : Prop :=
  ∀ p ∈ t.fields.entries, ∀ ty ∈ p.2.types, ∀ x ∈ ty.mentions,
    t.bindings r x = none → next x = none

/-! ## Lemmas -/

namespace FieldType

variable {b b' next : Bindings} {ty part child arg : FieldType} {step : TypeStep}
  {steps below : List TypeStep} {shown : TypeHead} {x : String} {fileName : Option String}

theorem substitute_named (hb : b x = some arg) : (named x fileName).substitute b = arg := by
  rw [substitute, hb, Option.getD_some]

/-! ### Two substitutions -/

/-- **Two substitutions come to one.** -/
theorem substitute_substitute (b next : Bindings) (ty : FieldType) :
    (ty.substitute b).substitute next = ty.substitute (b.andThen next) := by
  induction ty with
  | list element hooks ih => rw [substitute, substitute, substitute, ih]
  | named x fileName =>
    rw [substitute, substitute, Bindings.andThen]
    cases hb : b x with
    | some arg => rfl
    | none => rw [Option.getD_none, substitute]
  | generic name args fileName ih =>
    have hargs : (args.map (·.substitute b)).map (·.substitute next) =
        args.map (·.substitute (b.andThen next)) := by
      rw [List.map_map]
      exact List.map_congr_left ih
    rw [substitute, substitute, substitute, substituteAll_eq_map, substituteAll_eq_map, hargs,
      substituteAll_eq_map]

theorem substitute_empty (ty : FieldType) : ty.substitute .empty = ty := by
  induction ty with
  | list element hooks ih => rw [substitute, ih]
  | named x fileName => rfl
  | generic name args fileName ih =>
    rw [substitute, substituteAll_eq_map, List.map_congr_left ih, List.map_id']

/-- Only the names that a type mentions count. -/
theorem substitute_congr (h : ∀ x ∈ ty.mentions, b x = b' x) :
    ty.substitute b = ty.substitute b' := by
  induction ty with
  | list element hooks ih => rw [substitute, substitute, ih h]
  | named x fileName => rw [substitute, substitute, h x List.mem_cons_self]
  | generic name args fileName ih =>
    rw [mentions, mentionsAll_eq_flatMap] at h
    have hargs : args.map (·.substitute b) = args.map (·.substitute b') :=
      List.map_congr_left fun a ha => ih a ha fun x hx => h x (List.mem_flatMap_of_mem ha hx)
    rw [substitute, substitute, substituteAll_eq_map, substituteAll_eq_map, hargs]

/-- The lists outside a reference stay, and there are more only if it is replaced. -/
theorem listDepth_substitute (b : Bindings) (ty : FieldType) : (ty.substitute b).listDepth =
    ty.listDepth + (ty.terminal.toType.substitute b).listDepth := by
  induction ty with
  | list element hooks ih =>
    rw [substitute, listDepth, listDepth, terminal, ih]
    omega
  | named x fileName => exact (Nat.zero_add _).symm
  | generic name args fileName ih => exact (Nat.zero_add _).symm

/-! ### Place by place -/

theorem part?_append (above : List TypeStep) (ty : FieldType) :
    ty.part? (above ++ below) = (ty.part? above).bind (part? below) := by
  induction above generalizing ty with
  | nil => rfl
  | cons step steps ih =>
    rw [List.cons_append, part?, part?, Option.bind_assoc]
    exact Option.bind_congr fun child _ => ih child

theorem part?_cons (hchild : ty.child? step = some child) :
    ty.part? (step :: steps) = child.part? steps := by
  rw [part?, hchild, Option.bind_some]

theorem head?_cons (hchild : ty.child? step = some child) :
    ty.head? (step :: steps) = child.head? steps := by
  rw [head?, head?, part?_cons hchild]

theorem named_of_head (h : ty.head = .named x fileName) : ty = .named x fileName := by
  cases ty <;> cases h
  rfl

theorem part?_of_head? (h : ty.head? steps = some (.named x fileName)) :
    ty.part? steps = some (.named x fileName) := by
  obtain ⟨part, hpart, hhead⟩ := Option.map_eq_some_iff.mp h
  rw [hpart, named_of_head hhead]

/-- A type is the name of a bound parameter, or it shows the same after the substitution. -/
theorem replaced_or_kept (b : Bindings) (ty : FieldType) :
    (∃ x fileName arg, ty = .named x fileName ∧ b x = some arg) ∨
      ¬ b.Replaces ty.head ∧ (ty.substitute b).head = ty.head ∧
        ∀ step, (ty.substitute b).child? step = (ty.child? step).map (·.substitute b) := by
  cases ty with
  | list element hooks => exact Or.inr ⟨id, rfl, fun step => by cases step <;> rfl⟩
  | named x fileName =>
    cases hb : b x with
    | some arg => exact Or.inl ⟨x, fileName, arg, rfl, hb⟩
    | none =>
      have hsame : (named x fileName).substitute b = named x fileName := by
        rw [substitute, hb, Option.getD_none]
      refine Or.inr ⟨?_, by rw [hsame], fun step => by rw [hsame]; cases step <;> rfl⟩
      rintro ⟨arg, harg⟩
      rw [hb] at harg
      cases harg
  | generic name args fileName =>
    rw [substitute, substituteAll_eq_map]
    refine Or.inr ⟨id, by rw [head, List.length_map]; rfl, fun step => ?_⟩
    cases step with
    | element => rfl
    | argument i => exact List.getElem?_map

theorem child?_substitute (hchild : ty.child? step = some child) :
    (ty.substitute b).child? step = some (child.substitute b) := by
  rcases replaced_or_kept b ty with ⟨x, fileName, arg, rfl, -⟩ | ⟨-, -, hchildren⟩
  · cases step <;> cases hchild
  · rw [hchildren, hchild, Option.map_some]

/-- What is reached in a type is reached by the same steps after a substitution. -/
theorem part?_substitute (h : ty.part? steps = some part) :
    (ty.substitute b).part? steps = some (part.substitute b) := by
  induction steps generalizing ty with
  | nil =>
    cases h
    rfl
  | cons step steps ih =>
    obtain ⟨child, hchild, hpart⟩ := Option.bind_eq_some_iff.mp h
    rw [part?_cons (child?_substitute hchild)]
    exact ih hpart

/-- At a bound parameter the argument stands as it is. -/
theorem part?_substitute_named (h : ty.head? steps = some (.named x fileName))
    (hb : b x = some arg) : (ty.substitute b).part? steps = some arg := by
  rw [part?_substitute (part?_of_head? h), substitute_named hb]

theorem head?_of_origin (h : b.Origin ty steps shown) :
    (ty.substitute b).head? steps = some shown := by
  cases h with
  | kept hshown hstays =>
    obtain ⟨part, hpart, rfl⟩ := Option.map_eq_some_iff.mp hshown
    rw [head?, part?_substitute hpart, Option.map_some]
    rcases replaced_or_kept b part with ⟨x, fileName, arg, rfl, hb⟩ | ⟨-, hhead, -⟩
    · exact absurd ⟨arg, hb⟩ hstays
    · rw [hhead]
  | inserted hsteps habove hb hbelow =>
    rw [hsteps, head?, part?_append, part?_substitute_named habove hb]
    exact hbelow

/-- What comes from a child comes from the type. -/
theorem origin_of_child (hchild : ty.child? step = some child)
    (h : b.Origin child steps shown) : b.Origin ty (step :: steps) shown := by
  cases h with
  | kept hshown hstays => exact .kept ((head?_cons hchild).trans hshown) hstays
  | inserted hsteps habove hb hbelow =>
    rw [hsteps]
    exact .inserted (List.cons_append ..).symm ((head?_cons hchild).trans habove) hb hbelow

theorem origin_of_head? (h : (ty.substitute b).head? steps = some shown) :
    b.Origin ty steps shown := by
  induction steps generalizing ty with
  | nil =>
    rcases replaced_or_kept b ty with ⟨x, fileName, arg, rfl, hb⟩ | ⟨hstays, hhead, -⟩
    · rw [substitute_named hb] at h
      exact .inserted (List.nil_append _).symm rfl hb h
    · obtain rfl : (ty.substitute b).head = shown := Option.some.inj h
      rw [hhead]
      exact .kept rfl hstays
  | cons step steps ih =>
    rcases replaced_or_kept b ty with ⟨x, fileName, arg, rfl, hb⟩ | ⟨-, -, hchildren⟩
    -- a parameter has no children, so all steps that are left lead into the argument
    · rw [substitute_named hb] at h
      exact .inserted (List.nil_append _).symm rfl hb h
    · cases hchild : ty.child? step with
      | none =>
        rw [head?, part?, hchildren, hchild] at h
        cases h
      | some child =>
        rw [head?_cons (child?_substitute hchild)] at h
        exact origin_of_child hchild (ih h)

/-- **What a substitution does, place by place.** -/
theorem head?_substitute_iff :
    (ty.substitute b).head? steps = some shown ↔ b.Origin ty steps shown :=
  ⟨origin_of_head?, head?_of_origin⟩

end FieldType

/-! ### Templates -/

theorem Reference.args_substitute (b : Bindings) (r : Reference) :
    (r.substitute b).args.getD [] = (r.args.getD []).map (·.substitute b) := by
  unfold substitute
  cases r.args with
  | none => rfl
  | some args => exact FieldType.substituteAll_eq_map b args

section

variable {next : Bindings} {t : Object} {r : Reference} {escaped : String}

theorem Object.bindings_substitute (t : Object) (r : Reference) (next : Bindings) (x : String) :
    t.bindings (r.substitute next) x = (t.bindings r x).map (·.substitute next) := by
  rw [bindings, Reference.args_substitute, List.zip_map_right]
  exact Bindings.ofPairs_map (·.substitute next) _ x

theorem Object.andThen_bindings {x : String} (h : t.bindings r x = none → next x = none) :
    (t.bindings r).andThen next x = t.bindings (r.substitute next) x := by
  rw [bindings_substitute, Bindings.andThen]
  cases hb : t.bindings r x with
  | some arg => rfl
  | none => exact h hb

/-- **Deep instantiations.**  To instantiate a template and then to replace the parameters in what
has been made gives the fields that the template has for the replaced arguments. -/
theorem Object.fields_instanceOf_substitute (h : t.Avoids r next) :
    ((t.instanceOf r escaped).mapTypes (·.substitute next)).fields =
      (t.instanceOf (r.substitute next) escaped).fields := by
  apply Dict.ext
  simp only [mapTypes, instanceOf, Dict.mapValues, List.map_map, Function.comp_def,
    Field.mapTypes_of_instantiate, FieldType.substitute_substitute]
  refine List.map_congr_left fun p hp => Prod.ext rfl (Field.mapTypes_eq_iff.mpr ?_)
  intro ty hty
  exact FieldType.substitute_congr fun x hx => andThen_bindings (h p hp ty hty x hx)

end

namespace FieldType

/-- **Substitution is simultaneous, and two substitutions come to one.**  Of two, the second applies
to what the first puts in and to the names that the first does not bind; none at all changes
nothing.  Each place of a type shows after a substitution what it has shown before, hooks and files
included, unless a bound parameter stands there.  Then the argument does, just as it was given, and
so the lists outside a parameter stay outside it. -/
theorem substitute_composes (ty : FieldType) :
    (∀ b next : Bindings,
      (ty.substitute b).substitute next = ty.substitute (b.andThen next)) ∧
    ty.substitute .empty = ty ∧
    ∀ b : Bindings,
      (∀ steps shown, (ty.substitute b).head? steps = some shown ↔ b.Origin ty steps shown) ∧
      (∀ steps x fileName arg, ty.head? steps = some (.named x fileName) → b x = some arg →
        (ty.substitute b).part? steps = some arg) ∧
      (ty.substitute b).listDepth =
        ty.listDepth + (ty.terminal.toType.substitute b).listDepth := by
  refine ⟨fun b next => substitute_substitute b next ty, substitute_empty ty, fun b => ?_⟩
  refine ⟨fun steps shown => head?_substitute_iff, ?_, listDepth_substitute b ty⟩
  intro steps x fileName arg hshown hb
  exact part?_substitute_named hshown hb

/-- Pairs of checked lists of `T` and of boxes of `U`. -/
def pairOfParameters : FieldType :=
  .generic "Pair" [.list (.named "T" none) Graph.refusing,
    .generic "Box" [.named "U" (some "box")] none] (some "pair")

/-- Both arguments mention `T`, the first of them inside a template. -/
def crossed : Bindings :=
  .ofPairs [("T", .generic "Page" [.named "T" none] none), ("U", .named "T" none)]

/-- The arguments for `T` and `U` mention `T`, and only a second substitution replaces that. -/
theorem substitute_composes_crossed :
    pairOfParameters.head? [.argument 0, .element] = some (.named "T" none) ∧
    crossed "T" = some (.generic "Page" [.named "T" none] none) ∧
    (pairOfParameters.substitute crossed).part? [.argument 0, .element] =
      some (.generic "Page" [.named "T" none] none) ∧
    (pairOfParameters.substitute crossed).head? [.argument 0] = some (.list Graph.refusing) ∧
    (pairOfParameters.substitute crossed).substitute (.ofPairs [("T", .named "User" none)]) =
      .generic "Pair" [.list (.generic "Page" [.named "User" none] none) Graph.refusing,
        .generic "Box" [.named "User" none] none] (some "pair") := by
  obtain ⟨htwice, -, honce⟩ := substitute_composes pairOfParameters
  obtain ⟨horigin, hargument, -⟩ := honce crossed
  refine ⟨rfl, rfl, hargument _ "T" none _ rfl rfl, ?_, ?_⟩
  · exact (horigin _ _).mpr (.kept rfl id)
  · rw [htwice]
    rfl

end FieldType

end EntityGraph
