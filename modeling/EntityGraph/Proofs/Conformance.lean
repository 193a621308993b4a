import EntityGraph.Proofs.Answers
import EntityGraph.Proofs.Forgetting

/-!
# Validated payloads conform

Hooks may put anything in place of a value, and still the result of a validation has the form that
the schema asks for:

    (v.validateWithin levels o payload context).outcome = .done w → ConformsTo v.schema o w

Conformance says nothing of payloads and hooks.  An object has the target names of fields as its
keys, each at most once and in the order of the fields, and under each of them what the type of a
field of that name asks for.  A list is an array, in which null may stand for any element, and a
reference to an object of the schema is such an object.  Any other reference takes every value.

The walk ends in a value of the right form at each type because what a hook has answered is walked
through itself (`conforms_value`); the schema may be cyclic, so the induction is on the levels that
the walk may go down and, at each level, on the type.
-/

namespace EntityGraph

/-! ## Algorithm -/

mutual

/-- The value has the form that the type asks for. -/
inductive Conforms (schema : InputSchema) : FieldType → Json → Prop
  | list {element : FieldType} {hooks : Hooks} {items : List Json} :
      (∀ x ∈ items, x ≠ .null → Conforms schema element x) →
      Conforms schema (.list element hooks) (.arr items)
  | object {ty : FieldType} {name : String} {o : InputObject} {v : Json} :
      ty.reference? = some name → schema.find? name = some (.object o) →
      ConformsTo schema o v → Conforms schema ty v
  | leaf {ty : FieldType} {name : String} {v : Json} : ty.reference? = some name →
      (∀ o, schema.find? name ≠ some (.object o)) → Conforms schema ty v

/-- The value is an object whose members are values of fields of `o`. -/
inductive ConformsTo (schema : InputSchema) : InputObject → Json → Prop
  | object {o : InputObject} {members : List (String × Json)}
      (field : ∀ p ∈ members, InputField) : (Assoc.keys members).Nodup →
      (Assoc.keys members).Sublist (o.fields.map (·.targetName)) →
      (∀ p hp, field p hp ∈ o.fields ∧ (field p hp).targetName = p.1) →
      (∀ p hp, Conforms schema (field p hp).type p.2) → ConformsTo schema o (.obj members)

end

/-! ## Lemmas -/

section

variable {schema : InputSchema} {element ty : FieldType} {hooks : Hooks} {name : String}
  {o : InputObject} {v : Json}

theorem conforms_list_iff : Conforms schema (.list element hooks) v ↔
    ∃ items, v = .arr items ∧ ∀ x ∈ items, x = .null ∨ Conforms schema element x := by
  constructor
  · intro h
    cases h with
    | @list _ _ items hitems =>
      refine ⟨items, rfl, fun x hx => ?_⟩
      by_cases hnull : x = .null
      · exact Or.inl hnull
      · exact Or.inr (hitems x hx hnull)
    | object hty _ _ => cases hty
    | leaf hty _ => cases hty
  · rintro ⟨items, rfl, hitems⟩
    exact .list fun x hx hnull => (hitems x hx).resolve_left hnull

theorem conforms_reference_iff (hty : ty.reference? = some name) : Conforms schema ty v ↔
    ∀ o, schema.find? name = some (.object o) → ConformsTo schema o v := by
  constructor
  · intro h o ho
    cases h with
    | list _ => cases hty
    | object hty' ho' h =>
      rw [hty] at hty'
      cases hty'
      rw [ho] at ho'
      cases ho'
      exact h
    | leaf hty' hno =>
      rw [hty] at hty'
      cases hty'
      exact absurd ho (hno o)
  · intro h
    by_cases hobject : ∃ o, schema.find? name = some (.object o)
    · obtain ⟨o, ho⟩ := hobject
      exact .object hty ho (h o ho)
    · exact .leaf hty fun o ho => hobject ⟨o, ho⟩

theorem conformsTo_iff : ConformsTo schema o v ↔ ∃ members, v = .obj members ∧
    (Assoc.keys members).Nodup ∧ (Assoc.keys members).Sublist (o.fields.map (·.targetName)) ∧
    ∀ p ∈ members, ∃ f ∈ o.fields, f.targetName = p.1 ∧ Conforms schema f.type p.2 := by
  constructor
  · rintro ⟨field, hnodup, hsublist, hfield, hconforms⟩
    exact ⟨_, rfl, hnodup, hsublist, fun p hp =>
      ⟨field p hp, (hfield p hp).1, (hfield p hp).2, hconforms p hp⟩⟩
  · rintro ⟨members, rfl, hnodup, hsublist, hmembers⟩
    choose field hmem hname hconforms using hmembers
    exact .object field hnodup hsublist (fun p hp => ⟨hmem p hp, hname p hp⟩) hconforms

end

namespace Validate

variable {schema : InputSchema} {nested : InputObject → Json → FieldPath → Run Json}
  {context : Option Json} {payload w : Json} {path : FieldPath}

theorem conforms_of_reference
    (hnested : ∀ o v p w, (nested o v p).Answers w → ConformsTo schema o w) {ty : FieldType}
    {name : String} {v : Json} (hty : ty.reference? = some name)
    (h : (value schema nested context ty v path).Answers w) : Conforms schema ty w := by
  refine (conforms_reference_iff hty).mpr fun o ho => ?_
  rcases answers_value_reference hty h with ⟨o', ho', hw⟩ | ⟨hno, -⟩
  · rw [ho] at ho'
    cases ho'
    exact hnested o v path w hw
  · exact absurd ho (hno o)

/-- What is made of a value conforms to its type, if the walk one level down does its part. -/
theorem conforms_value (hnested : ∀ o v p w, (nested o v p).Answers w → ConformsTo schema o w)
    {ty : FieldType} {v : Json} (h : (value schema nested context ty v path).Answers w) :
    Conforms schema ty w := by
  induction ty generalizing v w path with
  | list element hooks ih =>
    obtain ⟨items, rfl, hitems⟩ := answers_value_list h
    refine conforms_list_iff.mpr ⟨items, rfl, fun x hx => ?_⟩
    obtain ⟨i, hi⟩ := List.getElem?_of_mem hx
    obtain ⟨raw, -, hnull | ⟨-, j, y, -, hx⟩⟩ := exists_getElem?_of_forall₂ hitems hi
    · exact Or.inl hnull.2
    · exact Or.inr (ih hx)
  | named name fileName => exact conforms_of_reference hnested rfl h
  | generic name args fileName => exact conforms_of_reference hnested rfl h

theorem conformsTo_object {levels : Nat} {o : InputObject}
    (h : (object schema context levels o payload path).Answers w) : ConformsTo schema o w := by
  induction levels generalizing o payload path w with
  | zero => exact absurd h Run.not_answers_throw
  | succ levels ih =>
    obtain ⟨_, sent, made, hlevels, -, rfl, hmade⟩ := answers_object h
    cases hlevels
    refine conformsTo_iff.mpr ⟨made, rfl, hmade.nodup, hmade.sublist, fun p hp => ?_⟩
    obtain ⟨f, raw, hlast, hname, y, -, hw⟩ := hmade.members p hp
    exact ⟨f, hlast.mem, hname, conforms_value (fun _ _ _ _ => ih) hw⟩

end Validate

/-- **Validated payloads conform.**  Whatever the hooks do and however many levels there are, what a
validation against an object is done with conforms to that object. -/
theorem Validator.conformsTo_of_done {v : Validator} {levels : Nat} {o : InputObject}
    {payload w : Json} {context : Option Json}
    (h : (v.validateWithin levels o payload context).outcome = .done w) :
    ConformsTo v.schema o w :=
  Validate.conformsTo_object (Run.answers_of_verdict h)

/-- An object that refers to itself under two lists, with a transform on the outer one that puts an
object in place of every element, and with a field whose transform answers null. -/
def InputObject.outline : InputObject :=
  let constant (v : Json) : Hooks := ⟨none, some ⟨.null, fun _ => .after 0 (.ok v)⟩⟩
  let noted : Json := .obj [("note", .bool true), ("other", .bool true)]
  ⟨"Outline", "Outline", 0, false, none,
    [⟨"items", "parts", none, 0, false, true, none, none,
        .list (.list (.named "Outline" none) .none) (constant noted), .none⟩,
      ⟨"note", "note", none, 0, false, true, none, none, .named "Text" none, constant .null⟩]⟩

theorem Validator.conformsTo_outline :
    let o := InputObject.outline
    let schema : InputSchema := Dict.empty.insert o.escapedName (.object o)
    let payload : Json := .obj [("note", .str ""), ("items", .arr [.bool false, .null])]
    let w : Json := .obj [("parts", .arr [.arr [.obj [("note", .null)]], .null]), ("note", .null)]
    (Validator.validate ⟨schema, none⟩ o payload none).outcome = .done w ∧
      ConformsTo schema o w := by
  intro o schema payload w
  have h : (Validator.validate ⟨schema, none⟩ o payload none).outcome = .done w := rfl
  exact ⟨h, conformsTo_of_done h⟩

end EntityGraph
