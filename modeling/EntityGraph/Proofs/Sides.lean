import EntityGraph.Proofs.Shown
import Mathlib.Data.List.Forall2

/-!
# The two sides

What holds of the input schema mostly holds of the output schema as well, with output variants in
place of input variants.  `Side` is either of the two, and says where a normalization, a report and
a field keep it.

A schema has under each name what the visit to that name came to (`find?_schema_iff`).  The fields
of an object are those of its resolved fields that have a variant on this side, in their order
(`find?_object_iff`), and their types are the declared ones in the concrete form (`traced_result`).
-/

namespace EntityGraph

open Normalize

/-! ## Algorithm -/

inductive Side where
  | input | output

namespace Side

/-- What the fields of the schema are. -/
abbrev SchemaField : Side → Type
  | input => InputField
  | output => OutputField

def schema : (s : Side) → Normalized → Schema s.SchemaField
  | input, n => n.input
  | output, n => n.output

def ofReport : (s : Side) → Report → Option (SchemaNode s.SchemaField)
  | input, r => r.input
  | output, r => r.output

/-- What the schema shows of a resolved field. -/
def shown : (s : Side) → ResolvedField → Option s.SchemaField
  | input, f => f.inputField?
  | output, f => f.outputField?

/-- Whether a declaration has a variant on this side. -/
def declared : Side → Field → Bool
  | input, f => f.input.isSome
  | output, f => f.output.isSome

end Side

/-! ## Lemmas -/

/-- What is left of a list stands in the order of what it comes from. -/
theorem forall₂_filter_filterMap {α β : Type} {p : α → Bool} {f : α → Option β}
    {R : α → β → Prop} {l : List α} (hp : ∀ a ∈ l, (f a).isSome = p a)
    (hR : ∀ a ∈ l, ∀ b, f a = some b → R a b) :
    List.Forall₂ R (l.filter p) (l.filterMap f) := by
  induction l with
  | nil => exact .nil
  | cons a rest ih =>
    have ih := ih (fun b hb => hp b (by simp [hb])) fun b hb => hR b (by simp [hb])
    have ha := hp a (by simp)
    cases hf : f a with
    | none =>
      have hpa : p a = false := by rw [← ha, hf]; rfl
      simpa [hpa, hf] using ih
    | some b =>
      have hpa : p a = true := by rw [← ha, hf]; rfl
      simpa [hpa, hf] using ⟨hR a (by simp) b hf, ih⟩

namespace Side

variable {s : Side} {g : Graph} {h : List Visit} {st : State} {name : String} {o : Object}
  {f : ResolvedField}

theorem isSome_shown (s : Side) (f : ResolvedField) : (s.shown f).isSome = s.declared f.field := by
  cases s with
  | input => exact Option.isSome_map
  | output => exact Option.isSome_map

theorem ofReport_objectReport (s : Side) (name : String) (o : Object)
    (resolved : List ResolvedField) (reports : List Diagnostic) :
    s.ofReport (objectReport name o resolved reports) =
      (o.side? name ((FieldOrder.arrange o resolved).filterMap s.shown)).map .object := by
  cases s <;> rfl

theorem entries_schema (hc : Consistent g h st) (s : Side) : (s.schema st.result).entries =
    h.filterMap fun v => (s.ofReport v.report).map (v.entry.name, ·) := by
  cases s with
  | input => exact hc.input
  | output => exact hc.output

theorem find?_schema_iff (hc : Consistent g h st) {x : SchemaNode s.SchemaField} :
    (s.schema st.result).find? name = some x ↔
      ∃ v ∈ h, v.entry.name = name ∧ s.ofReport v.report = some x := by
  rw [Dict.find?_eq_some_iff, entries_schema hc, List.mem_filterMap]
  refine exists_congr fun v => and_congr_right fun _ => ?_
  rw [Option.map_eq_some_iff]
  constructor
  · rintro ⟨y, hy, hpair⟩
    cases hpair
    exact ⟨rfl, hy⟩
  · rintro ⟨rfl, hx⟩
    exact ⟨x, hx, rfl⟩

theorem side?_eq_some_iff {F : Type} {fields : List F} {x : ObjectSchema F} :
    o.side? name fields = some x ↔
      fields ≠ [] ∧ x = ⟨o.name, name, o.id, o.deprecated, o.doc, fields⟩ := by
  cases fields with
  | nil => simp [Object.side?]
  | cons e rest => simp [Object.side?, eq_comm]

/-- The object that a visit adds to a schema. -/
theorem ofReport_object_iff {lookup : String → Option Node} {node : Node} {rep : Report}
    (hreport : report lookup name node = .ok rep) {x : ObjectSchema s.SchemaField} :
    s.ofReport rep = some (.object x) ↔ ∃ o resolved reports, node = .object o ∧
      o.isTemplate = false ∧
      Resolution.resolveAll lookup o o.visibleFields.entries = .ok (resolved, reports) ∧
      o.side? name ((FieldOrder.arrange o resolved).filterMap s.shown) = some x := by
  constructor
  · intro hx
    have hside : (∃ y, rep.input = some (.object y)) ∨ ∃ y, rep.output = some (.object y) := by
      cases s with
      | input => exact Or.inl ⟨x, hx⟩
      | output => exact Or.inr ⟨x, hx⟩
    obtain ⟨o, resolved, reports, hnode, ho, hres, rfl⟩ := objectReport_of_side hreport hside
    rw [ofReport_objectReport, Option.map_eq_some_iff] at hx
    obtain ⟨y, hy, hxy⟩ := hx
    cases hxy
    exact ⟨o, resolved, reports, hnode, ho, hres, hy⟩
  · rintro ⟨o, resolved, reports, rfl, ho, hres, hx⟩
    obtain ⟨resolved', reports', hres', rfl⟩ := (report_object_ok_iff ho).mp hreport
    rw [hres] at hres'
    cases hres'
    rw [ofReport_objectReport, hx, Option.map_some]

/-- **The objects of a schema.**  Each is a side of an object that has been visited. -/
theorem find?_object_iff (hc : Consistent g h st) {x : ObjectSchema s.SchemaField} :
    (s.schema st.result).find? name = some (.object x) ↔
      ∃ v ∈ h, v.entry.name = name ∧ ∃ o resolved reports, v.entry.node = .object o ∧
        o.isTemplate = false ∧
        Resolution.resolveAll (lookup g st) o o.visibleFields.entries = .ok (resolved, reports) ∧
        o.side? name ((FieldOrder.arrange o resolved).filterMap s.shown) = some x := by
  rw [find?_schema_iff hc]
  refine exists_congr fun v => and_congr_right fun hv => and_congr_right fun hname => ?_
  subst hname
  exact ofReport_object_iff (hc.reported v hv)

/-- Every field in a schema is that of a declaration. -/
theorem exists_declares_of_mem (hc : Consistent g h st) (hcomplete : Complete g h st)
    {x : ObjectSchema s.SchemaField} (hx : (s.schema st.result).find? name = some (.object x))
    {e : s.SchemaField} (he : e ∈ x.fields) :
    ∃ f : ResolvedField, st.result.Declares g name f.field ∧ s.shown f = some e := by
  obtain ⟨v, hv, rfl, o, resolved, reports, hnode, ho, hres, hside⟩ := (find?_object_iff hc).mp hx
  rw [Object.fields_of_side? hside] at he
  obtain ⟨f, hf, hshown⟩ := List.mem_filterMap.mp he
  exact ⟨f, declares_of_mem_arrange hc hcomplete hv hnode ho hres hf, hshown⟩

end Side

theorem Normalize.traced_result {g : Graph} {h : List Visit} {st : State}
    (hc : Consistent g h st) (hcomplete : Complete g h st) : st.result.Traced g := by
  constructor
  · intro name x e hx he
    obtain ⟨f, hdeclares, hshown⟩ :=
      Side.exists_declares_of_mem (s := .input) hc hcomplete hx he
    obtain ⟨v, hv, rfl⟩ := Option.map_eq_some_iff.mp hshown
    exact ⟨f.field, v, hdeclares, hv, rfl, rfl⟩
  · intro name x e hx he
    obtain ⟨f, hdeclares, hshown⟩ :=
      Side.exists_declares_of_mem (s := .output) hc hcomplete hx he
    obtain ⟨v, hv, rfl⟩ := Option.map_eq_some_iff.mp hshown
    exact ⟨f.field, v, hdeclares, hv, rfl, rfl, rfl⟩

end EntityGraph
