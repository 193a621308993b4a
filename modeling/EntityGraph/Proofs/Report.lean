import EntityGraph.Normalize.Basic
import EntityGraph.Proofs.Lookup
import EntityGraph.Proofs.Retyping

/-!
# What a visit comes to

A visit reads the graph and the instantiations made so far, and then does two things: it has its
requests granted and it adds to the schemas and the diagnostics.  What it wants to have granted
and to add is its report, which depends on the state only through the names that are known.

    visit g depth st name node = do
      let r ← report (lookup g st) name node
      return (← grantAll g depth st r.requests).add name r                    (visit_eq)

A report stays as it is when more names become known (`report_mono`).
-/

namespace EntityGraph

/-! ## Algorithm -/

/-- Inserts a value if there is one. -/
def Dict.insert? {α : Type} (d : Dict α) (key : String) : Option α → Dict α
  | none => d
  | some value => d.insert key value

/-- The reference under the lists of a type, if it has arguments. -/
def FieldType.applied? (ty : FieldType) : Option Reference :=
  ty.terminal.args.map fun _ => ty.terminal

namespace Normalize

/-- What an entry wants to have granted, and what it adds to the schemas and the diagnostics. -/
structure Report where
  requests : List Request
  input : Option (SchemaNode InputField)
  output : Option (SchemaNode OutputField)
  diagnostics : List Diagnostic

/-- The report of an object whose visible fields have been resolved. -/
def objectReport (name : String) (o : Object) (resolved : List ResolvedField)
    (reports : List Diagnostic) : Report :=
  let fields := FieldOrder.arrange o resolved
  ⟨fields.flatMap (requests o),
    (o.side? name (fields.filterMap (·.inputField?))).map .object,
    (o.side? name (fields.filterMap (·.outputField?))).map .object, reports⟩

def report (lookup : String → Option Node) (name : String) : Node → Except GraphError Report
  | .scalar s => .ok ⟨[], some (.scalar s), some (.scalar s), []⟩
  | .enumeration e => .ok ⟨[], some (.enumeration e), some (.enumeration e), []⟩
  | .union u => .ok ⟨[], some (.union u), some (.union u), []⟩
  | .object o =>
    if o.isTemplate then .ok ⟨[], none, none, []⟩
    else do
      let (resolved, reports) ← Resolution.resolveAll lookup o o.visibleFields.entries
      return objectReport name o resolved reports
  | other => .error (.unexpectedKind name other.kind)

def State.add (st : State) (name : String) (r : Report) : State :=
  { st with
    input := st.input.insert? name r.input
    output := st.output.insert? name r.output
    diagnostics := st.diagnostics ++ r.diagnostics }

/-! ## Lemmas -/

theorem emit_eq {F : Type} (schema : Schema F) (name : String) (side : Option (ObjectSchema F)) :
    emit schema name side = schema.insert? name (side.map .object) := by
  cases side <;> rfl

theorem add_without_diagnostics (st : State) (name : String)
    (input : Option (SchemaNode InputField)) (output : Option (SchemaNode OutputField)) :
    st.add name ⟨[], input, output, []⟩ =
      { st with
        input := st.input.insert? name input
        output := st.output.insert? name output } := by
  rw [State.add, List.append_nil]

theorem visit_eq (g : Graph) (depth : Nat) (st : State) (name : String) (node : Node) :
    visit g depth st name node = do
      let r ← report (lookup g st) name node
      return (← grantAll g depth st r.requests).add name r := by
  cases node with
  | object o =>
    rw [visit, report]
    split
    · exact congrArg Except.ok (add_without_diagnostics st name none none).symm
    · rw [visitObject]
      cases Resolution.resolveAll (lookup g st) o o.visibleFields.entries with
      | error e => rfl
      | ok x =>
        obtain ⟨resolved, reports⟩ := x
        simp only [emit_eq]
        rfl
  | scalar s =>
    have hadd := add_without_diagnostics st name (some (.scalar s)) (some (.scalar s))
    exact congrArg Except.ok hadd.symm
  | enumeration e =>
    have hadd := add_without_diagnostics st name (some (.enumeration e)) (some (.enumeration e))
    exact congrArg Except.ok hadd.symm
  | union u =>
    have hadd := add_without_diagnostics st name (some (.union u)) (some (.union u))
    exact congrArg Except.ok hadd.symm
  | list element hooks => rfl
  | reference r => rfl
  | field f => rfl

theorem visit_ok_iff {g : Graph} {depth : Nat} {st st' : State} {name : String} {node : Node} :
    visit g depth st name node = .ok st' ↔ ∃ r granted, report (lookup g st) name node = .ok r ∧
      grantAll g depth st r.requests = .ok granted ∧ st' = granted.add name r := by
  rw [visit_eq, Except.bind_eq_ok_iff]
  constructor
  · rintro ⟨r, hr, h⟩
    obtain ⟨granted, hg, h⟩ := Except.bind_eq_ok_iff.mp h
    exact ⟨r, granted, hr, hg, (Except.ok.inj h).symm⟩
  · rintro ⟨r, granted, hr, hg, rfl⟩
    exact ⟨r, hr, Except.bind_eq_ok_iff.mpr ⟨granted, hg, rfl⟩⟩

section

variable {look look' : String → Option Node} {name : String} {o : Object} {r : Report}

/-- The report of an object that is no template comes from the resolution of its fields. -/
theorem report_object_ok_iff (ho : o.isTemplate = false) : report look name (.object o) = .ok r ↔
    ∃ resolved reports, Resolution.resolveAll look o o.visibleFields.entries =
      .ok (resolved, reports) ∧ r = objectReport name o resolved reports := by
  rw [report, if_neg (by simp [ho]), Except.bind_eq_ok_iff]
  constructor
  · rintro ⟨⟨resolved, reports⟩, h, hr⟩
    exact ⟨resolved, reports, h, (Except.ok.inj hr).symm⟩
  · rintro ⟨resolved, reports, h, rfl⟩
    exact ⟨(resolved, reports), h, rfl⟩

theorem report_template (ho : o.isTemplate = true) :
    report look name (.object o) = .ok ⟨[], none, none, []⟩ := by
  rw [report, if_pos ho]

theorem report_mono (hext : Resolution.Extends look look') {node : Node}
    (h : report look name node = .ok r) : report look' name node = .ok r := by
  cases node with
  | object o =>
    cases ho : o.isTemplate with
    | true => rwa [report_template ho] at h ⊢
    | false =>
      obtain ⟨resolved, reports, hres, rfl⟩ := (report_object_ok_iff ho).mp h
      exact (report_object_ok_iff ho).mpr
        ⟨resolved, reports, Resolution.resolveAll_mono hext hres, rfl⟩
  | _ => exact h

theorem report_congr (h : ∀ p ∈ o.visibleFields.entries,
      ∀ name ∈ Resolution.searchOrder o p.2, look name = look' name) :
    report look name (.object o) = report look' name (.object o) := by
  rw [report, report, Resolution.resolveAll_congr h]

end

/-! ## The requests of a report -/

theorem map_reference_request? (referencedBy location : String) (ty : FieldType) :
    (request? referencedBy location ty).toList.map (·.reference) = ty.applied?.toList := by
  rw [request?, FieldType.applied?]
  cases ty.terminal.args <;> rfl

/-- The requests of a field are for the references of its types that have arguments. -/
theorem map_reference_requests (o : Object) (f : ResolvedField) :
    (requests o f).map (·.reference) = f.field.types.filterMap FieldType.applied? := by
  have one : ∀ ty : FieldType, [ty].filterMap FieldType.applied? = ty.applied?.toList := by
    intro ty
    cases h : ty.applied? <;> simp [h]
  simp only [requests, Field.types, List.map_append, List.filterMap_append]
  congr 1
  · congr 1
    · cases f.field.input with
      | none => rfl
      | some v => exact (map_reference_request? ..).trans (one v.type).symm
    · cases f.field.output with
      | none => rfl
      | some v =>
        cases hp : v.param with
        | none => simp [hp]
        | some ty => simpa [hp, one] using map_reference_request? _ v.location ty
  · cases f.field.output with
    | none => rfl
    | some v => exact (map_reference_request? ..).trans (one v.type).symm

theorem mem_requests_iff {o : Object} {fields : List ResolvedField} {r : Reference} :
    (∃ q ∈ fields.flatMap (requests o), q.reference = r) ↔
      ∃ f ∈ fields, ∃ ty ∈ f.field.types, ty.applied? = some r := by
  constructor
  · rintro ⟨q, hq, rfl⟩
    obtain ⟨f, hf, hq⟩ := List.mem_flatMap.mp hq
    have hr : q.reference ∈ (requests o f).map (·.reference) := List.mem_map_of_mem hq
    rw [map_reference_requests, List.mem_filterMap] at hr
    exact ⟨f, hf, hr⟩
  · rintro ⟨f, hf, hty⟩
    have hr : r ∈ (requests o f).map (·.reference) := by
      rw [map_reference_requests, List.mem_filterMap]
      exact hty
    obtain ⟨q, hq, rfl⟩ := List.mem_map.mp hr
    exact ⟨q, List.mem_flatMap.mpr ⟨f, hf, hq⟩, rfl⟩

end Normalize

namespace FieldOrder

theorem place_perm (ancestors : List String) (f : ResolvedField) (fields : List ResolvedField) :
    (place ancestors f fields).Perm (f :: fields) := by
  induction fields with
  | nil => exact .refl _
  | cons g rest ih =>
    unfold place
    split
    · exact (ih.cons g).trans (.swap f g rest)
    · exact .refl _

theorem sort_perm (ancestors : List String) (fields : List ResolvedField) :
    (sort ancestors fields).Perm fields := by
  induction fields with
  | nil => exact .refl _
  | cons f rest ih => exact (place_perm ancestors f _).trans (ih.cons f)

theorem arrange_perm (o : Object) (fields : List ResolvedField) :
    (arrange o fields).Perm fields := by
  unfold arrange
  split
  · exact .refl _
  · exact sort_perm o.ancestors fields

end FieldOrder

namespace Normalize

/-- An object's report requests the references with arguments of the fields that resolve. -/
theorem mem_objectReport_requests {name : String} {o : Object} {resolved : List ResolvedField}
    {reports : List Diagnostic} {r : Reference} :
    (∃ q ∈ (objectReport name o resolved reports).requests, q.reference = r) ↔
      ∃ f ∈ resolved, ∃ ty ∈ f.field.types, ty.applied? = some r := by
  rw [objectReport, mem_requests_iff]
  simp only [(FieldOrder.arrange_perm o resolved).mem_iff]

end Normalize

end EntityGraph
