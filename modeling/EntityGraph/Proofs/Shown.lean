import EntityGraph.Proofs.Generations
import EntityGraph.Proofs.Requests

/-!
# What the schemas show

The objects that the schemas show fields of are those of the graph that are no templates, and the
instantiations.  A field that is shown comes from a declaration, which the object provides itself or
inherits (`declares_of_mem_arrange`).

The uses of instantiations are the references with arguments in these declarations.  They are what
the visits of a complete run request (`uses_result_iff`).
-/

namespace EntityGraph

open Normalize

/-! ## Algorithm -/

namespace Normalized

variable (g : Graph) (n : Normalized)

/-- The entries of the graph, and behind them the instantiations. -/
def entries : List (String × Node) :=
  g.entities.entries ++ n.specializations.map fun o => (o.escapedName, .object o)

/-- What a name stands for: an entry of the graph or an instantiation. -/
def lookup (name : String) : Option Node :=
  match g.find? name with
  | some node => some node
  | none => (n.specializations.find? (·.escapedName = name)).map .object

/-- The object `o` goes by the name, and the schemas show its fields. -/
def Shows (name : String) (o : Object) : Prop :=
  (g.find? name = some (.object o) ∧ o.isTemplate = false) ∨
    (o ∈ n.specializations ∧ o.escapedName = name)

/-- `field` is the declaration of a visible field of what goes by the name. -/
def Declares (name : String) (field : Field) : Prop :=
  ∃ o, n.Shows g name o ∧ ∃ p ∈ o.visibleFields.entries,
    Resolution.Provides (n.lookup g) o p.1 p.2 field

/-- `r` is a reference with arguments in such a declaration. -/
def Uses (r : Reference) : Prop :=
  ∃ name field, n.Declares g name field ∧ ∃ ty ∈ field.types, ty.applied? = some r

/-- The types of all fields in the schemas are those of their declarations in the concrete form. -/
structure Traced : Prop where
  input : ∀ name side e, n.input.find? name = some (.object side) → e ∈ side.fields →
    ∃ field v, n.Declares g name field ∧ field.input = some v ∧ e.name = v.name ∧
      e.type = v.type.concrete
  output : ∀ name side e, n.output.find? name = some (.object side) → e ∈ side.fields →
    ∃ field v, n.Declares g name field ∧ field.output = some v ∧ e.name = v.name ∧
      e.type = v.type.concrete ∧ e.param = v.param.map (·.concrete)

end Normalized

/-! ## Lemmas -/

/-- What an object of the graph declares and exposes itself is used. -/
theorem Normalized.uses_of_own {g : Graph} {n : Normalized} {name : String} {o : Object}
    {p : String × VisibleField} {field : Field} {ty : FieldType} {r : Reference}
    (ho : g.find? name = some (.object o)) (htemplate : o.isTemplate = false)
    (hp : p ∈ o.visibleFields.entries) (hfield : o.fields.find? p.1 = some field)
    (hty : ty ∈ field.types) (hr : ty.applied? = some r) : n.Uses g r :=
  ⟨name, field, ⟨o, Or.inl ⟨ho, htemplate⟩, p, hp, Or.inl hfield⟩, ty, hty, hr⟩

theorem Object.fields_of_side? {F : Type} {o : Object} {name : String} {fields : List F}
    {side : ObjectSchema F} (h : o.side? name fields = some side) : side.fields = fields := by
  unfold side? at h
  split at h
  · cases h
  · cases h
    rfl

namespace Normalize

variable {g : Graph} {h : List Visit} {st : State} {name : String} {o : Object} {r : Reference}

theorem mem_specializations_iff : o ∈ st.result.specializations ↔
    ∃ p ∈ st.instances.entries, p.2.object = o := by
  rw [State.result, Dict.values, List.map_map, List.mem_map]
  rfl

theorem find?_specializations (hc : Consistent g h st) (name : String) :
    st.result.specializations.find? (·.escapedName = name) =
      (st.instances.find? name).map (·.object) := by
  have hnames := hc.escapedName
  rw [State.result, Dict.values, Dict.find?]
  generalize st.instances.entries = l at hnames
  induction l with
  | nil => rfl
  | cons p rest ih =>
    have hp := hnames p (by simp)
    have hrest := ih fun q hq => hnames q (by simp [hq])
    by_cases heq : p.1 = name
    · simp [Assoc.find?, hp, heq]
    · simpa [Assoc.find?, hp, heq] using hrest

theorem lookup_result (hc : Consistent g h st) : st.result.lookup g = lookup g st := by
  funext name
  rw [Normalized.lookup, find?_specializations hc, lookup]
  cases g.find? name with
  | some node => rfl
  | none => rw [Option.map_map]; rfl

theorem entries_result (hc : Consistent g h st) :
    st.result.entries g = (worklist g st).map fun e => (e.name, e.node) := by
  rw [Normalized.entries, State.result, Dict.values, worklist, List.map_append, List.map_map,
    List.map_map, List.map_map, List.map_map]
  congr 1
  · exact (List.map_id _).symm
  · refine List.map_congr_left fun p hp => ?_
    simp only [instanceEntry, Function.comp_apply, hc.escapedName p hp]

theorem nodup_entries_result (hc : Consistent g h st) :
    (Assoc.keys (st.result.entries g)).Nodup := by
  rw [entries_result hc, Assoc.keys, List.map_map]
  exact nodup_names_worklist hc.free

/-- What is shown is what has been visited. -/
theorem shows_result_iff (hc : Consistent g h st) (hcomplete : Complete g h st) :
    st.result.Shows g name o ↔ ∃ v ∈ h, v.entry.name = name ∧ v.entry.node = .object o ∧
      o.isTemplate = false := by
  constructor
  · rintro (⟨ho, htemplate⟩ | ⟨ho, rfl⟩)
    · obtain ⟨v, hv, hentry⟩ :=
        hcomplete.exists_visit (mem_worklist_of_graph (Dict.find?_eq_some_iff.mp ho))
      exact ⟨v, hv, by rw [hentry, graphEntry], by rw [hentry, graphEntry], htemplate⟩
    · obtain ⟨p, hp, rfl⟩ := mem_specializations_iff.mp ho
      obtain ⟨v, hv, hentry⟩ := hcomplete.exists_visit (mem_worklist_of_instances hp)
      refine ⟨v, hv, ?_, by rw [hentry]; rfl, hc.noTemplates.find? (Dict.find?_eq_some_iff.mpr hp)⟩
      rw [hentry]
      exact (hc.escapedName p hp).symm
  · rintro ⟨v, hv, rfl, hnode, htemplate⟩
    rcases mem_worklist_iff.mp (hc.mem_worklist hv) with ⟨p, hp, hentry⟩ | ⟨p, hp, hentry⟩
    · rw [← hentry] at hnode ⊢
      refine Or.inl ⟨Dict.find?_eq_some_iff.mpr ?_, htemplate⟩
      rw [← show p.2 = .object o from hnode]
      exact hp
    · rw [← hentry] at hnode ⊢
      cases hnode
      exact Or.inr ⟨mem_specializations_iff.mpr ⟨p, hp, rfl⟩, hc.escapedName p hp⟩

theorem declares_of_visit (hc : Consistent g h st) (hcomplete : Complete g h st) {v : Visit}
    (hv : v ∈ h) (hnode : v.entry.node = .object o) (ho : o.isTemplate = false)
    {p : String × VisibleField} (hp : p ∈ o.visibleFields.entries) {field : Field}
    (hprov : Resolution.Provides (lookup g st) o p.1 p.2 field) :
    st.result.Declares g v.entry.name field := by
  rw [← lookup_result hc] at hprov
  exact ⟨o, (shows_result_iff hc hcomplete).mpr ⟨v, hv, rfl, hnode, ho⟩, p, hp, hprov⟩

/-- **What is used is what has been requested.** -/
theorem uses_result_iff (hc : Consistent g h st) (hcomplete : Complete g h st) :
    st.result.Uses g r ↔ ∃ v ∈ h, ∃ q ∈ v.report.requests, q.reference = r := by
  constructor
  · rintro ⟨name, field, ⟨o, hshows, p, hp, hprov⟩, hty⟩
    obtain ⟨v, hv, -, hnode, ho⟩ := (shows_result_iff hc hcomplete).mp hshows
    have hreport := hc.reported v hv
    rw [hnode] at hreport
    rw [lookup_result hc] at hprov
    exact ⟨v, hv, (mem_requests_report_iff ho hreport).mpr ⟨p, hp, field, hprov, hty⟩⟩
  · rintro ⟨v, hv, q, hq, hr⟩
    have hreport := hc.reported v hv
    obtain ⟨o, hnode, ho⟩ := object_of_mem_requests hreport hq
    rw [hnode] at hreport
    obtain ⟨p, hp, field, hprov, hty⟩ := (mem_requests_report_iff ho hreport).mp ⟨q, hq, hr⟩
    exact ⟨_, field, declares_of_visit hc hcomplete hv hnode ho hp hprov, hty⟩

theorem granted_of_uses (hc : Consistent g h st) (hcomplete : Complete g h st)
    (hr : st.result.Uses g r) : Granted g st r := by
  obtain ⟨v, hv, q, hq, rfl⟩ := (uses_result_iff hc hcomplete).mp hr
  exact hc.granted v hv q hq

/-! ## The sides of an object -/

/-- Only an object that is no template has a side in a schema. -/
theorem objectReport_of_side {lookup : String → Option Node} {node : Node} {rep : Report}
    (hreport : report lookup name node = .ok rep)
    (hside : (∃ side, rep.input = some (.object side)) ∨ ∃ side, rep.output = some (.object side)) :
    ∃ o resolved reports, node = .object o ∧ o.isTemplate = false ∧
      Resolution.resolveAll lookup o o.visibleFields.entries = .ok (resolved, reports) ∧
        rep = objectReport name o resolved reports := by
  cases node with
  | object o =>
    cases ho : o.isTemplate with
    | true =>
      rw [report_template ho] at hreport
      cases hreport
      rcases hside with ⟨side, h⟩ | ⟨side, h⟩ <;> cases h
    | false =>
      obtain ⟨resolved, reports, hres, rfl⟩ := (report_object_ok_iff ho).mp hreport
      exact ⟨o, resolved, reports, rfl, ho, hres, rfl⟩
  | scalar s => cases hreport; rcases hside with ⟨side, h⟩ | ⟨side, h⟩ <;> cases h
  | enumeration e => cases hreport; rcases hside with ⟨side, h⟩ | ⟨side, h⟩ <;> cases h
  | union u => cases hreport; rcases hside with ⟨side, h⟩ | ⟨side, h⟩ <;> cases h
  | _ => cases hreport

/-- Every field of a side comes from a declaration of a visible field. -/
theorem declares_of_mem_arrange (hc : Consistent g h st) (hcomplete : Complete g h st) {v : Visit}
    (hv : v ∈ h) (hnode : v.entry.node = .object o) (ho : o.isTemplate = false)
    {resolved : List ResolvedField} {reports : List Diagnostic}
    (hres : Resolution.resolveAll (lookup g st) o o.visibleFields.entries =
      .ok (resolved, reports)) {f : ResolvedField} (hf : f ∈ FieldOrder.arrange o resolved) :
    st.result.Declares g v.entry.name f.field := by
  obtain ⟨p, hp, hone⟩ :=
    (Resolution.mem_resolveAll hres).mp ((FieldOrder.arrange_perm o resolved).mem_iff.mp hf)
  exact declares_of_visit hc hcomplete hv hnode ho hp (Resolution.provides_of_resolve hone)

end Normalize

end EntityGraph
