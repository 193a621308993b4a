import EntityGraph.Proofs.Sides

/-!
# What the schemas emit

Each schema holds what has something to show on its side, among the entries of the graph and behind
them the instantiations, in this order.

    (s.schema n).keys = Assoc.keys ((n.entries g).filter fun p => s.emits (n.lookup g) p.2)

No two entries go by one name, so nothing that has been emitted is overwritten later, and an entry
that shows nothing on a side, such as a template, has no namesake there.
-/

namespace EntityGraph

open Normalize

/-! ## Algorithm -/

/-- Whether a node has something to show on this side. -/
def Side.emits (s : Side) (lookup : String → Option Node) : Node → Bool
  | .scalar _ | .enumeration _ | .union _ => true
  | .object o => !o.isTemplate && o.visibleFields.entries.any fun p =>
      match Resolution.resolve lookup o p.1 p.2 with
      | .ok (.ok f) => s.declared f.field
      | _ => false
  | .list .. | .reference _ | .field _ => false

/-- What a schema holds under the name of a node. -/
inductive EmittedAs {F : Type} (name : String) : Node → SchemaNode F → Prop
  | scalar (value : Scalar) : EmittedAs name (.scalar value) (.scalar value)
  | enumeration (value : Enumeration) : EmittedAs name (.enumeration value) (.enumeration value)
  | union (value : Union) : EmittedAs name (.union value) (.union value)
  | object (o : Object) {fields : List F} : fields ≠ [] →
      EmittedAs name (.object o) (.object ⟨o.name, name, o.id, o.deprecated, o.doc, fields⟩)

/-- The schemas hold what has something to show, in order and each under its name. -/
structure Normalized.Emitted (g : Graph) (n : Normalized) : Prop where
  nodup : (Assoc.keys (n.entries g)).Nodup
  keys : ∀ s : Side, (s.schema n).keys =
    Assoc.keys ((n.entries g).filter fun p => s.emits (n.lookup g) p.2)
  nodes : ∀ (s : Side) (name : String) (x : SchemaNode s.SchemaField),
    (s.schema n).find? name = some x → ∃ node, (name, node) ∈ n.entries g ∧ EmittedAs name node x
  templates : ∀ (s : Side) (name : String) (o : Object), (name, .object o) ∈ n.entries g →
    o.isTemplate = true → (s.schema n).find? name = none

/-! ## Lemmas -/

namespace Side

variable {s : Side} {lookup : String → Option Node} {name : String} {node : Node} {rep : Report}

theorem emits_template {o : Object} (ho : o.isTemplate = true) :
    s.emits lookup (.object o) = false := by
  rw [emits, ho, Bool.not_true, Bool.false_and]

theorem emits_object_iff {o : Object} (ho : o.isTemplate = false) :
    s.emits lookup (.object o) = true ↔ ∃ p ∈ o.visibleFields.entries, ∃ f,
      Resolution.resolve lookup o p.1 p.2 = .ok (.ok f) ∧ s.declared f.field = true := by
  simp only [emits, ho, Bool.not_false, Bool.true_and, List.any_eq_true]
  refine exists_congr fun p => and_congr_right fun _ => ?_
  cases Resolution.resolve lookup o p.1 p.2 with
  | error err => simp
  | ok one => cases one <;> simp

/-- Something is left of the fields of an object if one of them has a variant on this side. -/
theorem filterMap_shown_ne_nil_iff {o : Object} {resolved : List ResolvedField}
    {reports : List Diagnostic} (hres : Resolution.resolveAll lookup o o.visibleFields.entries =
      .ok (resolved, reports)) : (FieldOrder.arrange o resolved).filterMap s.shown ≠ [] ↔
      ∃ p ∈ o.visibleFields.entries, ∃ f,
        Resolution.resolve lookup o p.1 p.2 = .ok (.ok f) ∧ s.declared f.field = true := by
  constructor
  · intro hne
    obtain ⟨e, he⟩ := List.exists_mem_of_ne_nil _ hne
    obtain ⟨f, hf, hshown⟩ := List.mem_filterMap.mp he
    obtain ⟨p, hp, hone⟩ :=
      (Resolution.mem_resolveAll hres).mp ((FieldOrder.arrange_perm o resolved).mem_iff.mp hf)
    exact ⟨p, hp, f, hone, by rw [← s.isSome_shown, hshown]; rfl⟩
  · rintro ⟨p, hp, f, hone, hdeclared⟩
    have hf := (Resolution.mem_resolveAll hres).mpr ⟨p, hp, hone⟩
    rw [← s.isSome_shown, Option.isSome_iff_exists] at hdeclared
    obtain ⟨e, he⟩ := hdeclared
    have hmem := (FieldOrder.arrange_perm o resolved).mem_iff.mpr hf
    exact List.ne_nil_of_mem (List.mem_filterMap.mpr ⟨f, hmem, he⟩)

/-- A visit adds to a schema if the node has something to show there. -/
theorem isSome_ofReport (hreport : report lookup name node = .ok rep) :
    (s.ofReport rep).isSome = s.emits lookup node := by
  cases node with
  | object o =>
    cases ho : o.isTemplate with
    | true =>
      rw [report_template ho] at hreport
      cases hreport
      rw [emits_template ho]
      cases s <;> rfl
    | false =>
      obtain ⟨resolved, reports, hres, rfl⟩ := (report_object_ok_iff ho).mp hreport
      rw [ofReport_objectReport, Option.isSome_map, Bool.eq_iff_iff, emits_object_iff ho,
        ← filterMap_shown_ne_nil_iff hres]
      simp [Option.isSome_iff_exists, side?_eq_some_iff]
  | scalar value => cases hreport; cases s <;> rfl
  | enumeration value => cases hreport; cases s <;> rfl
  | union value => cases hreport; cases s <;> rfl
  | _ => cases hreport

theorem emittedAs_of_ofReport {x : SchemaNode s.SchemaField}
    (hreport : report lookup name node = .ok rep) (hx : s.ofReport rep = some x) :
    EmittedAs name node x := by
  cases node with
  | object o =>
    cases ho : o.isTemplate with
    | true =>
      rw [report_template ho] at hreport
      cases hreport
      cases s <;> cases hx
    | false =>
      obtain ⟨resolved, reports, -, rfl⟩ := (report_object_ok_iff ho).mp hreport
      rw [ofReport_objectReport] at hx
      obtain ⟨side, hside, rfl⟩ := Option.map_eq_some_iff.mp hx
      obtain ⟨hne, rfl⟩ := side?_eq_some_iff.mp hside
      exact .object o hne
  | scalar value => cases hreport; cases s <;> (cases hx; exact .scalar value)
  | enumeration value => cases hreport; cases s <;> (cases hx; exact .enumeration value)
  | union value => cases hreport; cases s <;> (cases hx; exact .union value)
  | _ => cases hreport

end Side

/-- A name is in a schema only if its one entry has something to show there. -/
theorem Normalized.find?_schema_eq_none {g : Graph} {n : Normalized} {s : Side} {name : String}
    {node : Node} (hnodup : (Assoc.keys (n.entries g)).Nodup)
    (hkeys : (s.schema n).keys =
      Assoc.keys ((n.entries g).filter fun p => s.emits (n.lookup g) p.2))
    (hmem : (name, node) ∈ n.entries g) (hemits : s.emits (n.lookup g) node = false) :
    (s.schema n).find? name = none := by
  rw [Dict.find?_eq_none_iff, hkeys]
  intro hname
  obtain ⟨p, hp, rfl⟩ := List.mem_map.mp hname
  obtain ⟨hp, hemits'⟩ := List.mem_filter.mp hp
  have hsame : some p.2 = some node :=
    (Assoc.find?_of_mem hnodup hp).symm.trans (Assoc.find?_of_mem hnodup hmem)
  rw [Option.some.inj hsame, hemits] at hemits'
  cases hemits'

namespace Normalize

variable {g : Graph} {h : List Visit} {st : State} {name : String}

/-- A complete run has visited the entries in order, and emitted each when it came to it. -/
theorem keys_schema_result (hc : Consistent g h st) (hcomplete : Complete g h st) (s : Side) :
    (s.schema st.result).keys =
      Assoc.keys ((st.result.entries g).filter fun p => s.emits (st.result.lookup g) p.2) := by
  have hentries : List.Forall₂ (fun p q => p.1 = q.1) (s.schema st.result).entries
      ((st.result.entries g).filter fun p => s.emits (st.result.lookup g) p.2) := by
    rw [entries_result hc, ← hcomplete, Side.entries_schema hc, lookup_result hc, List.map_map,
      List.filter_map, List.forall₂_map_right_iff]
    refine (forall₂_filter_filterMap (fun v hv => ?_) fun v _ q hq => ?_).flip
    · rw [Option.isSome_map, Side.isSome_ofReport (hc.reported v hv)]
      rfl
    · obtain ⟨x, -, rfl⟩ := Option.map_eq_some_iff.mp hq
      rfl
  rw [Dict.keys, Assoc.keys, Assoc.keys, ← List.forall₂_eq_eq_eq, List.forall₂_map_left_iff,
    List.forall₂_map_right_iff]
  exact hentries

theorem nodes_result (hc : Consistent g h st) (s : Side) {x : SchemaNode s.SchemaField}
    (hx : (s.schema st.result).find? name = some x) :
    ∃ node, (name, node) ∈ st.result.entries g ∧ EmittedAs name node x := by
  obtain ⟨v, hv, rfl, hreport⟩ := (Side.find?_schema_iff hc).mp hx
  refine ⟨v.entry.node, ?_, Side.emittedAs_of_ofReport (hc.reported v hv) hreport⟩
  rw [entries_result hc]
  exact List.mem_map_of_mem (hc.mem_worklist hv)

theorem emitted_result (hc : Consistent g h st) (hcomplete : Complete g h st) :
    st.result.Emitted g :=
  { nodup := nodup_entries_result hc
    keys := keys_schema_result hc hcomplete
    nodes := fun s _ _ hx => nodes_result hc s hx
    templates := fun s _ _ hmem ho => Normalized.find?_schema_eq_none (nodup_entries_result hc)
      (keys_schema_result hc hcomplete s) hmem (Side.emits_template ho) }

end Normalize

/-- **What is emitted.**  A normalization that succeeds leads to schemas that hold exactly what has
something to show on their side, in the order of the entries and under names of their own. -/
theorem Graph.normalize_emitted {g : Graph} {n : Normalized} (hn : g.normalize = .ok n) :
    n.Emitted g := by
  obtain ⟨h, st, hrun, hcomplete, rfl⟩ := Graph.normalize_ok hn
  exact emitted_result hrun.consistent hcomplete

theorem Graph.normalize_emitted_pages : ∃ n, pages.normalize = .ok n ∧
    n.input.keys = ["Item", "User", "Book_Item", "Page_Item"] ∧ n.Emitted pages :=
  ⟨_, rfl, by decide, normalize_emitted rfl⟩

end EntityGraph
