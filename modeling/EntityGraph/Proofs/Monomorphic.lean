import EntityGraph.Proofs.Generations
import EntityGraph.Proofs.Retyping

/-!
# Graphs without templates in use

A graph together with its instantiations needs no templates any more: every reference with
arguments can be written as a reference to the instantiation that it stands for.  Normalizing what
comes of that makes no instantiations and gives the same schemas (`normalize_monomorphic`).

    report (retyped concrete lookup) name (node.mapTypes concrete)
      = (report lookup name node).map fun r => { r with requests := [] }      (report_concrete)

So a run of the second graph goes through the visits of the complete run of the first, one by one
and without their requests (`visits_monomorphic`).
-/

namespace EntityGraph

open Normalize

/-! ## Algorithm -/

/-- The entries of a graph and its instantiations, with all types in their concrete form. -/
def Graph.monomorphic (g : Graph) (n : Normalized) : List (String × Node) :=
  (g.entities.entries.map fun p => (p.1, p.2.mapTypes FieldType.concrete)) ++
    n.specializations.map fun o => (o.escapedName, .object (o.mapTypes FieldType.concrete))

/-- The visit of the same entry in the concrete form. -/
def Normalize.Visit.concrete (v : Visit) : Visit :=
  ⟨graphEntry (v.entry.name, v.entry.node.mapTypes FieldType.concrete),
    { v.report with requests := [] }⟩

/-! ## Concrete types -/

namespace FieldType

theorem args_terminal_concrete (ty : FieldType) : ty.concrete.terminal.args = none := by
  rw [concrete]
  cases h : ty.terminal.args with
  | none => exact h
  | some args =>
    simp only [terminal_onTerminal]
    rfl

theorem concrete_of_no_args {ty : FieldType} (h : ty.terminal.args = none) : ty.concrete = ty := by
  rw [concrete]
  simp only [h]

theorem concrete_concrete (ty : FieldType) : ty.concrete.concrete = ty.concrete :=
  concrete_of_no_args ty.args_terminal_concrete

end FieldType

namespace ResolvedField

variable (f : ResolvedField)

theorem inputField?_concrete : (f.mapTypes FieldType.concrete).inputField? = f.inputField? := by
  obtain ⟨key, field, required, ancestor⟩ := f
  simp only [inputField?, mapTypes, Field.mapTypes, Option.map_map, Function.comp_def,
    FieldType.concrete_concrete]
  rfl

theorem outputField?_concrete : (f.mapTypes FieldType.concrete).outputField? = f.outputField? := by
  obtain ⟨key, field, required, ancestor⟩ := f
  simp only [outputField?, mapTypes, Field.mapTypes, Option.map_map, Function.comp_def,
    FieldType.concrete_concrete]
  rfl

end ResolvedField

namespace Normalize

theorem requests_concrete (o : Object) (f : ResolvedField) :
    requests o (f.mapTypes FieldType.concrete) = [] := by
  have hnone : (f.field.types.map FieldType.concrete).filterMap FieldType.applied? = [] := by
    rw [List.filterMap_map, List.filterMap_eq_nil_iff]
    intro ty _
    rw [Function.comp_apply, FieldType.applied?, ty.args_terminal_concrete]
    rfl
  have hmap := map_reference_requests o (f.mapTypes FieldType.concrete)
  rw [ResolvedField.mapTypes, Field.types_mapTypes, hnone] at hmap
  exact List.map_eq_nil_iff.mp hmap

theorem objectReport_concrete (name : String) (o : Object) (resolved : List ResolvedField)
    (reports : List Diagnostic) :
    objectReport name (o.mapTypes FieldType.concrete)
      (resolved.map (ResolvedField.mapTypes FieldType.concrete)) reports =
      { objectReport name o resolved reports with requests := [] } := by
  have hrequests : ((FieldOrder.arrange o resolved).map
      (ResolvedField.mapTypes FieldType.concrete)).flatMap
      (requests (o.mapTypes FieldType.concrete)) = [] := by
    rw [List.flatMap_eq_nil_iff]
    intro f hf
    obtain ⟨f', -, rfl⟩ := List.mem_map.mp hf
    exact requests_concrete _ f'
  rw [objectReport, objectReport, FieldOrder.arrange_mapTypes]
  simp only [hrequests, List.filterMap_map, Function.comp_def,
    ResolvedField.inputField?_concrete, ResolvedField.outputField?_concrete]
  rfl

/-- Concrete types change nothing of a report but that nothing is requested. -/
theorem report_concrete (lookup : String → Option Node) (name : String) (node : Node) :
    report (retyped FieldType.concrete lookup) name (node.mapTypes FieldType.concrete) =
      (report lookup name node).map fun r => { r with requests := [] } := by
  cases node with
  | object o =>
    have htemplate : (o.mapTypes FieldType.concrete).isTemplate = o.isTemplate := rfl
    have hvisible : (o.mapTypes FieldType.concrete).visibleFields = o.visibleFields := rfl
    rw [Node.mapTypes, report, report, htemplate, hvisible, Resolution.resolveAll_mapTypes]
    split
    · rfl
    · cases Resolution.resolveAll lookup o o.visibleFields.entries with
      | error err => rfl
      | ok x => exact congrArg Except.ok (objectReport_concrete name o x.1 x.2)
  | _ => rfl

/-! ## The two runs -/

variable {g : Graph} {h h' : List Visit} {st st' : State}

/-- The instantiations stand in the graph under the names that they were made under. -/
theorem monomorphic_result (hc : Consistent g h st) : g.monomorphic st.result =
    (g.entities.entries.map fun p => (p.1, p.2.mapTypes FieldType.concrete)) ++
      st.instances.entries.map fun p =>
        (p.1, .object (p.2.object.mapTypes FieldType.concrete)) := by
  rw [Graph.monomorphic, State.result, Dict.values, List.map_map, List.map_map]
  congr 1
  refine List.map_congr_left fun p hp => ?_
  simp only [Function.comp_apply, hc.escapedName p hp]

theorem monomorphic_eq_worklist (hc : Consistent g h st) : g.monomorphic st.result =
    (worklist g st).map fun e => (e.name, e.node.mapTypes FieldType.concrete) := by
  rw [monomorphic_result hc, worklist, List.map_append, List.map_map, List.map_map]
  rfl

theorem nodup_monomorphic (hc : Consistent g h st) :
    (Assoc.keys (g.monomorphic st.result)).Nodup := by
  rw [monomorphic_eq_worklist hc, Assoc.keys, List.map_map]
  exact nodup_names_worklist hc.free

section

variable {m : Graph} (hc : Consistent g h st) (hm : m.entities.entries = g.monomorphic st.result)

include hc hm

theorem find?_monomorphic (name : String) :
    m.find? name = (lookup g st name).map (Node.mapTypes FieldType.concrete) := by
  have hgraph : Assoc.find? name (g.entities.entries.map fun p =>
      (p.1, p.2.mapTypes FieldType.concrete)) =
      (g.find? name).map (Node.mapTypes FieldType.concrete) :=
    Assoc.find?_map_snd (fun _ => Node.mapTypes FieldType.concrete) name _
  have hinstances : Assoc.find? name (st.instances.entries.map fun p =>
      (p.1, Node.object (p.2.object.mapTypes FieldType.concrete))) =
      (st.instances.find? name).map fun i => .object (i.object.mapTypes FieldType.concrete) :=
    Assoc.find?_map_snd (fun _ (i : Instance) =>
      Node.object (i.object.mapTypes FieldType.concrete)) name _
  rw [Graph.find?, Dict.find?, hm, monomorphic_result hc, Assoc.find?_append, hgraph, hinstances,
    lookup]
  cases g.find? name with
  | some node => rfl
  | none => cases st.instances.find? name <;> rfl

variable (hnone : st'.instances = .empty)

include hnone

theorem lookup_monomorphic : lookup m st' = retyped FieldType.concrete (lookup g st) := by
  funext name
  rw [lookup, find?_monomorphic hc hm, retyped]
  cases lookup g st name with
  | none => rw [hnone]; rfl
  | some node => rfl

theorem worklist_monomorphic (hcomplete : Complete g h st) :
    worklist m st' = (h.map Visit.concrete).map (·.entry) := by
  rw [worklist, hm, monomorphic_eq_worklist hc, hnone, ← hcomplete]
  simp only [List.map_map]
  exact List.append_nil _

/-- The visit of an entry in the concrete form succeeds and grants nothing. -/
theorem report_monomorphic {v : Visit} (hv : v ∈ h) :
    report (lookup m st') v.concrete.entry.name v.concrete.entry.node = .ok v.concrete.report := by
  have hreport := hc.reported v hv
  rw [lookup_monomorphic hc hm hnone]
  simp only [Visit.concrete, graphEntry, report_concrete, hreport]
  rfl

end

section

variable {m : Graph} (hrun : Run g h st) (hcomplete : Complete g h st)
  (hm : m.entities.entries = g.monomorphic st.result)

include hrun hcomplete hm

/-- A run of the second graph follows the run of the first. -/
theorem visits_monomorphic (hrun' : Run m h' st') :
    h' <+: h.map Visit.concrete ∧ st'.instances = .empty := by
  have hc := hrun.consistent
  induction hrun' with
  | start => exact ⟨List.nil_prefix, rfl⟩
  | @visit h' st' st'' e r _ he hr hgrant ih =>
    obtain ⟨hpre, hnone⟩ := ih
    rw [worklist_monomorphic hc hm hnone hcomplete, List.getElem?_map] at he
    obtain ⟨w, hw, rfl⟩ := Option.map_eq_some_iff.mp he
    obtain ⟨v, hv, rfl⟩ := List.mem_map.mp (List.mem_of_getElem? hw)
    rw [report_monomorphic hc hm hnone hv] at hr
    cases hr
    cases hgrant
    exact ⟨prefix_concat hpre hw, hnone⟩

theorem not_stuck_monomorphic (err : GraphError) : ¬ Stuck m err := by
  rintro ⟨h', st', e, hrun', he, hvisit⟩
  have hc := hrun.consistent
  obtain ⟨hpre, hnone⟩ := visits_monomorphic hrun hcomplete hm hrun'
  rw [worklist_monomorphic hc hm hnone hcomplete, List.getElem?_map] at he
  obtain ⟨w, hw, rfl⟩ := Option.map_eq_some_iff.mp he
  obtain ⟨v, hv, rfl⟩ := List.mem_map.mp (List.mem_of_getElem? hw)
  have hok : visit m v.concrete.entry.depth st' v.concrete.entry.name v.concrete.entry.node =
      .ok (st'.add v.concrete.entry.name v.concrete.report) :=
    visit_ok_iff.mpr ⟨_, st', report_monomorphic hc hm hnone hv, rfl, rfl⟩
  rw [hvisit] at hok
  cases hok

theorem result_monomorphic (hrun' : Run m h' st') (hcomplete' : Complete m h' st') :
    st'.result = ⟨st.input, st.output, [], st.diagnostics⟩ := by
  have hc := hrun.consistent
  have hc' := hrun'.consistent
  obtain ⟨hpre, hnone⟩ := visits_monomorphic hrun hcomplete hm hrun'
  have hlength : h'.length = (h.map Visit.concrete).length := by
    have heq := congrArg List.length hcomplete'
    rwa [worklist_monomorphic hc hm hnone hcomplete, List.length_map, List.length_map] at heq
  have hvisits := hpre.eq_of_length hlength
  have hinput : st'.input = st.input := by
    apply Dict.ext
    rw [hc'.input, hc.input, hvisits, List.filterMap_map]
    rfl
  have houtput : st'.output = st.output := by
    apply Dict.ext
    rw [hc'.output, hc.output, hvisits, List.filterMap_map]
    rfl
  have hdiagnostics : st'.diagnostics = st.diagnostics := by
    rw [hc'.diagnostics, hc.diagnostics, hvisits, List.flatMap_map]
    rfl
  rw [State.result, hinput, houtput, hdiagnostics, hnone]
  rfl

end

end Normalize

/-- **Monomorphization.**  A graph that can be normalized has the same schemas and diagnostics as
the graph that holds its instantiations as entries of their own and no references with arguments,
and nothing is instantiated from the latter. -/
theorem Graph.normalize_monomorphic {g : Graph} {n : Normalized} (hn : g.normalize = .ok n) :
    ∃ hnodup : (Assoc.keys (g.monomorphic n)).Nodup,
      Graph.normalize ⟨⟨g.monomorphic n, hnodup⟩⟩ =
        .ok ⟨n.input, n.output, [], n.diagnostics⟩ := by
  obtain ⟨h, st, hrun, hcomplete, rfl⟩ := Graph.normalize_ok hn
  refine ⟨nodup_monomorphic hrun.consistent, ?_⟩
  generalize hm : Graph.mk ⟨g.monomorphic st.result, nodup_monomorphic hrun.consistent⟩ = m
  have hentries : m.entities.entries = g.monomorphic st.result := by rw [← hm]
  cases hn' : m.normalize with
  | error err =>
    exact absurd (Graph.normalize_error hn') (not_stuck_monomorphic hrun hcomplete hentries err)
  | ok n' =>
    obtain ⟨h', st', hrun', hcomplete', rfl⟩ := Graph.normalize_ok hn'
    rw [result_monomorphic hrun hcomplete hentries hrun' hcomplete']
    rfl

theorem Graph.normalize_monomorphic_pages : ∃ n, pages.normalize = .ok n ∧
    ∃ hnodup : (Assoc.keys (pages.monomorphic n)).Nodup,
      Graph.normalize ⟨⟨pages.monomorphic n, hnodup⟩⟩ =
        .ok ⟨n.input, n.output, [], n.diagnostics⟩ :=
  ⟨_, rfl, normalize_monomorphic rfl⟩

end EntityGraph
