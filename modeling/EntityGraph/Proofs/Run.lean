import EntityGraph.Proofs.Grant

/-!
# Runs of normalization

Normalization works off one list: the entries of the graph, and behind them the instantiations
in the order in which they are made.  A run is a history of visits to the front of that list.

    worklist g st = visited ++ waiting

Nothing that has been found out is lost on the way (`Consistent`): the report of a visit stays
what it was, its requests stay granted, the list stays sorted by depth, and the schemas are what
the reports say.

A run that has visited the whole list is complete, and one that comes to an entry that it cannot
visit is stuck.
-/

namespace EntityGraph

namespace Normalize

/-! ## Algorithm -/

/-- An entry of the list that normalization works off. -/
structure Entry where
  name : String
  node : Node
  /-- The number of requests between the entry and the graph. -/
  depth : Nat

def graphEntry (p : String × Node) : Entry := ⟨p.1, p.2, 0⟩

def instanceEntry (p : String × Instance) : Entry := ⟨p.1, .object p.2.object, p.2.depth⟩

def worklist (g : Graph) (st : State) : List Entry :=
  g.entities.entries.map graphEntry ++ st.instances.entries.map instanceEntry

/-- A visit that succeeded, with what it came to. -/
structure Visit where
  entry : Entry
  report : Report

/-- The states that a run goes through, with the visits that lead there. -/
inductive Run (g : Graph) : List Visit → State → Prop
  | start : Run g [] .empty
  | visit {h : List Visit} {st st' : State} {e : Entry} {r : Report} : Run g h st →
      (worklist g st)[h.length]? = some e → report (lookup g st) e.name e.node = .ok r →
      grantAll g e.depth st r.requests = .ok st' → Run g (h ++ [⟨e, r⟩]) (st'.add e.name r)

/-- The whole list has been visited. -/
def Complete (g : Graph) (h : List Visit) (st : State) : Prop :=
  h.map (·.entry) = worklist g st

/-- A run comes to an entry that it cannot visit. -/
def Stuck (g : Graph) (err : GraphError) : Prop :=
  ∃ h st e, Run g h st ∧ (worklist g st)[h.length]? = some e ∧
    Normalize.visit g e.depth st e.name e.node = .error err

/-- What is known about a state after the visits that lead there. -/
structure Consistent (g : Graph) (h : List Visit) (st : State) : Prop where
  visited : h.map (·.entry) <+: worklist g st
  sorted : (worklist g st).Pairwise (·.depth ≤ ·.depth)
  /-- Nothing is more than one request further away than the next entry. -/
  near : ∀ next, (worklist g st)[h.length]? = some next →
    ∀ e ∈ worklist g st, e.depth ≤ next.depth + 1
  noTemplates : NoTemplates st
  /-- Every instantiation was made for a request of a visit. -/
  made : ∀ p ∈ st.instances.entries, ∃ v ∈ h, ∃ q ∈ v.report.requests,
    Makes g v.entry.depth q.reference p
  reported : ∀ v ∈ h, report (lookup g st) v.entry.name v.entry.node = .ok v.report
  granted : ∀ v ∈ h, ∀ q ∈ v.report.requests, Granted g st q.reference
  /-- What a visit requests is not further away than one request from it. -/
  prompt : ∀ v ∈ h, ∀ q ∈ v.report.requests, ∀ i,
    st.instances.find? q.reference.escapedName = some i → i.depth ≤ v.entry.depth + 1
  input : st.input.entries = h.filterMap fun v => v.report.input.map (v.entry.name, ·)
  output : st.output.entries = h.filterMap fun v => v.report.output.map (v.entry.name, ·)
  diagnostics : st.diagnostics = h.flatMap (·.report.diagnostics)

/-! ## The list -/

variable {g : Graph} {h : List Visit} {st st' : State} {e : Entry} {r : Report}

theorem mem_worklist_iff : e ∈ worklist g st ↔
    (∃ p ∈ g.entities.entries, graphEntry p = e) ∨
      ∃ p ∈ st.instances.entries, instanceEntry p = e := by
  rw [worklist, List.mem_append, List.mem_map, List.mem_map]

theorem mem_worklist_of_graph {p : String × Node} (hp : p ∈ g.entities.entries) :
    graphEntry p ∈ worklist g st :=
  mem_worklist_iff.mpr (Or.inl ⟨p, hp, rfl⟩)

theorem mem_worklist_of_instances {p : String × Instance} (hp : p ∈ st.instances.entries) :
    instanceEntry p ∈ worklist g st :=
  mem_worklist_iff.mpr (Or.inr ⟨p, hp, rfl⟩)

theorem Complete.exists_visit (hcomplete : Complete g h st) (he : e ∈ worklist g st) :
    ∃ v ∈ h, v.entry = e := by
  rw [← hcomplete] at he
  exact List.mem_map.mp he

theorem mem_worklist_of_find? {name : String} {i : Instance}
    (hi : st.instances.find? name = some i) : instanceEntry (name, i) ∈ worklist g st :=
  mem_worklist_of_instances (Dict.find?_eq_some_iff.mp hi)

theorem nodup_names_worklist (hfree : ∀ p ∈ st.instances.entries, g.contains p.1 = false) :
    ((worklist g st).map (·.name)).Nodup := by
  have hnames : (worklist g st).map (·.name) = g.entities.keys ++ st.instances.keys := by
    simp only [worklist, List.map_append, List.map_map]
    rfl
  rw [hnames, List.nodup_append]
  refine ⟨g.entities.nodup, st.instances.nodup, fun a ha b hb hab => ?_⟩
  obtain ⟨p, hp, rfl⟩ := List.mem_map.mp hb
  exact Dict.contains_eq_false_iff.mp (hfree p hp) (hab ▸ ha)

theorem Grows.worklist {depth : Nat} {qs : List Request} (hgrows : Grows g depth qs st st') :
    ∃ new, worklist g st' = Normalize.worklist g st ++ new ∧ ∀ e ∈ new, e.depth = depth + 1 := by
  obtain ⟨new, he, hnew⟩ := hgrows.instances
  refine ⟨new.map instanceEntry, by simp [Normalize.worklist, he], fun e hmem => ?_⟩
  obtain ⟨p, hp, rfl⟩ := List.mem_map.mp hmem
  obtain ⟨q, -, hmade⟩ := hnew p hp
  exact hmade.depth_eq

/-! ## One visit -/

theorem prefix_concat {α : Type} {l m : List α} {x : α} (hl : l <+: m)
    (hx : m[l.length]? = some x) : l ++ [x] <+: m := by
  obtain ⟨rest, rfl⟩ := hl
  rw [List.getElem?_append_right (Nat.le_refl _), Nat.sub_self] at hx
  obtain ⟨tail, rfl⟩ : ∃ tail, rest = x :: tail := by
    cases rest with
    | nil => cases hx
    | cons y tail => exact ⟨tail, by cases hx; rfl⟩
  exact ⟨tail, by simp⟩

/-- A new name comes last in a dictionary of what the visits came to. -/
theorem entries_insert?_of_visits {α : Type} {d : Dict α} {φ : Visit → Option α} {w : Visit}
    (hd : d.entries = h.filterMap fun v => (φ v).map (v.entry.name, ·))
    (hfresh : ∀ v ∈ h, v.entry.name ≠ w.entry.name) :
    (d.insert? w.entry.name (φ w)).entries =
      (h ++ [w]).filterMap fun v => (φ v).map (v.entry.name, ·) := by
  rw [List.filterMap_append, ← hd]
  cases hw : φ w with
  | none => simp [Dict.insert?, hw]
  | some x =>
    have hkey : w.entry.name ∉ d.keys := by
      intro hmem
      obtain ⟨p, hp, hname⟩ := List.mem_map.mp hmem
      rw [hd] at hp
      obtain ⟨v, hv, hvp⟩ := List.mem_filterMap.mp hp
      obtain ⟨y, -, rfl⟩ := Option.map_eq_some_iff.mp hvp
      exact hfresh v hv hname
    simp [Dict.insert?, hw, Dict.entries_insert_of_not_mem x hkey]

namespace Consistent

theorem free (hc : Consistent g h st) : ∀ p ∈ st.instances.entries, g.contains p.1 = false := by
  intro p hp
  obtain ⟨v, -, q, -, hmade⟩ := hc.made p hp
  exact hmade.free

/-- An instantiation is registered under its name. -/
theorem escapedName (hc : Consistent g h st) :
    ∀ p ∈ st.instances.entries, p.2.object.escapedName = p.1 := by
  intro p hp
  obtain ⟨v, -, q, -, hmade⟩ := hc.made p hp
  obtain ⟨t, -, ho⟩ := hmade.made
  rw [(Object.instantiate_ok_iff.mp ho).2]
  rfl

theorem mem_worklist (hc : Consistent g h st) {v : Visit} (hv : v ∈ h) :
    v.entry ∈ worklist g st :=
  hc.visited.subset (List.mem_map_of_mem hv)

theorem start : Consistent g [] .empty := by
  have hzero : ∀ e ∈ worklist g .empty, e.depth = 0 := by
    intro e he
    rcases mem_worklist_iff.mp he with ⟨p, -, rfl⟩ | ⟨p, hp, -⟩
    · rfl
    · cases hp
  refine
    { visited := List.nil_prefix
      sorted := List.pairwise_of_forall_mem_list fun e he _ _ => ?_
      near := fun next _ e he => by rw [hzero e he]; exact Nat.zero_le _
      noTemplates := fun p hp => nomatch hp
      made := fun p hp => nomatch hp
      reported := by simp
      granted := by simp
      prompt := by simp
      input := rfl
      output := rfl
      diagnostics := rfl }
  rw [hzero e he]
  exact Nat.zero_le _

/-- No entry is visited twice. -/
theorem fresh (hc : Consistent g h st) (he : (worklist g st)[h.length]? = some e) :
    ∀ v ∈ h, v.entry.name ≠ e.name := by
  intro v hv heq
  have hpre : h.map (·.entry) ++ [e] <+: worklist g st :=
    prefix_concat hc.visited (by rwa [List.length_map])
  have hnodup := (hpre.sublist.map (·.name)).nodup (nodup_names_worklist hc.free)
  rw [List.map_append, List.nodup_append] at hnodup
  exact hnodup.2.2 v.entry.name (List.mem_map_of_mem (List.mem_map_of_mem hv)) e.name
    (by simp) heq

section

variable (hc : Consistent g h st) (hgrows : Grows g e.depth r.requests st st')

include hc hgrows

theorem made_of_grows : ∀ p ∈ st'.instances.entries, ∃ v ∈ h ++ [⟨e, r⟩],
    ∃ q ∈ v.report.requests, Makes g v.entry.depth q.reference p := by
  obtain ⟨new, hnew, hmade⟩ := hgrows.instances
  intro p hp
  rw [hnew] at hp
  rcases List.mem_append.mp hp with hp | hp
  · obtain ⟨v, hv, hq⟩ := hc.made p hp
    exact ⟨v, List.mem_append_left _ hv, hq⟩
  · exact ⟨⟨e, r⟩, by simp, hmade p hp⟩

theorem granted_of_grows : ∀ v ∈ h ++ [⟨e, r⟩], ∀ q ∈ v.report.requests,
    Granted g st' q.reference := by
  obtain ⟨new, hnew, -⟩ := hgrows.instances
  intro v hv q hq
  rcases List.mem_append.mp hv with hv | hv
  · exact (hc.granted v hv q hq).mono hnew
  · cases List.mem_singleton.mp hv
    exact hgrows.granted q hq

variable (he : (worklist g st)[h.length]? = some e)

include he

/-- A visit makes nothing that is more than one request away from it. -/
theorem depth_le_of_grows : ∀ x ∈ worklist g st', x.depth ≤ e.depth + 1 := by
  obtain ⟨new, hnew, hdepth⟩ := hgrows.worklist
  intro x hx
  rw [hnew] at hx
  rcases List.mem_append.mp hx with hx | hx
  · exact hc.near e he x hx
  · exact Nat.le_of_eq (hdepth x hx)

theorem sorted_of_grows : (worklist g st').Pairwise (·.depth ≤ ·.depth) := by
  obtain ⟨new, hnew, hdepth⟩ := hgrows.worklist
  rw [hnew, List.pairwise_append]
  refine ⟨hc.sorted, List.pairwise_of_forall_mem_list fun x hx y hy => ?_, fun x hx y hy => ?_⟩
  · exact Nat.le_of_eq ((hdepth x hx).trans (hdepth y hy).symm)
  · rw [hdepth y hy]
    exact hc.near e he x hx

theorem near_of_grows : ∀ next, (worklist g st')[h.length + 1]? = some next →
    ∀ x ∈ worklist g st', x.depth ≤ next.depth + 1 := by
  intro next hnext x hx
  have hsorted := hc.sorted_of_grows hgrows he
  obtain ⟨new, hnew, -⟩ := hgrows.worklist
  have he' : (worklist g st')[h.length]? = some e := by
    obtain ⟨hlt, -⟩ := List.getElem?_eq_some_iff.mp he
    rw [hnew, List.getElem?_append_left hlt, he]
  obtain ⟨hlt, rfl⟩ := List.getElem?_eq_some_iff.mp he'
  obtain ⟨hlt', rfl⟩ := List.getElem?_eq_some_iff.mp hnext
  have hle := List.pairwise_iff_getElem.mp hsorted _ _ hlt hlt' (Nat.lt_succ_self _)
  exact Nat.le_trans (hc.depth_le_of_grows hgrows he x hx) (Nat.succ_le_succ hle)

theorem prompt_of_grows : ∀ v ∈ h ++ [⟨e, r⟩], ∀ q ∈ v.report.requests, ∀ i,
    st'.instances.find? q.reference.escapedName = some i → i.depth ≤ v.entry.depth + 1 := by
  obtain ⟨new, hnew, -⟩ := hgrows.instances
  intro v hv q hq i hi
  rcases List.mem_append.mp hv with hv | hv
  · -- what was on record for an earlier visit still is
    obtain ⟨-, i', hi', -⟩ := hc.granted v hv q hq
    have hmem : (q.reference.escapedName, i') ∈ st'.instances.entries :=
      hnew ▸ List.mem_append_left _ (Dict.find?_eq_some_iff.mp hi')
    rw [Dict.find?_eq_some_iff.mpr hmem] at hi
    cases hi
    exact hc.prompt v hv q hq i hi'
  · cases List.mem_singleton.mp hv
    exact hc.depth_le_of_grows hgrows he _ (mem_worklist_of_find? hi)

end

/-- **A visit keeps everything that is known.** -/
theorem visit (hc : Consistent g h st) (he : (worklist g st)[h.length]? = some e)
    (hr : report (lookup g st) e.name e.node = .ok r)
    (hgrant : grantAll g e.depth st r.requests = .ok st') :
    Consistent g (h ++ [⟨e, r⟩]) (st'.add e.name r) := by
  have hgrows := grantAll_grows hc.noTemplates hgrant
  obtain ⟨new, hnew, -⟩ := hgrows.instances
  have hext : Resolution.Extends (lookup g st) (lookup g st') := extends_of_append hnew
  have hsorted := hc.sorted_of_grows hgrows he
  have hnear := hc.near_of_grows hgrows he
  have hnone := hgrows.noTemplates hc.noTemplates
  have hmade := hc.made_of_grows hgrows
  have hgranted := hc.granted_of_grows hgrows
  have hprompt := hc.prompt_of_grows hgrows he
  refine
    { visited := ?_
      sorted := hsorted
      near := by rwa [List.length_append, List.length_singleton]
      noTemplates := hnone
      made := hmade
      reported := fun v hv => ?_
      granted := hgranted
      prompt := hprompt
      input := ?_
      output := ?_
      diagnostics := ?_ }
  · obtain ⟨new, hnew, -⟩ := hgrows.worklist
    rw [List.map_append]
    refine (prefix_concat hc.visited (by rwa [List.length_map])).trans ?_
    exact ⟨new, hnew.symm⟩
  · rcases List.mem_append.mp hv with hv | hv
    · exact report_mono hext (hc.reported v hv)
    · cases List.mem_singleton.mp hv
      exact report_mono hext hr
  · rw [State.add, hgrows.input]
    exact entries_insert?_of_visits (w := ⟨e, r⟩) hc.input (hc.fresh he)
  · rw [State.add, hgrows.output]
    exact entries_insert?_of_visits (w := ⟨e, r⟩) hc.output (hc.fresh he)
  · simp [State.add, hgrows.diagnostics, hc.diagnostics]

end Consistent

theorem Run.consistent (hrun : Run g h st) : Consistent g h st := by
  induction hrun with
  | start => exact Consistent.start
  | visit _ he hr hgrant ih => exact ih.visit he hr hgrant

end Normalize

end EntityGraph
