import EntityGraph.Proofs.CompleteRun
import EntityGraph.Proofs.Sides
import Mathlib.Data.List.InsertIdx

/-!
# Entries that nothing uses

A scalar, an enumeration, a union or a template that is added to a graph changes nothing but that it
is there itself, unless its name is taken:

    (g.insertAt i name node hname).normalize = .ok n'                           (normalize_insertAt)

with the instantiations and diagnostics of `g`, and with the schemas of `g` where what the node
shows stands behind what the first `i` entries show.  It does not matter whether the name occurs in
`g`: as long as nothing goes by the name, whatever comes to look it up fails.

The run of the new graph does what the run of the old one does, and visits the new entry in between
(`Run.insertAt`).  That visit asks for nothing, so what has been instantiated is the same at each
step, and every name that stands for something stands for the same in both (`extends_insertAt`).
-/

namespace EntityGraph

open Normalize

/-! ## Algorithm -/

/-- What a node shows by itself; a template shows nothing. -/
def Node.own? {F : Type} : Node → Option (SchemaNode F)
  | .scalar s => some (.scalar s)
  | .enumeration e => some (.enumeration e)
  | .union u => some (.union u)
  | _ => none

/-- What the node shows depends on nothing else. -/
def Node.Alone : Node → Prop
  | .scalar _ | .enumeration _ | .union _ => True
  | .object o => o.isTemplate = true
  | .list .. | .reference _ | .field _ => False

/-- The graph with one more entry, so that there are `i` entries in front of it. -/
def Graph.insertAt (g : Graph) (i : Nat) (name : String) (node : Node)
    (hname : g.contains name = false) : Graph :=
  ⟨⟨g.entities.entries.insertIdx i (name, node), by
    have hkeys : Assoc.keys (g.entities.entries.insertIdx i (name, node)) =
        g.entities.keys.insertIdx i name := List.map_insertIdx ..
    rw [hkeys]
    rcases Nat.lt_or_ge g.entities.keys.length i with hlt | hle
    · rw [List.insertIdx_of_length_lt hlt]
      exact g.entities.nodup
    · rw [(List.perm_insertIdx _ _ hle).nodup_iff, List.nodup_cons]
      exact ⟨Dict.contains_eq_false_iff.mp hname, g.entities.nodup⟩⟩⟩

/-- `d'` is `d` with `x` under the name, if there is any `x`, behind the names in `front`. -/
def Dict.AddedBehind {α : Type} (front : List String) (name : String) (x : Option α)
    (d d' : Dict α) : Prop :=
  ∃ before after, d.entries = before ++ after ∧
    d'.entries = before ++ (x.map (name, ·)).toList ++ after ∧
    (∀ p ∈ before, p.1 ∈ front) ∧ ∀ p ∈ after, p.1 ∉ front

namespace Normalize

/-- Nothing is instantiated under the name. -/
def State.Lacks (st : State) (name : String) : Prop := ∀ p ∈ st.instances.entries, p.1 ≠ name

/-- The visit of a node that depends on nothing else. -/
def aloneVisit (name : String) (node : Node) : Visit :=
  ⟨graphEntry (name, node), ⟨[], node.own?, node.own?, []⟩⟩

end Normalize

/-! ## Lemmas -/

theorem insertIdx_append_of_le {α : Type} {l m : List α} {i : Nat} (x : α)
    (hi : i ≤ l.length) : (l ++ m).insertIdx i x = l.insertIdx i x ++ m := by
  induction l generalizing i with
  | nil =>
    cases Nat.le_zero.mp hi
    rfl
  | cons a rest ih =>
    cases i with
    | zero => rfl
    | succ i => exact congrArg (a :: ·) (ih (Nat.le_of_succ_le_succ hi))

theorem insertIdx_eq_take_append_drop {α : Type} {l : List α} {i : Nat} (x : α)
    (hi : i ≤ l.length) : l.insertIdx i x = l.take i ++ x :: l.drop i := by
  induction l generalizing i with
  | nil =>
    cases Nat.le_zero.mp hi
    rfl
  | cons a rest ih =>
    cases i with
    | zero => rfl
    | succ i => exact congrArg (a :: ·) (ih (Nat.le_of_succ_le_succ hi))

namespace Normalize

variable {g : Graph} {h h' : List Visit} {st st' s : State} {e : Entry} {r : Report} {i : Nat}
  {name : String} {node : Node} {hname : g.contains name = false} {depth : Nat} {q : Request}
  {qs : List Request}

theorem report_alone (hnode : node.Alone) (lookup : String → Option Node) :
    report lookup name node = .ok (aloneVisit name node).report := by
  cases node with
  | object o => exact report_template hnode
  | scalar value => rfl
  | enumeration value => rfl
  | union value => rfl
  | _ => exact hnode.elim

theorem State.Lacks.of_append {new : List (String × Instance)} (hlacks : st'.Lacks name)
    (hnew : st'.instances.entries = st.instances.entries ++ new) : st.Lacks name := by
  intro p hp
  exact hlacks p (hnew ▸ List.mem_append_left _ hp)

/-! ### Names -/

theorem find?_insertAt_of_ne {other : String} (hne : other ≠ name) :
    (g.insertAt i name node hname).find? other = g.find? other := by
  have hmem (x : Node) : (other, x) ∈ (g.insertAt i name node hname).entities.entries ↔
      (other, x) ∈ g.entities.entries := by
    constructor
    · intro hx
      rcases List.eq_or_mem_of_mem_insertIdx hx with heq | hx
      · exact absurd (congrArg Prod.fst heq) hne
      · exact hx
    · exact fun hx => List.subset_insertIdx _ _ _ hx
  apply Option.ext
  intro x
  rw [Graph.find?, Graph.find?, Dict.find?_eq_some_iff, Dict.find?_eq_some_iff, hmem]

theorem contains_insertAt_of_ne {other : String} (hne : other ≠ name) :
    (g.insertAt i name node hname).contains other = g.contains other :=
  congrArg Option.isSome (find?_insertAt_of_ne hne)

/-- What stands for something stands for the same if there is one more entry. -/
theorem extends_insertAt (hlacks : st.Lacks name) (heq : s.instances = st.instances) :
    Resolution.Extends (lookup g st) (lookup (g.insertAt i name node hname) s) := by
  intro other x hx
  by_cases hother : other = name
  · subst hother
    unfold lookup at hx
    rw [Graph.find?_eq_none hname] at hx
    obtain ⟨made, hmade, -⟩ := Option.map_eq_some_iff.mp hx
    exact absurd rfl (hlacks _ (Dict.find?_eq_some_iff.mp hmade))
  · unfold lookup at hx ⊢
    rw [find?_insertAt_of_ne hother, heq]
    exact hx

/-! ### Requests -/

theorem grant_insertAt (hno : NoTemplates st) (hlacks : st'.Lacks name)
    (heq : s.instances = st.instances) (hgrant : grant g depth st q = .ok st') :
    ∃ s', grant (g.insertAt i name node hname) depth s q = .ok s' ∧
      s'.instances = st'.instances := by
  have hgrows := grant_grows hno hgrant
  obtain ⟨new, hnew, -⟩ := hgrows.instances
  obtain ⟨-, made, hmade, -⟩ := hgrows.granted q (by simp)
  have hne : q.reference.escapedName ≠ name := hlacks _ (Dict.find?_eq_some_iff.mp hmade)
  have hext : Resolution.Extends (lookup g st) (lookup (g.insertAt i name node hname) s) :=
    extends_insertAt (hlacks.of_append hnew) heq
  obtain ⟨t, ht, hfree, hcase⟩ := grant_ok_iff.mp hgrant
  have hfree' : (g.insertAt i name node hname).contains q.reference.escapedName = false :=
    (contains_insertAt_of_ne hne).trans hfree
  rw [← heq] at hcase
  rcases hcase with ⟨old, hold, hgeneric, rfl⟩ | ⟨hfresh, hdepth, o, ho, rfl⟩
  · exact ⟨s, grant_ok_iff.mpr ⟨t, hext _ _ ht, hfree', Or.inl ⟨old, hold, hgeneric, rfl⟩⟩, heq⟩
  · exact ⟨_, grant_ok_iff.mpr ⟨t, hext _ _ ht, hfree', Or.inr ⟨hfresh, hdepth, o, ho, rfl⟩⟩, rfl⟩

theorem grantAll_insertAt (hno : NoTemplates st) (hlacks : st'.Lacks name)
    (heq : s.instances = st.instances) (hgrant : grantAll g depth st qs = .ok st') :
    ∃ s', grantAll (g.insertAt i name node hname) depth s qs = .ok s' ∧
      s'.instances = st'.instances := by
  induction qs generalizing st s with
  | nil =>
    cases hgrant
    exact ⟨s, rfl, heq⟩
  | cons q rest ih =>
    obtain ⟨mid, hmid, hrest⟩ := Except.bind_eq_ok_iff.mp hgrant
    have hnoMid := (grant_grows hno hmid).noTemplates hno
    obtain ⟨new, hnew, -⟩ := (grantAll_grows hnoMid hrest).instances
    obtain ⟨s₁, hs₁, heq₁⟩ := grant_insertAt hno (hlacks.of_append hnew) heq hmid
    obtain ⟨s₂, hs₂, heq₂⟩ := ih hnoMid heq₁ hrest
    exact ⟨s₂, Except.bind_eq_ok_iff.mpr ⟨s₁, hs₁, hs₂⟩, heq₂⟩

/-! ### Visits -/

theorem worklist_insertAt (hi : i ≤ g.size) (heq : s.instances = st.instances) :
    worklist (g.insertAt i name node hname) s =
      (worklist g st).insertIdx i (graphEntry (name, node)) := by
  rw [worklist, worklist, heq, insertIdx_append_of_le _ (by rwa [List.length_map])]
  exact congrArg (· ++ _) (List.map_insertIdx ..)

/-- A visit goes as before if it is to the same entry. -/
theorem Run.visit_insertAt (hrun : Run g h st) (hr : report (lookup g st) e.name e.node = .ok r)
    (hgrant : grantAll g e.depth st r.requests = .ok st') (hlacks : st'.Lacks name)
    (hrun' : Run (g.insertAt i name node hname) h' s) (heq : s.instances = st.instances)
    (he : (worklist (g.insertAt i name node hname) s)[h'.length]? = some e) :
    ∃ s', Run (g.insertAt i name node hname) (h' ++ [⟨e, r⟩]) s' ∧
      s'.instances = st'.instances := by
  have hno := hrun.consistent.noTemplates
  obtain ⟨new, hnew, -⟩ := (grantAll_grows hno hgrant).instances
  have hext : Resolution.Extends (lookup g st) (lookup (g.insertAt i name node hname) s) :=
    extends_insertAt (hlacks.of_append hnew) heq
  obtain ⟨s₁, hs₁, heq₁⟩ := grantAll_insertAt hno hlacks heq hgrant
  exact ⟨_, hrun'.visit he (report_mono hext hr) hs₁, heq₁⟩

/-- The visit to the new entry. -/
theorem Run.visit_alone (hi : i ≤ g.size) (hnode : node.Alone)
    (hrun : Run (g.insertAt i name node hname) h s) (hlength : h.length = i) :
    ∃ s', Run (g.insertAt i name node hname) (h ++ [aloneVisit name node]) s' ∧
      s'.instances = s.instances := by
  have he : (worklist (g.insertAt i name node hname) s)[h.length]? =
      some (graphEntry (name, node)) := by
    rw [worklist_insertAt hi rfl, hlength, List.getElem?_insertIdx_self, if_pos]
    rw [worklist, List.length_append, List.length_map]
    exact Nat.le_add_right_of_le hi
  exact ⟨_, hrun.visit he (report_alone hnode _) rfl, rfl⟩

/-- **The new entry is visited in between**, and nothing else is different. -/
theorem Run.insertAt (hi : i ≤ g.size) (hnode : node.Alone) (hrun : Run g h st)
    (hlacks : st.Lacks name) : ∃ s, Run (g.insertAt i name node hname)
      (h.insertIdx i (aloneVisit name node)) s ∧ s.instances = st.instances := by
  induction hrun with
  | start =>
    cases i with
    | zero => exact Run.visit_alone hi hnode Run.start rfl
    | succ i => exact ⟨_, Run.start, rfl⟩
  | @visit h st st' e r hrun he hr hgrant ih =>
    have hlacks' : st'.Lacks name := hlacks
    obtain ⟨new, hnew, -⟩ := (grantAll_grows hrun.consistent.noTemplates hgrant).instances
    obtain ⟨s, hs, heq⟩ := ih (hlacks'.of_append hnew)
    have hworklist : worklist (g.insertAt i name node hname) s =
        (worklist g st).insertIdx i (graphEntry (name, node)) := worklist_insertAt hi heq
    rcases Nat.lt_or_ge h.length i with hlt | hle
    · rw [List.insertIdx_of_length_lt hlt] at hs
      rw [← List.getElem?_insertIdx_of_lt (x := graphEntry (name, node)) hlt,
        ← hworklist] at he
      obtain ⟨s', hs', heq'⟩ := hrun.visit_insertAt hr hgrant hlacks' hs heq he
      rcases Nat.lt_or_eq_of_le (Nat.succ_le_of_lt hlt) with hlt' | heqi
      · rw [List.insertIdx_of_length_lt (by simpa using hlt')]
        exact ⟨s', hs', heq'⟩
      · -- it is the turn of the new entry
        have hlength : (h ++ [Visit.mk e r]).length = i := by simpa using heqi
        obtain ⟨s'', hs'', heq''⟩ := Run.visit_alone hi hnode hs' hlength
        have hinsert : (h ++ [Visit.mk e r]).insertIdx i (aloneVisit name node) =
            h ++ [Visit.mk e r] ++ [aloneVisit name node] := by
          rw [← hlength]
          exact List.insertIdx_length_self
        rw [hinsert]
        exact ⟨s'', hs'', heq''.trans heq'⟩
    · rw [insertIdx_append_of_le _ hle]
      have he' : (worklist (g.insertAt i name node hname) s)[(h.insertIdx i
          (aloneVisit name node)).length]? = some e := by
        rw [hworklist, List.length_insertIdx_of_le_length hle,
          List.getElem?_insertIdx_of_gt (Nat.lt_succ_of_le hle)]
        exact he
      obtain ⟨s', hs', heq'⟩ := hrun.visit_insertAt hr hgrant hlacks' hs heq he'
      exact ⟨s', hs', heq'⟩

theorem Complete.insertAt (hi : i ≤ g.size) (hcomplete : Complete g h st)
    (heq : s.instances = st.instances) :
    Complete (g.insertAt i name node hname) (h.insertIdx i (aloneVisit name node)) s := by
  rw [Complete, List.map_insertIdx, worklist_insertAt hi heq, hcomplete]
  rfl

/-! ### Results -/

/-- What a visit adds to a schema, with its name. -/
def Visit.addition (side : Side) (v : Visit) : Option (String × SchemaNode side.SchemaField) :=
  (side.ofReport v.report).map (v.entry.name, ·)

theorem Visit.addition_alone (side : Side) :
    (aloneVisit name node).addition side = node.own?.map (name, ·) := by
  cases side <;> rfl

theorem Visit.name_of_addition {side : Side} {v : Visit} {p : String × SchemaNode side.SchemaField}
    (hp : v.addition side = some p) : v.entry.name = p.1 := by
  obtain ⟨x, -, rfl⟩ := Option.map_eq_some_iff.mp hp
  rfl

/-- The first visits of a complete run are to the entries of the graph. -/
theorem Complete.names_take (hi : i ≤ g.size) (hcomplete : Complete g h st) :
    i ≤ h.length ∧ (h.take i).map (·.entry.name) = g.names.take i := by
  have hnames : h.map (·.entry.name) = g.names ++ st.instances.keys := by
    have hworklist := congrArg (List.map (·.name)) hcomplete
    rw [List.map_map, worklist, List.map_append, List.map_map, List.map_map] at hworklist
    exact hworklist
  have hsize : i ≤ g.names.length := by
    rwa [Graph.names, Dict.keys, Assoc.keys, List.length_map]
  constructor
  · have hlength := congrArg List.length hnames
    rw [List.length_map, List.length_append] at hlength
    omega
  · rw [List.map_take, hnames, List.take_append_of_le_length hsize]

/-- What the new entry shows stands where the entry stands. -/
theorem addedBehind_insertAt (hi : i ≤ g.size) (hc : Consistent g h st)
    (hcomplete : Complete g h st) (hc' : Consistent (g.insertAt i name node hname)
      (h.insertIdx i (aloneVisit name node)) s) (side : Side) :
    (side.schema st.result).AddedBehind (g.names.take i) name node.own?
      (side.schema s.result) := by
  obtain ⟨hlength, hfront⟩ := hcomplete.names_take hi
  have hentries : (side.schema st.result).entries = h.filterMap (Visit.addition side) :=
    Side.entries_schema hc side
  have hentries' : (side.schema s.result).entries =
      (h.insertIdx i (aloneVisit name node)).filterMap (Visit.addition side) :=
    Side.entries_schema hc' side
  refine ⟨(h.take i).filterMap (Visit.addition side), (h.drop i).filterMap (Visit.addition side),
    ?_, ?_, fun p hp => ?_, fun p hp => ?_⟩
  · rw [hentries, ← List.filterMap_append, List.take_append_drop]
  · rw [hentries', insertIdx_eq_take_append_drop _ hlength, ← Visit.addition_alone]
    cases hnew : (aloneVisit name node).addition side <;> simp [List.filterMap_append, hnew]
  · obtain ⟨v, hv, hadd⟩ := List.mem_filterMap.mp hp
    rw [← hfront, ← Visit.name_of_addition hadd]
    exact List.mem_map_of_mem hv
  · obtain ⟨v, hv, hadd⟩ := List.mem_filterMap.mp hp
    rw [← hfront, ← Visit.name_of_addition hadd]
    intro hmem
    -- no name is visited twice
    have hnodup := nodup_names_worklist hc.free
    rw [← hcomplete, List.map_map, ← List.take_append_drop i h, List.map_append,
      List.nodup_append] at hnodup
    exact hnodup.2.2 _ hmem _ (List.mem_map_of_mem hv) rfl

theorem diagnostics_insertAt (hi : i ≤ g.size) (hc : Consistent g h st)
    (hcomplete : Complete g h st) (hc' : Consistent (g.insertAt i name node hname)
      (h.insertIdx i (aloneVisit name node)) s) : s.diagnostics = st.diagnostics := by
  rw [hc'.diagnostics, hc.diagnostics,
    insertIdx_eq_take_append_drop _ (hcomplete.names_take hi).1, List.flatMap_append,
    List.flatMap_cons]
  show _ ++ ([] ++ _) = _
  rw [List.nil_append, ← List.flatMap_append, List.take_append_drop]

end Normalize

/-- **An entry that nothing uses.**  The graph with one more scalar, enumeration, union or template,
under a name that nothing goes by, can be normalized as well.  It has the same instantiations and
diagnostics, and what the entry shows is added to the schemas in its place. -/
theorem Graph.normalize_insertAt {g : Graph} {n : Normalized} {i : Nat} {name : String}
    {node : Node} (hn : g.normalize = .ok n) (hi : i ≤ g.size) (hname : g.contains name = false)
    (hfree : ∀ o ∈ n.specializations, o.escapedName ≠ name) (hnode : node.Alone) :
    ∃ n', (g.insertAt i name node hname).normalize = .ok n' ∧
      n'.specializations = n.specializations ∧ n'.diagnostics = n.diagnostics ∧
      ∀ side : Side, (side.schema n).AddedBehind (g.names.take i) name node.own?
        (side.schema n') := by
  obtain ⟨h, st, hrun, hcomplete, rfl⟩ := Graph.normalize_ok hn
  have hc := hrun.consistent
  have hlacks : st.Lacks name := by
    intro p hp
    rw [← hc.escapedName p hp]
    exact hfree _ (mem_specializations_iff.mpr ⟨p, hp, rfl⟩)
  obtain ⟨s, hrun', heq⟩ : ∃ s, Run (g.insertAt i name node hname)
      (h.insertIdx i (aloneVisit name node)) s ∧ s.instances = st.instances :=
    hrun.insertAt hi hnode hlacks
  have hc' := hrun'.consistent
  refine ⟨s.result, normalize_of_complete hrun' (hcomplete.insertAt hi heq), ?_, ?_, ?_⟩
  · rw [State.result, State.result, heq]
  · exact diagnostics_insertAt hi hc hcomplete hc'
  · exact addedBehind_insertAt hi hc hcomplete hc'

theorem Graph.normalize_insertAt_pages : ∃ n hname, pages.normalize = .ok n ∧ 2 ≤ pages.size ∧
    (∀ o ∈ n.specializations, o.escapedName ≠ "Tag") ∧ (Node.scalar ⟨"Tag", none⟩).Alone ∧
    ∃ n', (pages.insertAt 2 "Tag" (.scalar ⟨"Tag", none⟩) hname).normalize = .ok n' ∧
      n'.specializations = n.specializations ∧ n'.diagnostics = n.diagnostics ∧
      ∀ side : Side, (side.schema n).AddedBehind (pages.names.take 2) "Tag"
        (Node.scalar ⟨"Tag", none⟩).own? (side.schema n') := by
  have hfree : ∀ n, pages.normalize = .ok n → ∀ o ∈ n.specializations, o.escapedName ≠ "Tag" := by
    rintro n ⟨⟩
    decide
  exact ⟨_, rfl, rfl, by decide, hfree _ rfl, trivial,
    normalize_insertAt rfl (by decide) rfl (hfree _ rfl) trivial⟩

end EntityGraph
