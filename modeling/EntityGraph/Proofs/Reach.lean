import EntityGraph.Proofs.Generations
import EntityGraph.Proofs.Requests

/-!
# What a graph reaches

A chain of requests leads from an entry of the graph to an instantiation, from there to the next,
and so on.  `Reaches g d name o` says that one of length `d` ends in `o`; it speaks of the graph
alone and of no run.

In a graph that knows all names its objects inherit from, a run visits what is reached and nothing
else (`reaches_of_mem_worklist`, `covered`): each instantiation that stands in the list is reached
in as many requests as its depth says, and once all entries above some depth have been visited,
all that is reached in fewer requests has been, up to the hooks of lists.
-/

namespace EntityGraph

/-! ## Algorithm -/

namespace Object

/-- All names that the object inherits from are those of entries. -/
def Closed (g : Graph) (o : Object) : Prop :=
  (∀ a ∈ o.ancestors, g.contains a = true) ∧
    ∀ p ∈ o.visibleFields.entries, ∀ a ∈ p.2.origin, g.contains a = true

instance (g : Graph) (o : Object) : Decidable (o.Closed g) :=
  inferInstanceAs (Decidable (_ ∧ _))

end Object

/-- Something holds of the object, if the node is one. -/
def Node.IfObject (P : Object → Prop) : Node → Prop
  | .object o => P o
  | _ => True

instance {P : Object → Prop} [DecidablePred P] : (node : Node) → Decidable (node.IfObject P)
  | .object o => inferInstanceAs (Decidable (P o))
  | .scalar _ | .enumeration _ | .union _ => .isTrue trivial
  | .list .. | .reference _ | .field _ => .isTrue trivial

namespace Graph

/-- Something holds of all objects among the entries. -/
def AllObjects (P : Object → Prop) (g : Graph) : Prop :=
  ∀ p ∈ g.entities.entries, p.2.IfObject P

/-- Every name in an inherit list and every origin of a visible field is that of an entry. -/
def Closed (g : Graph) : Prop := g.AllObjects (·.Closed g)

instance (g : Graph) : Decidable g.Closed :=
  inferInstanceAs (Decidable (∀ p ∈ g.entities.entries, p.2.IfObject (·.Closed g)))

/-- No list of arguments in a declared type is empty. -/
def Full (g : Graph) : Prop := g.AllObjects Object.Full

instance (g : Graph) : Decidable g.Full :=
  inferInstanceAs (Decidable (∀ p ∈ g.entities.entries, p.2.IfObject Object.Full))

/-- A chain of `d` requests leads from an entry of the graph to the object `o`, which goes by the
given name. -/
inductive Reaches (g : Graph) : Nat → String → Object → Prop
  | entry {name : String} {o : Object} : g.find? name = some (.object o) →
      o.isTemplate = false → Reaches g 0 name o
  | request {d : Nat} {name : String} {o t o' : Object} {r : Reference} : Reaches g d name o →
      o.Requests g.find? r → g.find? r.name = some (.object t) →
      t.instantiate r r.escapedName = .ok o' → Reaches g (d + 1) r.escapedName o'

/-- `r` is requested at the end of a chain of `d` requests. -/
def Requested (g : Graph) (d : Nat) (r : Reference) : Prop :=
  ∃ name o, g.Reaches d name o ∧ o.Requests g.find? r

end Graph

/-! ## Lemmas -/

theorem Graph.AllObjects.find? {P : Object → Prop} {g : Graph} (h : g.AllObjects P) {name : String}
    {o : Object} (ho : g.find? name = some (.object o)) : P o :=
  h _ (Dict.find?_eq_some_iff.mp ho)

/-- A search goes through entries only. -/
theorem Object.Closed.searchOrder {g : Graph} {o : Object} (ho : o.Closed g)
    {p : String × VisibleField} (hp : p ∈ o.visibleFields.entries) {a : String}
    (ha : a ∈ Resolution.searchOrder o p.2) : g.contains a = true := by
  rcases List.mem_append.mp (List.mem_eraseDups.mp ha) with ha | ha
  · exact ho.2 p hp a (by simpa using ha)
  · exact ho.1 a ha

namespace Normalize

variable {g : Graph} {h : List Visit} {st : State} {name : String} {d : Nat} {o : Object}
  {r : Reference}

theorem lookup_of_contains {a : String} (ha : g.contains a = true) :
    lookup g st a = g.find? a := by
  unfold lookup
  rw [Graph.contains, Dict.contains] at ha
  cases hfind : g.find? a with
  | some node => rfl
  | none =>
    unfold Graph.find? at hfind
    rw [hfind] at ha
    cases ha

theorem closed_of_mem_worklist (hclosed : g.Closed) (hc : Consistent g h st) {e : Entry}
    (he : e ∈ worklist g st) : e.node.IfObject (·.Closed g) := by
  rcases mem_worklist_iff.mp he with ⟨p, hp, rfl⟩ | ⟨p, hp, rfl⟩
  · exact hclosed p hp
  · obtain ⟨v, -, q, -, hmade⟩ := hc.made p hp
    obtain ⟨t, ht, hinst⟩ := hmade.made
    have htemplate := hclosed.find? ht
    simp only [instanceEntry, (Object.instantiate_ok_iff.mp hinst).2]
    exact htemplate

/-- What has been instantiated has no influence on a report. -/
theorem report_worklist (hclosed : g.Closed) (hc : Consistent g h st) {e : Entry}
    (he : e ∈ worklist g st) :
    report (lookup g st) e.name e.node = report g.find? e.name e.node := by
  have ho := closed_of_mem_worklist hclosed hc he
  cases hnode : e.node with
  | object o =>
    rw [hnode] at ho
    have ho' : o.Closed g := ho
    exact report_congr fun _ hp _ ha => lookup_of_contains (ho'.searchOrder hp ha)
  | _ => rfl

theorem report_visit (hclosed : g.Closed) (hc : Consistent g h st) {v : Visit} (hv : v ∈ h) :
    report g.find? v.entry.name v.entry.node = .ok v.report := by
  rw [← report_worklist hclosed hc (hc.mem_worklist hv), hc.reported v hv]

/-! ### What is kept along a chain -/

theorem full_of_reaches (hfull : g.Full) (hreach : g.Reaches d name o) : o.Full := by
  induction hreach with
  | entry ho _ => exact hfull.find? ho
  | request _ hr ht ho' ih =>
    rw [(Object.instantiate_ok_iff.mp ho').2]
    have hr' := Object.full_of_requests ih (fun _ _ howner => hfull.find? howner) hr
    exact Object.full_instanceOf (hfull.find? ht) hr' _

theorem full_of_requested (hfull : g.Full) (hr : g.Requested d r) : r.toType.Full := by
  obtain ⟨name, o, hreach, hr⟩ := hr
  exact Object.full_of_requests (full_of_reaches hfull hreach) (fun _ _ ho => hfull.find? ho) hr

/-! ### What is in the list is reached -/

theorem reaches_of_mem_worklist (hclosed : g.Closed) (hc : Consistent g h st) {e : Entry}
    (he : e ∈ worklist g st) (hnode : e.node = .object o) (ho : o.isTemplate = false) :
    g.Reaches e.depth e.name o := by
  induction hd : e.depth using Nat.strongRecOn generalizing e o with
  | ind d ih =>
    subst hd
    rcases mem_worklist_iff.mp he with ⟨p, hp, rfl⟩ | ⟨p, hp, rfl⟩
    · refine .entry (Dict.find?_eq_some_iff.mpr ?_) ho
      rw [← hnode]
      exact hp
    · obtain ⟨v, hv, q, hq, hmade⟩ := hc.made p hp
      have hreport := report_visit hclosed hc hv
      obtain ⟨o', hnode', ho'⟩ := object_of_mem_requests hreport hq
      have hreach := ih v.entry.depth (by simp only [instanceEntry, hmade.depth_eq]; omega)
        (hc.mem_worklist hv) hnode' ho' rfl
      rw [hnode'] at hreport
      have hrequests := (mem_requests_report_iff ho' hreport).mp ⟨q, hq, rfl⟩
      obtain ⟨t, ht, hinst⟩ := hmade.made
      cases hnode
      simp only [instanceEntry, hmade.depth_eq, hmade.name]
      rw [hmade.name] at hinst
      exact .request hreach hrequests ht hinst

/-- What an entry of the list requests is requested at its depth. -/
theorem requested_of_report (hclosed : g.Closed) (hc : Consistent g h st) {e : Entry}
    (he : e ∈ worklist g st) {rep : Report} (hreport : report (lookup g st) e.name e.node = .ok rep)
    {q : Request} (hq : q ∈ rep.requests) : g.Requested e.depth q.reference := by
  obtain ⟨o, hnode, ho⟩ := object_of_mem_requests hreport hq
  have hreach := reaches_of_mem_worklist hclosed hc he hnode ho
  rw [report_worklist hclosed hc he, hnode] at hreport
  exact ⟨_, o, hreach, (mem_requests_report_iff ho hreport).mp ⟨q, hq, rfl⟩⟩

theorem requested_of_visit (hclosed : g.Closed) (hc : Consistent g h st) {v : Visit} (hv : v ∈ h)
    {q : Request} (hq : q ∈ v.report.requests) : g.Requested v.entry.depth q.reference :=
  requested_of_report hclosed hc (hc.mem_worklist hv) (hc.reported v hv) hq

/-! ### What is on record is what was asked for -/

theorem forget_eq_of_names_eq {r r' : Reference} (hfull : r.toType.Full)
    (he : r.escapedName = r'.escapedName) (hg : r.genericName = r'.genericName) :
    r.forget (fun _ => .none) = r'.forget fun _ => .none :=
  Reference.forget_eq_iff.mpr (FieldType.bare_eq_of_names_eq hfull he hg)

theorem Consistent.exists_alike (hc : Consistent g h st) (hr : Granted g st r)
    (hfull : r.toType.Full) : ∃ i t, st.instances.find? r.escapedName = some i ∧
      g.find? r.name = some (.object t) ∧ t.typeParameters.length = (r.args.getD []).length ∧
        (t.instanceOf r r.escapedName).Alike i.object := by
  obtain ⟨-, i, hi, hname⟩ := hr
  obtain ⟨v, -, q, -, hmade⟩ := hc.made _ (Dict.find?_eq_some_iff.mp hi)
  obtain ⟨t, ht, hinst⟩ := hmade.made
  obtain ⟨hlength, hobject⟩ := Object.instantiate_ok_iff.mp hinst
  have hgeneric : r.genericName = q.reference.genericName := by
    rw [← hname]
    exact congrArg Object.name hobject
  have hforget := forget_eq_of_names_eq hfull hmade.name hgeneric
  refine ⟨i, t, hi, ?_, ?_, ?_⟩
  · rw [Reference.name_eq_of_forget_eq hforget, ht]
  · rw [hlength, Reference.length_args_eq_of_forget_eq hforget]
  · rw [Object.Alike, Object.Agree, hobject]
    exact Object.mapTypes_instanceOf_congr hforget t _

/-! ### What is reached is in the list -/

/-- A visited entry requests what one that is alike does, up to the hooks of lists. -/
theorem exists_request (hclosed : g.Closed) (hc : Consistent g h st) {v : Visit} (hv : v ∈ h)
    {o' : Object} (hnode : v.entry.node = .object o') (ho' : o'.isTemplate = false)
    (halike : o.Alike o') (hr : o.Requests g.find? r) :
    ∃ q ∈ v.report.requests, q.reference.forget (fun _ => .none) = r.forget fun _ => .none := by
  obtain ⟨r', hr', hforget⟩ := halike.requests hr
  have hreport := report_visit hclosed hc hv
  rw [hnode] at hreport
  obtain ⟨q, hq, rfl⟩ := (mem_requests_report_iff ho' hreport).mpr hr'
  exact ⟨q, hq, hforget⟩

/-- Everything that is less than `D` requests away from the graph has been visited. -/
def VisitedBelow (g : Graph) (h : List Visit) (st : State) (D : Nat) : Prop :=
  ∀ e ∈ worklist g st, e.depth < D → ∃ v ∈ h, v.entry = e

/-- **The list holds all that is reached.**  What can be reached in less than `D` requests has been
visited under its name, as early as its shortest chain of requests allows. -/
theorem covered (hfull : g.Full) (hclosed : g.Closed) (hc : Consistent g h st) {D : Nat}
    (hvisited : VisitedBelow g h st D) (hreach : g.Reaches d name o) (hd : d < D) :
    ∃ v ∈ h, v.entry.name = name ∧ v.entry.depth ≤ d ∧
      ∃ o', v.entry.node = .object o' ∧ o'.isTemplate = false ∧ o.Alike o' := by
  induction hreach with
  | @entry name o ho htemplate =>
    have hmem : graphEntry (name, .object o) ∈ worklist g st :=
      mem_worklist_of_graph (Dict.find?_eq_some_iff.mp ho)
    obtain ⟨v, hv, hentry⟩ := hvisited _ hmem hd
    refine ⟨v, hv, ?_⟩
    rw [hentry]
    exact ⟨rfl, Nat.le_refl _, o, rfl, htemplate, rfl⟩
  | @request d name o t o' r hreach hr ht ho' ih =>
    obtain ⟨v, hv, -, hle, x, hnode, hx, halike⟩ := ih (Nat.lt_of_succ_lt hd)
    obtain ⟨q, hq, hforget⟩ := exists_request hclosed hc hv hnode hx halike hr
    have hq' := full_of_requested hfull (requested_of_visit hclosed hc hv hq)
    obtain ⟨i, _, hi, ht', -, hi'⟩ := hc.exists_alike (hc.granted v hv q hq) hq'
    have hescaped := Reference.escapedName_eq_of_forget_eq hforget
    rw [Reference.name_eq_of_forget_eq hforget, ht] at ht'
    cases ht'
    have hdepth : i.depth ≤ d + 1 :=
      Nat.le_trans (hc.prompt v hv q hq i hi) (Nat.succ_le_succ hle)
    obtain ⟨w, hw, hentry⟩ :=
      hvisited _ (mem_worklist_of_find? hi) (Nat.lt_of_le_of_lt hdepth hd)
    refine ⟨w, hw, ?_⟩
    rw [hentry]
    refine ⟨hescaped, hdepth, i.object, rfl, hc.noTemplates.find? hi, ?_⟩
    rw [(Object.instantiate_ok_iff.mp ho').2, ← hescaped]
    exact (Object.mapTypes_instanceOf_congr hforget.symm t _).trans hi'

theorem Granted.of_forget_eq {r' : Reference} (hr : Granted g st r) {f : Hooks → Hooks}
    (he : r.forget f = r'.forget f) : Granted g st r' := by
  rwa [Granted, ← Reference.escapedName_eq_of_forget_eq he,
    ← Reference.genericName_eq_of_forget_eq he]

/-- What is requested less than `D` requests away from the graph is on record. -/
theorem granted_of_requested (hfull : g.Full) (hclosed : g.Closed) (hc : Consistent g h st)
    {D : Nat} (hvisited : VisitedBelow g h st D) (hr : g.Requested d r) (hd : d < D) :
    Granted g st r := by
  obtain ⟨name, o, hreach, hr⟩ := hr
  obtain ⟨v, hv, -, -, o', hnode, ho', halike⟩ := covered hfull hclosed hc hvisited hreach hd
  obtain ⟨q, hq, hforget⟩ := exists_request hclosed hc hv hnode ho' halike hr
  exact (hc.granted v hv q hq).of_forget_eq hforget

theorem Complete.visitedBelow (hcomplete : Complete g h st) (D : Nat) :
    VisitedBelow g h st D := by
  intro e he _
  exact hcomplete.exists_visit he

/-- A chain of requests ends in an entry of the graph or in what is requested. -/
theorem requested_of_reaches (hreach : g.Reaches d name o) :
    g.find? name = some (.object o) ∨
      ∃ d' r, d = d' + 1 ∧ name = r.escapedName ∧ g.Requested d' r := by
  cases hreach with
  | entry ho _ => exact Or.inl ho
  | request hreach hr _ _ => exact Or.inr ⟨_, _, rfl, rfl, _, _, hreach, hr⟩

/-- Before an entry is visited, all those of smaller depth have been. -/
theorem Consistent.visitedBelow (hc : Consistent g h st) {e : Entry}
    (he : (worklist g st)[h.length]? = some e) : VisitedBelow g h st e.depth := by
  obtain ⟨rest, hrest⟩ : h.map (·.entry) ++ [e] <+: worklist g st :=
    prefix_concat hc.visited (by rwa [List.length_map])
  have hsorted := hc.sorted
  rw [← hrest, List.append_assoc, List.pairwise_append, List.singleton_append,
    List.pairwise_cons] at hsorted
  intro x hx hlt
  rw [← hrest, List.append_assoc, List.mem_append, List.singleton_append, List.mem_cons] at hx
  rcases hx with hx | rfl | hx
  · exact List.mem_map.mp hx
  · exact absurd hlt (Nat.lt_irrefl _)
  · exact absurd hlt (Nat.not_lt.mpr (hsorted.2.1.1 x hx))

end Normalize

end EntityGraph
