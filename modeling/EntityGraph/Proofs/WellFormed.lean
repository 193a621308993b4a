import EntityGraph.Proofs.Reach

/-!
# Which graphs can be normalized

`WellFormed` says what is wrong with no entry and no request that can be reached.  In graphs that
know all names their objects inherit from, and in which no list of arguments is empty,
normalization fails exactly on those that are not well-formed.

    (∃ n, g.normalize = .ok n) ↔ g.WellFormed                       (normalize_isOk_iff)

Normalization makes each check once and in passing: a request for what is on record is not
compared with the template, nor is its depth looked at.  From left to right, what is on record was
made from the right template for a request that differs in hooks at most (`exists_alike`), and so
has been checked.  From right to left, what is on record was made for a request as well, and what
is not has not been reached in fewer requests (`granted_of_requested`).
-/

namespace EntityGraph

open Normalize

/-! ## Algorithm -/

namespace Graph

structure WellFormed (g : Graph) : Prop where
  /-- No entry is a list, a reference or a field. -/
  kinds : ∀ p ∈ g.entities.entries, p.2.kind ∉ [Node.Kind.list, .reference, .field]
  /-- Where a field is inherited, objects stand up to the first that declares it. -/
  ancestors : ∀ d name o, g.Reaches d name o → ∀ p ∈ o.visibleFields.entries,
    o.fields.find? p.1 = none →
      Resolution.ObjectsUpTo g.find? p.1 (Resolution.searchOrder o p.2)
  /-- What is requested are instantiations of objects with as many parameters. -/
  templates : ∀ d r, g.Requested d r → ∃ t, g.find? r.name = some (.object t) ∧
    t.typeParameters.length = (r.args.getD []).length
  /-- The names of instantiations are not taken. -/
  free : ∀ d r, g.Requested d r → g.contains r.escapedName = false
  /-- Instantiations that have one name are one. -/
  names : ∀ d r d' r', g.Requested d r → g.Requested d' r' → r.escapedName = r'.escapedName →
    r.genericName = r'.genericName
  /-- No instantiation is too many requests away. -/
  depth : ∀ d r, g.Requested d r → ∃ d' o, d' ≤ maxDepth ∧ g.Reaches d' r.escapedName o

end Graph

/-! ## Lemmas -/

variable {g : Graph} {h : List Visit} {st : State}

namespace Normalize

theorem kind_of_report {lookup : String → Option Node} {name : String} {node : Node} {r : Report}
    (hr : report lookup name node = .ok r) :
    node.kind ∉ [Node.Kind.list, .reference, .field] := by
  cases node with
  | list element hooks => cases hr
  | reference r => cases hr
  | field f => cases hr
  | _ => simp [Node.kind]

theorem report_isOk_of_kind {lookup : String → Option Node} {name : String} {node : Node}
    (hkind : node.kind ∉ [Node.Kind.list, .reference, .field])
    (hobject : ∀ o, node = .object o → o.isTemplate = false →
      ∃ r, report lookup name (.object o) = .ok r) : ∃ r, report lookup name node = .ok r := by
  cases node with
  | scalar s => exact ⟨_, rfl⟩
  | enumeration e => exact ⟨_, rfl⟩
  | union u => exact ⟨_, rfl⟩
  | object o =>
    cases ho : o.isTemplate with
    | true => exact ⟨_, report_template ho⟩
    | false => exact hobject o rfl ho
  | list element hooks => simp [Node.kind] at hkind
  | reference r => simp [Node.kind] at hkind
  | field f => simp [Node.kind] at hkind

/-! ### A complete run -/

theorem wellFormed_of_run (hclosed : g.Closed) (hfull : g.Full) (hrun : Run g h st)
    (hcomplete : Complete g h st) : g.WellFormed := by
  have hc := hrun.consistent
  have hgranted : ∀ d r, g.Requested d r → Granted g st r := fun d r hr =>
    granted_of_requested hfull hclosed hc (hcomplete.visitedBelow (d + 1)) hr (Nat.lt_succ_self d)
  refine
    { kinds := fun p hp => ?_
      ancestors := fun d name o hreach p hp hnone => ?_
      templates := fun d r hr => ?_
      free := fun d r hr => (hgranted d r hr).1
      names := fun d r d' r' hr hr' he => ?_
      depth := fun d r hr => ?_ }
  · obtain ⟨v, hv, hentry⟩ := hcomplete.exists_visit (mem_worklist_of_graph hp)
    have hreport := hc.reported v hv
    rw [hentry] at hreport
    exact kind_of_report hreport
  · obtain ⟨v, hv, -, -, o', hnode, ho', halike⟩ := covered hfull hclosed hc
      (hcomplete.visitedBelow (d + 1)) hreach (Nat.lt_succ_self d)
    have hreport := report_visit hclosed hc hv
    rw [hnode] at hreport
    rw [halike.searchOrder]
    exact (report_object_isOk_iff ho').mp ⟨_, hreport⟩ p (halike.visibleFields ▸ hp)
      (halike.find?_fields_eq_none hnone)
  · have hr' := full_of_requested hfull hr
    obtain ⟨i, t, -, ht, hlength, -⟩ := hc.exists_alike (hgranted d r hr) hr'
    exact ⟨t, ht, hlength⟩
  · obtain ⟨-, i, hi, hname⟩ := hgranted d r hr
    obtain ⟨-, i', hi', hname'⟩ := hgranted d' r' hr'
    rw [he, hi'] at hi
    cases hi
    rw [← hname, hname']
  · obtain ⟨-, i, hi, -⟩ := hgranted d r hr
    have hmem := mem_worklist_of_find? (g := g) hi
    exact ⟨i.depth, i.object, hc.depth_le _ hmem,
      reaches_of_mem_worklist hclosed hc hmem rfl (hc.noTemplates.find? hi)⟩

/-! ### A run that goes on -/

section

variable (hclosed : g.Closed) (hc : Consistent g h st) {e : Entry}
  (he : (worklist g st)[h.length]? = some e)

include hclosed hc he

/-- Whatever instantiation is on record was requested of the graph. -/
theorem requested_of_grows {r : Report} (hr : report (lookup g st) e.name e.node = .ok r)
    {qs : List Request} (hqs : ∀ q ∈ qs, q ∈ r.requests) {mid : State}
    (hgrows : Grows g e.depth qs st mid) {name : String} {i : Instance}
    (hi : mid.instances.find? name = some i) : ∃ d r, g.Requested d r ∧ r.escapedName = name ∧
      r.genericName = i.object.name := by
  have hmade : ∃ d r, g.Requested d r ∧ ∃ depth, Makes g depth r (name, i) := by
    obtain ⟨new, hnew, hmade⟩ := hgrows.instances
    have hmem := Dict.find?_eq_some_iff.mp hi
    rw [hnew] at hmem
    rcases List.mem_append.mp hmem with hmem | hmem
    · obtain ⟨v, hv, q, hq, hmakes⟩ := hc.made _ hmem
      exact ⟨_, _, requested_of_visit hclosed hc hv hq, _, hmakes⟩
    · obtain ⟨q, hq, hmakes⟩ := hmade _ hmem
      have hreq := requested_of_report hclosed hc (List.mem_of_getElem? he) hr (hqs q hq)
      exact ⟨_, _, hreq, _, hmakes⟩
  obtain ⟨d, r, hreq, depth, hmakes⟩ := hmade
  obtain ⟨t, -, hinst⟩ := hmakes.made
  have hname := congrArg Object.name (Object.instantiate_ok_iff.mp hinst).2
  exact ⟨d, r, hreq, hmakes.name.symm, hname.symm⟩

variable (hwf : g.WellFormed)

include hwf

theorem report_isOk_of_wellFormed :
    ∃ r, report (lookup g st) e.name e.node = .ok r := by
  have hmem := List.mem_of_getElem? he
  refine report_isOk_of_kind ?_ fun o hnode ho => ?_
  · rcases mem_worklist_iff.mp hmem with ⟨p, hp, rfl⟩ | ⟨p, -, rfl⟩
    · exact hwf.kinds p hp
    · simp [instanceEntry, Node.kind]
  · have hreach := reaches_of_mem_worklist hclosed hc hmem hnode ho
    rw [← hnode, report_worklist hclosed hc hmem, hnode, report_object_isOk_iff ho]
    exact hwf.ancestors _ _ o hreach

/-- What is not on record yet is not too many requests away. -/
theorem depth_of_fresh (hfull : g.Full) {q : Request} (hq : g.Requested e.depth q.reference)
    (hfresh : st.instances.find? q.reference.escapedName = none) : e.depth + 1 ≤ maxDepth := by
  refine Nat.succ_le_of_lt (Nat.lt_of_not_le fun hle => ?_)
  obtain ⟨d', o, hd', hreach⟩ := hwf.depth _ _ hq
  rcases requested_of_reaches hreach with hgraph | ⟨d, r, rfl, hname, hr⟩
  · rw [Graph.find?_eq_none (hwf.free _ _ hq)] at hgraph
    cases hgraph
  · have hgranted := granted_of_requested hfull hclosed hc (hc.visitedBelow he) hr (by omega)
    obtain ⟨-, i, hi, -⟩ := hgranted
    rw [← hname, hfresh] at hi
    cases hi

/-- A request of the next entry is granted after those before it. -/
theorem grant_isOk_of_wellFormed (hfull : g.Full) {r : Report}
    (hr : report (lookup g st) e.name e.node = .ok r) {pre post : List Request} {q : Request}
    (hqs : r.requests = pre ++ q :: post) {mid : State}
    (hmid : grantAll g e.depth st pre = .ok mid) : ∃ st', grant g e.depth mid q = .ok st' := by
  have hgrows := grantAll_grows hc.noTemplates hmid
  have hpre : ∀ x ∈ pre, x ∈ r.requests := fun x hx => hqs ▸ List.mem_append_left _ hx
  have hreq := requested_of_report hclosed hc (List.mem_of_getElem? he) hr
    (show q ∈ r.requests by simp [hqs])
  obtain ⟨t, ht, hlength⟩ := hwf.templates _ _ hreq
  have htemplate : lookup g mid q.reference.name = some (.object t) := by rw [lookup, ht]
  have hfree := hwf.free _ _ hreq
  cases hfind : mid.instances.find? q.reference.escapedName with
  | some i =>
    obtain ⟨d, r', hr', he', hname⟩ := requested_of_grows hclosed hc he hr hpre hgrows hfind
    have hi : i.object.name = q.reference.genericName := by
      rw [← hname, hwf.names _ _ _ _ hr' hreq he']
    exact ⟨mid, grant_ok_iff.mpr ⟨t, htemplate, hfree, Or.inl ⟨i, hfind, hi, rfl⟩⟩⟩
  | none =>
    have hfresh : st.instances.find? q.reference.escapedName = none := by
      obtain ⟨new, hnew, -⟩ := hgrows.instances
      rw [Dict.find?, hnew, Assoc.find?_append] at hfind
      exact (Option.or_eq_none_iff.mp hfind).1
    have hdepth := depth_of_fresh hclosed hc he hwf hfull hreq hfresh
    have hinst := Object.instantiate_of_length hlength q.reference.escapedName
    exact ⟨_, grant_ok_iff.mpr ⟨t, htemplate, hfree, Or.inr ⟨hfind, hdepth, _, hinst, rfl⟩⟩⟩

end

theorem not_stuck_of_wellFormed (hclosed : g.Closed) (hfull : g.Full) (hwf : g.WellFormed)
    (err : GraphError) : ¬ Stuck g err := by
  rintro ⟨h, st, e, hrun, he, hvisit⟩
  have hc := hrun.consistent
  obtain ⟨r, hr⟩ := report_isOk_of_wellFormed hclosed hc he hwf
  cases hgrant : grantAll g e.depth st r.requests with
  | ok st' =>
    have hok := visit_ok_iff.mpr ⟨r, st', hr, hgrant, rfl⟩
    rw [hvisit] at hok
    cases hok
  | error err' =>
    obtain ⟨pre, q, post, mid, hqs, hmid, hfail⟩ := exists_of_grantAll_eq_error hgrant
    obtain ⟨st', hok⟩ := grant_isOk_of_wellFormed hclosed hc he hwf hfull hr hqs hmid
    rw [hfail] at hok
    cases hok

end Normalize

namespace Graph

theorem wellFormed_of_normalize (hclosed : g.Closed) (hfull : g.Full) {n : Normalized}
    (hn : g.normalize = .ok n) : g.WellFormed := by
  obtain ⟨h, st, hrun, hcomplete, -⟩ := normalize_ok hn
  exact wellFormed_of_run hclosed hfull hrun hcomplete

theorem exists_normalize_of_wellFormed (hclosed : g.Closed) (hfull : g.Full)
    (hwf : g.WellFormed) : ∃ n, g.normalize = .ok n := by
  cases hn : g.normalize with
  | ok n => exact ⟨n, rfl⟩
  | error err => exact absurd (normalize_error hn) (not_stuck_of_wellFormed hclosed hfull hwf err)

/-- **Exactly the well-formed graphs can be normalized.** -/
theorem normalize_isOk_iff (hclosed : g.Closed) (hfull : g.Full) :
    (∃ n, g.normalize = .ok n) ↔ g.WellFormed := by
  constructor
  · rintro ⟨n, hn⟩
    exact wellFormed_of_normalize hclosed hfull hn
  · exact exists_normalize_of_wellFormed hclosed hfull

theorem wellFormed_pages : (∃ n, pages.normalize = .ok n) ∧ pages.WellFormed := by
  have hn : ∃ n, pages.normalize = .ok n := ⟨_, rfl⟩
  exact ⟨hn, (normalize_isOk_iff (by decide) (by decide)).mp hn⟩

end Graph

end EntityGraph
