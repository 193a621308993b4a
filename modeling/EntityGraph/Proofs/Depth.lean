import EntityGraph.Proofs.Loop
import EntityGraph.Proofs.Rearranged
import Mathlib.Data.List.Nodup
import Mathlib.Order.Bounds.Defs

/-!
# The depth of an instantiation

The depth on record for an instantiation is taken from the entry that happens to request it first,
and never looked at again.  It is the length of a shortest chain of requests all the same, since the
list is worked off in the order of depth.

    l.state.instances.find? name = some i → IsLeast {d | l.Chain g d name} i.depth

So an instantiation is refused for its depth only if no chain is short enough.
-/

namespace EntityGraph

open Normalize

/-! ## Algorithm -/

/-- `r` is a reference with arguments in the declaration of a visible field that can be resolved.
Templates are passed over: no field of theirs is ever resolved. -/
def Node.Requests (lookup : String → Option Node) (node : Node) (r : Reference) : Prop :=
  ∃ o, node = .object o ∧ o.isTemplate = false ∧ ∃ p ∈ o.visibleFields.entries, ∃ f,
    Resolution.resolve lookup o p.1 p.2 = .ok (.ok f) ∧ ∃ ty ∈ f.field.types, ty.applied? = some r

/-- An error that says what a name stands for, or that it stands for nothing. -/
inductive GraphError.OfNames : GraphError → Prop
  | missingEntity (name referencedBy location : String) :
      OfNames (.missingEntity name referencedBy location)
  | notAnObject (name : String) (kind : Node.Kind) (referencedBy location : String) :
      OfNames (.notAnObject name kind referencedBy location)
  | unexpectedKind (name : String) (kind : Node.Kind) : OfNames (.unexpectedKind name kind)

namespace Normalize

/-- A chain of `d` requests leads from an entry of the graph to the name.  All that request
something along the chain stand in the list of the loop. -/
inductive Loop.Chain (g : Graph) (l : Loop) : Nat → String → Prop
  | entry {p : String × Node} : p ∈ g.entities.entries → Chain g l 0 p.1
  | request {d : Nat} {name : String} {node : Node} {r : Reference} : Chain g l d name →
      (name, node) ∈ l.list → node.Requests (lookup g l.state) r → Chain g l (d + 1) r.escapedName

/-- What is requested stands in the list at most one request further away than what requests it, and
all that has been made has been requested. -/
structure Layered (g : Graph) (st : State) : Prop where
  names : ((worklist g st).map (·.name)).Nodup
  made : ∀ p ∈ st.instances.entries, ∃ e ∈ worklist g st, ∃ r,
    e.node.Requests (lookup g st) r ∧ Makes g e.depth r p
  near : ∀ e ∈ worklist g st, ∀ r, e.node.Requests (lookup g st) r →
    ∀ x ∈ worklist g st, x.name = r.escapedName → x.depth ≤ e.depth + 1

/-! ## Lemmas -/

variable {g : Graph} {h : List Visit} {st st' mid : State} {e : Entry} {r : Report} {l : Loop}
  {pre pending : List Request} {q : Request} {name : String} {d D : Nat}

theorem requests_node_iff {lookup : String → Option Node} {node : Node} {ref : Reference}
    (hr : report lookup name node = .ok r) :
    node.Requests lookup ref ↔ ∃ q ∈ r.requests, q.reference = ref := by
  constructor
  · rintro ⟨o, rfl, ho, p, hp, f, hf, hty⟩
    obtain ⟨resolved, reports, hres, rfl⟩ := (report_object_ok_iff ho).mp hr
    exact mem_objectReport_requests.mpr ⟨f, (Resolution.mem_resolveAll hres).mpr ⟨p, hp, hf⟩, hty⟩
  · rintro ⟨q, hq, href⟩
    obtain ⟨o, rfl, ho⟩ := object_of_mem_requests hr hq
    obtain ⟨resolved, reports, hres, rfl⟩ := (report_object_ok_iff ho).mp hr
    obtain ⟨f, hf, hty⟩ := mem_objectReport_requests.mp ⟨q, hq, href⟩
    obtain ⟨p, hp, hone⟩ := (Resolution.mem_resolveAll hres).mp hf
    exact ⟨o, rfl, ho, p, hp, f, hone, hty⟩

/-! ### The layers of the list -/

section

variable {qs : List Request} (hc : Consistent g h st) (hbelow : VisitedBelow g h st D)
  (hgrows : Grows g D qs st st')

include hc hgrows

theorem report_of_grows {v : Visit} (hv : v ∈ h) :
    report (lookup g st') v.entry.name v.entry.node = .ok v.report := by
  obtain ⟨new, hnew, -⟩ := hgrows.instances
  exact report_mono (extends_of_append hnew) (hc.reported v hv)

include hbelow

/-- What an entry above the depth `D` requests, it has requested when it was visited. -/
theorem exists_visit_of_requests {x : Entry} (hx : x ∈ worklist g st') (hlt : x.depth < D)
    {ref : Reference} (href : x.node.Requests (lookup g st') ref) :
    ∃ v ∈ h, v.entry = x ∧ ∃ q ∈ v.report.requests, q.reference = ref := by
  obtain ⟨later, hlist, hlater⟩ := hgrows.worklist
  have hold : x ∈ worklist g st := by
    rw [hlist] at hx
    rcases List.mem_append.mp hx with hx | hx
    · exact hx
    · have := hlater x hx
      omega
  obtain ⟨v, hv, rfl⟩ := hbelow x hold hlt
  exact ⟨v, hv, rfl, (requests_node_iff (report_of_grows hc hgrows hv)).mp href⟩

/-- Granting requests of one depth keeps the list in layers, once what stands above that depth has
been visited. -/
theorem layered_of_grows (hnear : ∀ x ∈ worklist g st, x.depth ≤ D + 1)
    (hqs : ∀ q ∈ qs, ∃ e ∈ worklist g st, e.depth = D ∧
      e.node.Requests (lookup g st') q.reference) : Layered g st' := by
  obtain ⟨new, hnew, hmade⟩ := hgrows.instances
  obtain ⟨later, hlist, hlater⟩ := hgrows.worklist
  have hmem : ∀ x ∈ worklist g st, x ∈ worklist g st' := fun x hx =>
    hlist ▸ List.mem_append_left _ hx
  have hle : ∀ x ∈ worklist g st', x.depth ≤ D + 1 := by
    intro x hx
    rw [hlist] at hx
    rcases List.mem_append.mp hx with hx | hx
    · exact hnear x hx
    · exact Nat.le_of_eq (hlater x hx)
  have hall : ∀ p ∈ st'.instances.entries, ∃ e ∈ worklist g st', ∃ r,
      e.node.Requests (lookup g st') r ∧ Makes g e.depth r p := by
    intro p hp
    rw [hnew] at hp
    rcases List.mem_append.mp hp with hp | hp
    · obtain ⟨v, hv, q, hq, hmakes⟩ := hc.made p hp
      have hrequests := (requests_node_iff (report_of_grows hc hgrows hv)).mpr ⟨q, hq, rfl⟩
      exact ⟨v.entry, hmem _ (hc.mem_worklist hv), q.reference, hrequests, hmakes⟩
    · obtain ⟨q, hq, hmakes⟩ := hmade p hp
      obtain ⟨e, he, rfl, hrequests⟩ := hqs q hq
      exact ⟨e, hmem e he, q.reference, hrequests, hmakes⟩
  have hfree : ∀ p ∈ st'.instances.entries, g.contains p.1 = false := by
    intro p hp
    obtain ⟨e, -, r, -, hmakes⟩ := hall p hp
    exact hmakes.free
  refine ⟨nodup_names_worklist hfree, hall, fun e he ref href x hx hname => ?_⟩
  rcases Nat.lt_or_ge e.depth D with hlt | hge
  · -- all that an entry above the depth `D` requests is on record
    obtain ⟨v, hv, rfl, q, hq, rfl⟩ := exists_visit_of_requests hc hbelow hgrows he hlt href
    rcases mem_worklist_iff.mp hx with ⟨p, -, rfl⟩ | ⟨p, hp, rfl⟩
    · exact Nat.zero_le _
    · obtain ⟨-, i, hi, -⟩ := hc.granted v hv q hq
      have hi' : (q.reference.escapedName, i) ∈ st'.instances.entries :=
        hnew ▸ List.mem_append_left _ (Dict.find?_eq_some_iff.mp hi)
      have hp' := Dict.find?_eq_some_iff.mpr hp
      rw [show p.1 = _ from hname, Dict.find?_eq_some_iff.mpr hi'] at hp'
      have hsame : i = p.2 := Option.some.inj hp'
      exact hc.prompt v hv q hq p.2 (hsame ▸ hi)
  · exact Nat.le_trans (hle x hx) (Nat.succ_le_succ hge)

end

theorem Within.reported_mid (hw : Within g h st e r pre pending mid) :
    report (lookup g mid) e.name e.node = .ok r := by
  obtain ⟨new, hnew, -⟩ := hw.grows.instances
  exact report_mono (extends_of_append hnew) hw.reported

theorem Within.layered (hw : Within g h st e r pre pending mid) : Layered g mid := by
  have hc := hw.run.consistent
  refine layered_of_grows hc (hc.visitedBelow hw.next) hw.grows (hc.near e hw.next) ?_
  intro q hq
  have hmem : q ∈ r.requests := hw.requests ▸ List.mem_append_left _ hq
  have hrequests := (requests_node_iff hw.reported_mid).mpr ⟨q, hmem, rfl⟩
  exact ⟨e, List.mem_of_getElem? hw.next, rfl, hrequests⟩

theorem Run.layered (hrun : Run g h st) : Layered g st := by
  have hc := hrun.consistent
  have hnothing : ∀ D, ∀ q ∈ ([] : List Request), ∃ e ∈ worklist g st, e.depth = D ∧
      e.node.Requests (lookup g st) q.reference := by simp
  cases he : (worklist g st)[h.length]? with
  | some e =>
    exact layered_of_grows hc (hc.visitedBelow he) (Grows.refl st) (hc.near e he) (hnothing _)
  | none =>
    have hbelow := (hc.complete he).visitedBelow maxDepth
    refine layered_of_grows hc hbelow (Grows.refl st) (fun x hx => ?_) (hnothing _)
    exact Nat.le_succ_of_le (hc.depth_le x hx)

theorem sorted_of_reachable (hl : Loop.Reachable g l) :
    (worklist g l.state).Pairwise (·.depth ≤ ·.depth) := by
  rcases hl.cases with ⟨h, st, hrun, rfl⟩ | ⟨h, st, e, r, pre, pending, mid, hw, rfl⟩
  · exact hrun.consistent.sorted
  · have hgrows : Grows g e.depth { r with requests := pre }.requests st mid := hw.grows
    exact hw.run.consistent.sorted_of_grows hgrows hw.next

theorem layered_of_reachable (hl : Loop.Reachable g l) : Layered g l.state := by
  rcases hl.cases with ⟨h, st, hrun, rfl⟩ | ⟨h, st, e, r, pre, pending, mid, hw, rfl⟩
  · exact hrun.layered
  · exact hw.layered

theorem list_of_reachable (hl : Loop.Reachable g l) : l.list = listed g l.state := by
  rcases hl.cases with ⟨h, st, hrun, rfl⟩ | ⟨h, st, e, r, pre, pending, mid, hw, rfl⟩ <;> rfl

theorem mem_list_iff (hl : Loop.Reachable g l) {p : String × Node} :
    p ∈ l.list ↔ ∃ e ∈ worklist g l.state, (e.name, e.node) = p := by
  rw [list_of_reachable hl, listed_eq_worklist, List.mem_map]

/-! ### Depths and chains -/

theorem depth_le_of_chain (hl : Loop.Reachable g l) (hchain : l.Chain g d name)
    (he : e ∈ worklist g l.state) (hname : e.name = name) : e.depth ≤ d := by
  have hlayered := layered_of_reachable hl
  induction hchain generalizing e with
  | @entry p hp =>
    have heq := List.inj_on_of_nodup_map hlayered.names he (mem_worklist_of_graph hp) hname
    rw [heq]
    exact Nat.le_refl 0
  | request _ hnode hr ih =>
    obtain ⟨x, hx, hxnode⟩ := (mem_list_iff hl).mp hnode
    cases hxnode
    exact Nat.le_trans (hlayered.near x hx _ hr e he hname) (Nat.succ_le_succ (ih hx rfl))

theorem chain_of_mem_worklist (hl : Loop.Reachable g l) (he : e ∈ worklist g l.state) :
    l.Chain g e.depth e.name := by
  induction hd : e.depth using Nat.strongRecOn generalizing e with
  | ind d ih =>
    subst hd
    rcases mem_worklist_iff.mp he with ⟨p, hp, rfl⟩ | ⟨p, hp, rfl⟩
    · exact .entry hp
    · obtain ⟨x, hx, r, hr, hmakes⟩ := (layered_of_reachable hl).made p hp
      have hlt : x.depth < p.2.depth := by
        rw [hmakes.depth_eq]
        exact Nat.lt_succ_self _
      have hchain := ih x.depth hlt hx rfl
      simp only [instanceEntry, hmakes.name, hmakes.depth_eq]
      exact .request hchain ((mem_list_iff hl).mpr ⟨x, hx, rfl⟩) hr

/-- The depth on record is the length of a shortest chain. -/
theorem isLeast_depth (hl : Loop.Reachable g l) (he : e ∈ worklist g l.state) :
    IsLeast {d | l.Chain g d e.name} e.depth :=
  ⟨chain_of_mem_worklist hl he, fun _ hchain => depth_le_of_chain hl hchain he rfl⟩

/-! ### Requests that are refused for their depth -/

/-- A request is refused for its depth if it needs a new instantiation, which would be too deep. -/
theorem fresh_of_expansion {template generic referencedBy location : String} {depth limit : Nat}
    (hq : grant g depth st q =
      .error (.expansion template generic referencedBy limit location)) :
    (∃ t, lookup g st q.reference.name = some (.object t) ∧ t.name = template) ∧
      q.reference.genericName = generic ∧ limit = maxDepth ∧
      g.contains q.reference.escapedName = false ∧
      st.instances.find? q.reference.escapedName = none ∧ maxDepth < depth + 1 := by
  rw [grant, Except.bind_eq_error_iff] at hq
  rcases hq with hq | ⟨t, ht, hq⟩
  · -- a name that is no object's is another error
    unfold Normalize.template at hq
    split at hq <;> cases hq
  · dsimp only at hq
    split at hq
    · cases hq
    · next hfree =>
      split at hq
      · split at hq <;> cases hq
      · next hfresh =>
        split at hq
        · next hdeep =>
          cases hq
          exact ⟨⟨t, template_ok_iff.mp ht, rfl⟩, rfl, rfl, by simpa using hfree, hfresh, hdeep⟩
        · rcases Except.bind_eq_error_iff.mp hq with hq | ⟨o, -, hq⟩
          · unfold Object.instantiate at hq
            dsimp only at hq
            split at hq <;> cases hq
          · cases hq

section

variable {lookup : String → Option Node} {o : Object} {err : GraphError}

theorem ofNames_of_search {key : String} {names : List String}
    (h : Resolution.search lookup o key names = .error err) : err.OfNames := by
  induction names with
  | nil => cases h
  | cons name rest ih =>
    rw [Resolution.search] at h
    split at h
    · cases h
      exact .missingEntity ..
    · split at h
      · cases h
      · exact ih h
    · cases h
      exact .notAnObject ..

theorem ofNames_of_resolve {key : String} {v : VisibleField}
    (h : Resolution.resolve lookup o key v = .error err) : err.OfNames := by
  unfold Resolution.resolve at h
  split at h
  · cases h
  · rcases Except.bind_eq_error_iff.mp h with h | ⟨x, -, h⟩
    · exact ofNames_of_search h
    · split at h <;> cases h

theorem ofNames_of_resolveAll {vs : List (String × VisibleField)}
    (h : Resolution.resolveAll lookup o vs = .error err) : err.OfNames := by
  induction vs with
  | nil => cases h
  | cons p rest ih =>
    rw [Resolution.resolveAll] at h
    rcases Except.bind_eq_error_iff.mp h with h | ⟨one, -, h⟩
    · exact ofNames_of_resolve h
    · rcases Except.bind_eq_error_iff.mp h with h | ⟨x, -, h⟩
      · exact ih h
      · cases one <;> cases h

/-- Before any request is granted, an entry fails for what its names stand for. -/
theorem ofNames_of_report {node : Node} (h : report lookup name node = .error err) :
    err.OfNames := by
  cases node with
  | object o =>
    rw [report] at h
    split at h
    · cases h
    · rcases Except.bind_eq_error_iff.mp h with h | ⟨x, -, h⟩
      · exact ofNames_of_resolveAll h
      · cases h
  | scalar s => cases h
  | enumeration e => cases h
  | union u => cases h
  | list element hooks => cases h; exact .unexpectedKind ..
  | reference r => cases h; exact .unexpectedKind ..
  | field f => cases h; exact .unexpectedKind ..

end

/-- What has been visited for sure requests nothing that is not on record. -/
theorem Within.find?_of_requests (hw : Within g h st e r pre pending mid) {x : Entry}
    (hx : x ∈ worklist g mid) (hlt : x.depth < e.depth) {ref : Reference}
    (href : x.node.Requests (lookup g mid) ref) :
    ∃ i, mid.instances.find? ref.escapedName = some i := by
  have hc := hw.run.consistent
  obtain ⟨v, hv, -, q, hq, rfl⟩ :=
    exists_visit_of_requests hc (hc.visitedBelow hw.next) hw.grows hx hlt href
  obtain ⟨new, hnew, -⟩ := hw.grows.instances
  obtain ⟨-, i, hi, -⟩ := (hc.granted v hv q hq).mono hnew
  exact ⟨i, hi⟩

/-- No short chain leads to what is requested of an entry at the greatest depth and is new. -/
theorem Within.no_chain (hw : Within g h st e r pre (q :: pending) mid)
    (hfree : g.contains q.reference.escapedName = false)
    (hfresh : mid.instances.find? q.reference.escapedName = none) (hdeep : maxDepth < e.depth + 1)
    (hd : d ≤ maxDepth) :
    ¬ (within g h e r (q :: pending) mid).Chain g d q.reference.escapedName := by
  have hl := Loop.reachable_within (Loop.reachable_between hw.run) hw
  intro hchain
  generalize hname : q.reference.escapedName = name at hchain
  cases hchain with
  | entry hp =>
    exact Dict.contains_eq_false_iff.mp hfree (hname ▸ Assoc.mem_keys_of_mem hp)
  | request hchain hnode href =>
    obtain ⟨x, hx, hxnode⟩ := (mem_list_iff hl).mp hnode
    cases hxnode
    have hle := depth_le_of_chain hl hchain hx rfl
    obtain ⟨i, hi⟩ := hw.find?_of_requests hx (by omega) href
    rw [← hname, hfresh] at hi
    cases hi

/-- Nor does one in the graph itself, if its names are known and no list of arguments is empty. -/
theorem Within.not_requested (hw : Within g h st e r pre (q :: pending) mid) (hclosed : g.Closed)
    (hfull : g.Full) (hfresh : mid.instances.find? q.reference.escapedName = none)
    (hd : d < e.depth) {ref : Reference} (href : g.Requested d ref) :
    ref.escapedName ≠ q.reference.escapedName := by
  intro hname
  have hc := hw.run.consistent
  obtain ⟨new, hnew, -⟩ := hw.grows.instances
  obtain ⟨-, i, hi, -⟩ :=
    (granted_of_requested hfull hclosed hc (hc.visitedBelow hw.next) href hd).mono hnew
  rw [hname, hfresh] at hi
  cases hi

end Normalize

/-- **Depth is distance.**  At any time the depths on record are the lengths of shortest chains of
requests, and what has been made stands in their order.  If normalization gives up because an
instantiation is too deep, then no chain within the limit leads to it.

All this holds of every graph, and so in whatever order its entries and their fields are listed.  If
no list of arguments is empty, and objects inherit from entries only, then it is one instantiation
that no order has within reach. -/
theorem Graph.depth_isLeast (g : Graph) :
    (∀ l, Loop.Reachable g l →
      (l.state.instances.entries.Pairwise fun p p' => p.2.depth ≤ p'.2.depth) ∧
      ∀ name i, l.state.instances.find? name = some i →
        1 ≤ i.depth ∧ i.depth ≤ maxDepth ∧ IsLeast {d | l.Chain g d name} i.depth) ∧
    ∀ template generic referencedBy limit location,
      g.normalize = .error (.expansion template generic referencedBy limit location) →
      ∃ l name node r t, Loop.Reachable g l ∧
        l.step g = .error (.expansion template generic referencedBy limit location) ∧
        (name, node) ∈ l.list ∧ node.Requests (lookup g l.state) r ∧
        r.genericName = generic ∧ lookup g l.state r.name = some (.object t) ∧ t.name = template ∧
        (∀ d ≤ maxDepth, ¬ l.Chain g d r.escapedName) ∧
        (g.Closed → g.Full → ∀ g', g.Rearranged g' → ∀ d < maxDepth, ∀ r', g'.Requested d r' →
          r'.escapedName ≠ r.escapedName) := by
  constructor
  · intro l hl
    have hsorted := sorted_of_reachable hl
    rw [worklist, List.pairwise_append, List.pairwise_map, List.pairwise_map] at hsorted
    refine ⟨hsorted.2.1, fun name i hi => ?_⟩
    have hmem := Dict.find?_eq_some_iff.mp hi
    obtain ⟨e, -, r, -, hmakes⟩ := (layered_of_reachable hl).made _ hmem
    have hpos : 1 ≤ i.depth := by
      rw [show i.depth = _ from hmakes.depth_eq]
      exact Nat.succ_pos _
    exact ⟨hpos, hmakes.depth_le, isLeast_depth hl (mem_worklist_of_instances hmem)⟩
  · intro template generic referencedBy limit location hn
    rcases (normalize_error hn).cases with
      ⟨h, st, e, -, -, hr⟩ | ⟨h, st, e, r, pre, q, pending, mid, hw, hq⟩
    · cases ofNames_of_report hr
    · obtain ⟨⟨t, ht, htname⟩, hgeneric, -, hfree, hfresh, hdeep⟩ := fresh_of_expansion hq
      have hl := Loop.reachable_within (Loop.reachable_between hw.run) hw
      have hmem : e ∈ worklist g mid := by
        obtain ⟨new, hnew, -⟩ := hw.grows.worklist
        exact hnew ▸ List.mem_append_left _ (List.mem_of_getElem? hw.next)
      have hrequests : q ∈ r.requests := by simp [hw.requests]
      refine ⟨_, e.name, e.node, q.reference, t, hl, ?_, (mem_list_iff hl).mpr ⟨e, hmem, rfl⟩,
        (requests_node_iff hw.reported_mid).mpr ⟨q, hrequests, rfl⟩, hgeneric, ht, htname,
        fun d hd => hw.no_chain hfree hfresh hdeep hd, ?_⟩
      · rw [Loop.step_within_cons, hq]
        rfl
      · intro hclosed hfull g' hg' d hd r' hr'
        exact hw.not_requested hclosed hfull hfresh (by omega) (hg'.symm.requested hr')

/-- A template that uses itself for lists of its parameter, and a use of it. -/
def Graph.growing : Graph :=
  let next : Field := .both "Nest" "next" 0 (.generic "Nest" [.list (.named "T" none) .none] none)
  let first : Field := .both "User" "first" 0 (.generic "Nest" [.named "Item" none] none)
  ⟨⟨[("Nest", .object { (Object.named "Nest").withField next false with generics := some ["T"] }),
    ("User", .object ((Object.named "User").withField first false))], by decide⟩⟩

set_option maxRecDepth 2000 in
theorem Graph.normalize_growing : ∃ template generic referencedBy limit location,
    growing.normalize = .error (.expansion template generic referencedBy limit location) :=
  ⟨_, _, _, _, _, rfl⟩

/-- The first instantiation is one request away, and no 32 requests lead to the one that is refused,
in whatever order the entries are listed. -/
theorem Graph.depth_isLeast_growing :
    (∃ l i, Loop.Reachable growing l ∧ l.state.instances.find? "Nest_Item" = some i ∧
      i.depth = 1 ∧ IsLeast {d | l.Chain growing d "Nest_Item"} i.depth) ∧
    ∃ (l : Loop) (r : Reference), Loop.Reachable growing l ∧
      (∀ d ≤ maxDepth, ¬ l.Chain growing d r.escapedName) ∧
      ∀ d < maxDepth, ∀ r', growing.reversed.Requested d r' →
        r'.escapedName ≠ r.escapedName := by
  constructor
  · obtain ⟨l, i, hl, hi, hdepth⟩ : ∃ l i, Loop.Reachable growing l ∧
        l.state.instances.find? "Nest_Item" = some i ∧ i.depth = 1 :=
      ⟨_, _, .step (.step (.step (.step .start rfl) rfl) rfl) rfl, rfl, rfl⟩
    exact ⟨l, i, hl, hi, hdepth, (((depth_isLeast growing).1 l hl).2 "Nest_Item" i hi).2.2⟩
  · obtain ⟨template, generic, referencedBy, limit, location, hn⟩ := normalize_growing
    obtain ⟨l, -, -, r, -, hl, -, -, -, -, -, -, hchain, horder⟩ :=
      (depth_isLeast growing).2 template generic referencedBy limit location hn
    have hperm : growing.entities.entries.Perm growing.reversed.entities.entries :=
      (List.reverse_perm _).symm
    exact ⟨l, r, hl, hchain, horder (by decide) (by decide) _ (rearranged_of_perm hperm)⟩

end EntityGraph
