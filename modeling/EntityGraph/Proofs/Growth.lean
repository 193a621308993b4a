import EntityGraph.Proofs.Loop
import EntityGraph.Proofs.Reach
import EntityGraph.Proofs.Shown
import Mathlib.Algebra.BigOperators.Ring.Finset
import Mathlib.Algebra.Group.Action.Defs
import Mathlib.Algebra.Order.BigOperators.Group.Finset
import Mathlib.Algebra.Order.BigOperators.Group.List

/-!
# How long the list gets

A visible field requests three instantiations at most: for the type of its input, for its parameter
and for the type of its output.  An instantiation has the visible fields of its template.  So the
entries of one depth request no more than `3 * V` times as many of the next, if no object of the
graph has more than `V` visible fields, and there are `maxDepth + 1` depths in all.

    l.list.length ≤ g.size * ∑ d ∈ Finset.range (maxDepth + 1), (3 * V) ^ d   (length_list_le)
-/

namespace EntityGraph

namespace Normalize

/-! ## Algorithm -/

/-- The number of entries of the list that are `d` requests away from the graph. -/
def layerSize (g : Graph) (st : State) (d : Nat) : Nat :=
  ((worklist g st).map (·.depth)).count d

/-- What the visits `h`, the last of which may still be going on, have to do with what has been
made: each of them requests `k` instantiations at most, and all have been made for one of them. -/
structure Fed (g : Graph) (h : List Visit) (st : State) (k : Nat) : Prop where
  visited : h.map (·.entry) <+: worklist g st
  made : ∀ p ∈ st.instances.entries, ∃ v ∈ h, ∃ q ∈ v.report.requests,
    Makes g v.entry.depth q.reference p
  few : ∀ v ∈ h, v.report.requests.length ≤ k

/-! ## Lemmas -/

variable {g : Graph} {h : List Visit} {st mid : State} {e : Entry} {r : Report} {l : Loop}
  {pre pending : List Request} {o : Object} {k V : Nat}

/-! ### The requests of an entry -/

theorem length_flatMap_le {α β : Type} {f : α → List β} {l : List α}
    (h : ∀ a ∈ l, (f a).length ≤ k) : (l.flatMap f).length ≤ k * l.length := by
  have hsum : ∀ n ∈ l.map fun a => (f a).length, n ≤ k := by
    intro n hn
    obtain ⟨a, ha, rfl⟩ := List.mem_map.mp hn
    exact h a ha
  have hle := List.sum_le_card_nsmul _ k hsum
  rw [List.length_map, smul_eq_mul, Nat.mul_comm] at hle
  rwa [List.length_flatMap]

theorem length_requests_le (o : Object) (f : ResolvedField) : (requests o f).length ≤ 3 := by
  have hone : ∀ {α : Type} (x : Option α), x.toList.length ≤ 1 := by
    intro α x
    cases x <;> simp
  simp only [requests, List.length_append]
  exact Nat.add_le_add (Nat.add_le_add (hone _) (hone _)) (hone _)

theorem length_resolveAll_le {lookup : String → Option Node} {vs : List (String × VisibleField)}
    {fields : List ResolvedField} {reports : List Diagnostic}
    (h : Resolution.resolveAll lookup o vs = .ok (fields, reports)) :
    fields.length ≤ vs.length := by
  induction vs generalizing fields reports with
  | nil => cases h; exact Nat.le_refl _
  | cons p rest ih =>
    obtain ⟨one, fs, ds, -, hrest, hx⟩ := Resolution.resolveAll_cons_ok_iff.mp h
    have hle := ih hrest
    cases one <;> cases hx <;> simp only [List.length_cons] <;> omega

/-- An object requests three instantiations for each visible field at most. -/
theorem length_requests_report_le {lookup : String → Option Node} {name : String}
    (hr : report lookup name (.object o) = .ok r) :
    r.requests.length ≤ 3 * o.visibleFields.size := by
  cases ho : o.isTemplate with
  | true =>
    rw [report_template ho] at hr
    cases hr
    exact Nat.zero_le _
  | false =>
    obtain ⟨resolved, reports, hres, rfl⟩ := (report_object_ok_iff ho).mp hr
    have hfields : resolved.length ≤ o.visibleFields.size := length_resolveAll_le hres
    calc (objectReport name o resolved reports).requests.length
        ≤ 3 * (FieldOrder.arrange o resolved).length :=
          length_flatMap_le fun f _ => length_requests_le o f
      _ = 3 * resolved.length := by rw [(FieldOrder.arrange_perm o resolved).length_eq]
      _ ≤ 3 * o.visibleFields.size := Nat.mul_le_mul_left 3 hfields

/-- An instantiation exposes what its template does. -/
theorem visibleFields_le (hV : g.AllObjects (·.visibleFields.size ≤ V)) (hc : Consistent g h st)
    (he : e ∈ worklist g st) : e.node.IfObject (·.visibleFields.size ≤ V) := by
  rcases mem_worklist_iff.mp he with ⟨p, hp, rfl⟩ | ⟨p, hp, rfl⟩
  · exact hV p hp
  · obtain ⟨v, -, q, -, hmade⟩ := hc.made p hp
    obtain ⟨t, ht, hinst⟩ := hmade.made
    have htemplate : t.visibleFields.size ≤ V := hV.find? ht
    simp only [instanceEntry, (Object.instantiate_ok_iff.mp hinst).2]
    exact htemplate

theorem length_requests_le_of_mem (hV : g.AllObjects (·.visibleFields.size ≤ V))
    (hc : Consistent g h st) (he : e ∈ worklist g st) {lookup : String → Option Node}
    (hr : report lookup e.name e.node = .ok r) : r.requests.length ≤ 3 * V := by
  have hfields := visibleFields_le hV hc he
  rcases List.eq_nil_or_concat r.requests with hnil | ⟨qs, q, hqs⟩
  · rw [hnil]
    exact Nat.zero_le _
  · have hq : q ∈ r.requests := by simp [hqs]
    obtain ⟨o, hnode, -⟩ := object_of_mem_requests hr hq
    rw [hnode] at hr hfields
    have hle := length_requests_report_le hr
    have hsize : o.visibleFields.size ≤ V := hfields
    omega

/-! ### One depth after the other -/

theorem layerSize_zero (hmade : ∀ p ∈ st.instances.entries, 0 < p.2.depth) :
    layerSize g st 0 = g.size := by
  have hgraph : (g.entities.entries.map graphEntry).map (·.depth) =
      List.replicate g.size 0 := by
    rw [List.map_map, List.eq_replicate_iff]
    refine ⟨by rw [List.length_map]; rfl, fun n hn => ?_⟩
    obtain ⟨p, -, rfl⟩ := List.mem_map.mp hn
    rfl
  have hinstances : ((st.instances.entries.map instanceEntry).map (·.depth)).count 0 = 0 := by
    rw [List.count_eq_zero, List.map_map]
    intro hmem
    obtain ⟨p, hp, hzero⟩ := List.mem_map.mp hmem
    exact Nat.ne_of_gt (hmade p hp) hzero
  rw [layerSize, worklist, List.map_append, List.count_append, hgraph, hinstances,
    List.count_replicate_self, Nat.add_zero]

theorem layerSize_succ (g : Graph) (st : State) (d : Nat) : layerSize g st (d + 1) =
    (st.instances.entries.filter (·.2.depth = d + 1)).length := by
  have hgraph : ((g.entities.entries.map graphEntry).map (·.depth)).count (d + 1) = 0 := by
    rw [List.count_eq_zero, List.map_map]
    intro hmem
    obtain ⟨p, -, hsucc⟩ := List.mem_map.mp hmem
    cases hsucc
  rw [layerSize, worklist, List.map_append, List.count_append, hgraph, Nat.zero_add,
    List.map_map, List.count, List.countP_map, List.countP_eq_length_filter]
  congr 2

/-- The entries of one depth have at most `k` times as many behind them. -/
theorem layerSize_succ_le (hfed : Fed g h st k) (d : Nat) :
    layerSize g st (d + 1) ≤ k * layerSize g st d := by
  let made := st.instances.entries.filter (·.2.depth = d + 1)
  let visits := h.filter (·.entry.depth = d)
  let requested := visits.flatMap fun v => v.report.requests.map (·.reference.escapedName)
  have hnodup : (made.map Prod.fst).Nodup :=
    (List.filter_sublist.map Prod.fst).nodup st.instances.nodup
  have hsubset : made.map Prod.fst ⊆ requested := by
    intro name hname
    obtain ⟨p, hp, rfl⟩ := List.mem_map.mp hname
    obtain ⟨hp, hdepth⟩ := List.mem_filter.mp hp
    obtain ⟨v, hv, q, hq, hmakes⟩ := hfed.made p hp
    have hd : v.entry.depth = d := by
      have := hmakes.depth_eq
      simp only [decide_eq_true_eq] at hdepth
      omega
    refine List.mem_flatMap.mpr ⟨v, List.mem_filter.mpr ⟨hv, by simpa using hd⟩, ?_⟩
    rw [hmakes.name]
    exact List.mem_map_of_mem hq
  have hfew : requested.length ≤ k * visits.length := by
    refine length_flatMap_le fun v hv => ?_
    rw [List.length_map]
    exact hfed.few v (List.mem_of_mem_filter hv)
  have hvisits : visits.length ≤ layerSize g st d := by
    have hsub := (hfed.visited.sublist.map (·.depth)).count_le d
    rw [List.map_map, List.count, List.countP_map, List.countP_eq_length_filter] at hsub
    refine Nat.le_trans (Nat.le_of_eq ?_) hsub
    congr 2
  calc layerSize g st (d + 1) = (made.map Prod.fst).length := by
        rw [layerSize_succ, List.length_map]
    _ ≤ requested.length := (hnodup.subperm hsubset).length_le
    _ ≤ k * visits.length := hfew
    _ ≤ k * layerSize g st d := Nat.mul_le_mul_left k hvisits

theorem layerSize_le (hfed : Fed g h st k) (d : Nat) :
    layerSize g st d ≤ g.size * k ^ d := by
  induction d with
  | zero =>
    have hpos : ∀ p ∈ st.instances.entries, 0 < p.2.depth := by
      intro p hp
      obtain ⟨v, -, q, -, hmakes⟩ := hfed.made p hp
      rw [hmakes.depth_eq]
      exact Nat.succ_pos _
    rw [layerSize_zero hpos, Nat.pow_zero, Nat.mul_one]
  | succ d ih =>
    calc layerSize g st (d + 1) ≤ k * layerSize g st d := layerSize_succ_le hfed d
      _ ≤ k * (g.size * k ^ d) := Nat.mul_le_mul_left k ih
      _ = g.size * k ^ (d + 1) := by rw [Nat.pow_succ]; ac_rfl

/-- A list is as long as its layers are together. -/
theorem length_worklist_le (hfed : Fed g h st k) :
    (worklist g st).length ≤ g.size * ∑ d ∈ Finset.range (maxDepth + 1), k ^ d := by
  have hdepth : ∀ n ∈ ((worklist g st).map (·.depth) : Multiset Nat),
      n ∈ Finset.range (maxDepth + 1) := by
    intro n hn
    obtain ⟨e, he, rfl⟩ := List.mem_map.mp (Multiset.mem_coe.mp hn)
    rw [Finset.mem_range]
    rcases mem_worklist_iff.mp he with ⟨p, -, rfl⟩ | ⟨p, hp, rfl⟩
    · exact Nat.succ_pos _
    · obtain ⟨v, -, q, -, hmakes⟩ := hfed.made p hp
      exact Nat.lt_succ_of_le hmakes.depth_le
  have hsum := Multiset.sum_count_eq_card hdepth
  rw [Multiset.coe_card, List.length_map] at hsum
  rw [← hsum, Finset.mul_sum]
  refine Finset.sum_le_sum fun d _ => ?_
  rw [Multiset.coe_count]
  exact layerSize_le hfed d

/-! ### The list of the loop -/

theorem Run.fed (hV : g.AllObjects (·.visibleFields.size ≤ V)) (hrun : Run g h st) :
    Fed g h st (3 * V) := by
  have hc := hrun.consistent
  exact ⟨hc.visited, hc.made, fun v hv =>
    length_requests_le_of_mem hV hc (hc.mem_worklist hv) (hc.reported v hv)⟩

/-- While an entry is being visited, it counts with the requests that have been granted. -/
theorem Within.fed (hV : g.AllObjects (·.visibleFields.size ≤ V))
    (hw : Within g h st e r pre pending mid) :
    Fed g (h ++ [⟨e, { r with requests := pre }⟩]) mid (3 * V) := by
  have hc := hw.run.consistent
  have hgrows : Grows g e.depth { r with requests := pre }.requests st mid := hw.grows
  obtain ⟨new, hnew, -⟩ := hgrows.worklist
  refine ⟨?_, hc.made_of_grows hgrows, fun v hv => ?_⟩
  · rw [List.map_append]
    refine (prefix_concat hc.visited ?_).trans ⟨new, hnew.symm⟩
    rw [List.length_map]
    exact hw.next
  · rcases List.mem_append.mp hv with hv | hv
    · exact (hw.run.fed hV).few v hv
    · cases List.mem_singleton.mp hv
      have hle := length_requests_le_of_mem hV hc (List.mem_of_getElem? hw.next) hw.reported
      rw [hw.requests, List.length_append] at hle
      exact Nat.le_trans (Nat.le_add_right _ _) hle

theorem length_list_le (hV : g.AllObjects (·.visibleFields.size ≤ V)) (hl : Loop.Reachable g l) :
    l.list.length ≤ g.size * ∑ d ∈ Finset.range (maxDepth + 1), (3 * V) ^ d := by
  have hlength : ∀ st, (listed g st).length = (worklist g st).length := by
    intro st
    rw [listed_eq_worklist, List.length_map]
  rcases hl.cases with ⟨h, st, hrun, rfl⟩ | ⟨h, st, e, r, pre, pending, mid, hw, rfl⟩
  · exact Nat.le_trans (Nat.le_of_eq (hlength st)) (length_worklist_le (hrun.fed hV))
  · exact Nat.le_trans (Nat.le_of_eq (hlength mid)) (length_worklist_le (hw.fed hV))

end Normalize

open Normalize

/-- **The list is worked off.**  It stays within a bound on every graph, the loop ends with what
normalization comes to, and a success has taken the entries of the graph and then all
instantiations, each once and under a name of its own. -/
theorem Graph.loop_drains (g : Graph) :
    (∀ V, g.AllObjects (·.visibleFields.size ≤ V) → ∀ l, Loop.Reachable g l →
      l.list.length ≤ g.size * ∑ d ∈ Finset.range (maxDepth + 1), (3 * V) ^ d) ∧
    (∃ turns, (Loop.start g).run g turns = some g.normalize) ∧
    ∀ n, g.normalize = .ok n → ∃ l, Loop.Reachable g l ∧ l.step g = .ok none ∧
      l.state.result = n ∧ l.taken = l.list ∧ l.taken = n.entries g ∧
      (Assoc.keys l.taken).Nodup := by
  refine ⟨fun V hV l hl => length_list_le hV hl, run_eq_normalize g, fun n hn => ?_⟩
  obtain ⟨h, st, hrun, hcomplete, rfl, hl, hstep⟩ := exists_loop_of_normalize hn
  have hc := hrun.consistent
  have htaken : (between g h st).taken = listed g st := by
    rw [listed_eq_worklist, ← hcomplete, List.map_map]
    rfl
  have hentries : (between g h st).taken = st.result.entries g := by
    rw [htaken, listed_eq_worklist, entries_result hc]
  exact ⟨_, hl, hstep, rfl, htaken, hentries, hentries ▸ nodup_entries_result hc⟩

theorem Graph.loop_drains_pages :
    (∀ l, Loop.Reachable pages l → l.list.length ≤ 4 * ∑ d ∈ Finset.range 33, 3 ^ d) ∧
    ∃ n l, pages.normalize = .ok n ∧ Loop.Reachable pages l ∧ l.taken = n.entries pages := by
  obtain ⟨hlength, -, htaken⟩ := loop_drains pages
  have hV : pages.AllObjects (·.visibleFields.size ≤ 1) := by
    intro p hp
    decide +revert
  obtain ⟨n, hn⟩ : ∃ n, pages.normalize = .ok n := ⟨_, rfl⟩
  obtain ⟨l, hl, -, -, -, hlist, -⟩ := htaken n hn
  exact ⟨fun l hl => hlength 1 hV l hl, n, l, hn, hl, hlist⟩

end EntityGraph
