import EntityGraph.Proofs.Run

/-!
# Generations and runs

Normalization goes through the list generation by generation.  The entries of generation `d` are
those of depth `d`, and while they are visited the list only gets longer by entries of depth
`d + 1`, so each generation begins where the one before it ended.  Going through all of them ends
with a run that has visited the whole list, or with one that is stuck.

    g.normalize = .ok n    → ∃ h st, Run g h st ∧ Complete g h st ∧ n = st.result   (normalize_ok)
    g.normalize = .error e → Stuck g e                                          (normalize_error)
-/

namespace EntityGraph

namespace Normalize

/-! ## Algorithm -/

def entryAt (depth : Nat) (p : String × Node) : Entry := ⟨p.1, p.2, depth⟩

/-- Either a run ends in the state, with `P` of it, or one is stuck on the error. -/
def Outcome (g : Graph) (P : List Visit → State → Prop) : Except GraphError State → Prop
  | .ok st => ∃ h, Run g h st ∧ P h st
  | .error err => Stuck g err

/-- The list got longer by entries of the given depth, or stayed as it was. -/
def Longer (g : Graph) (depth : Nat) (st st' : State) : Prop :=
  ∃ new, worklist g st' = worklist g st ++ new ∧ ∀ e ∈ new, e.depth = depth

/-! ## Lemmas -/

variable {g : Graph} {h : List Visit} {st st' : State} {e : Entry}

theorem Outcome.bind {P Q : List Visit → State → Prop} {x : Except GraphError State}
    {f : State → Except GraphError State} (hx : Outcome g P x)
    (hf : ∀ h st, Run g h st → P h st → Outcome g Q (f st)) : Outcome g Q (x >>= f) := by
  cases x with
  | error err => exact hx
  | ok st =>
    obtain ⟨h, hrun, hp⟩ := hx
    exact hf h st hrun hp

theorem Longer.refl (depth : Nat) (st : State) : Longer g depth st st := ⟨[], by simp⟩

theorem Longer.trans {depth : Nat} {st'' : State} (hl : Longer g depth st st')
    (hl' : Longer g depth st' st'') : Longer g depth st st'' := by
  obtain ⟨new, hnew, hdepth⟩ := hl
  obtain ⟨new', hnew', hdepth'⟩ := hl'
  refine ⟨new ++ new', by rw [hnew', hnew, List.append_assoc], fun e he => ?_⟩
  exact (List.mem_append.mp he).elim (hdepth e) (hdepth' e)

theorem outcome_visit (hrun : Run g h st) (he : (worklist g st)[h.length]? = some e) :
    Outcome g (fun h' st' => h'.map (·.entry) = h.map (·.entry) ++ [e] ∧
      Longer g (e.depth + 1) st st') (visit g e.depth st e.name e.node) := by
  cases hvisit : visit g e.depth st e.name e.node with
  | error err => exact ⟨h, st, e, hrun, he, hvisit⟩
  | ok st' =>
    obtain ⟨r, granted, hr, hgrant, rfl⟩ := visit_ok_iff.mp hvisit
    have hgrows := grantAll_grows hrun.consistent.noTemplates hgrant
    exact ⟨h ++ [⟨e, r⟩], hrun.visit he hr hgrant, by simp, hgrows.worklist⟩

theorem outcome_visitAll {depth : Nat} {todo : List (String × Node)} {later : List Entry}
    (hrun : Run g h st)
    (hlist : worklist g st = h.map (·.entry) ++ todo.map (entryAt depth) ++ later) :
    Outcome g (fun h' st' => h'.map (·.entry) = h.map (·.entry) ++ todo.map (entryAt depth) ∧
      Longer g (depth + 1) st st') (visitAll g depth st todo) := by
  induction todo generalizing h st later with
  | nil => exact ⟨h, hrun, by simp, Longer.refl _ st⟩
  | cons p rest ih =>
    have he : (worklist g st)[h.length]? = some (entryAt depth p) := by
      rw [hlist, List.append_assoc, List.getElem?_append_right (by simp)]
      simp
    refine (outcome_visit hrun he).bind fun h' st' hrun' ⟨hvisited, hlonger⟩ => ?_
    obtain ⟨new, hnew, -⟩ := id hlonger
    have hlist' : worklist g st' =
        h'.map (·.entry) ++ rest.map (entryAt depth) ++ (later ++ new) := by
      rw [hnew, hlist, hvisited]
      simp
    have hout := ih hrun' hlist'
    rw [hvisited] at hout
    cases hrest : visitAll g depth st' rest with
    | error err => rwa [hrest] at hout
    | ok st'' =>
      rw [hrest] at hout
      obtain ⟨h'', hrun'', hvisited', hlonger'⟩ := hout
      exact ⟨h'', hrun'', by rw [hvisited']; simp, hlonger.trans hlonger'⟩

/-! ## The generations of a list -/

theorem Consistent.depth_pos (hc : Consistent g h st) :
    ∀ p ∈ st.instances.entries, 0 < p.2.depth := by
  intro p hp
  obtain ⟨v, -, q, -, hmade⟩ := hc.made p hp
  rw [hmade.depth_eq]
  exact Nat.succ_pos _

theorem Consistent.depth_le (hc : Consistent g h st) :
    ∀ e ∈ worklist g st, e.depth ≤ maxDepth := by
  intro e he
  rcases mem_worklist_iff.mp he with ⟨p, -, rfl⟩ | ⟨p, hp, rfl⟩
  · exact Nat.zero_le _
  · obtain ⟨v, -, q, -, hmade⟩ := hc.made p hp
    exact hmade.depth_le

/-- A generation is what stands in the list at its depth. -/
theorem generation_eq (hpos : ∀ p ∈ st.instances.entries, 0 < p.2.depth) (depth : Nat) :
    (generation g st depth).map (entryAt depth) =
      (worklist g st).filter (·.depth = depth) := by
  rw [worklist, List.filter_append]
  cases depth with
  | zero =>
    have hgraph : (g.entities.entries.map graphEntry).filter (·.depth = 0) =
        g.entities.entries.map graphEntry := by
      rw [List.filter_eq_self]
      intro e he
      obtain ⟨p, -, rfl⟩ := List.mem_map.mp he
      rfl
    have hinstances : (st.instances.entries.map instanceEntry).filter (·.depth = 0) = [] := by
      rw [List.filter_eq_nil_iff]
      intro e he
      obtain ⟨p, hp, rfl⟩ := List.mem_map.mp he
      have hne : p.2.depth ≠ 0 := Nat.ne_of_gt (hpos p hp)
      rwa [decide_eq_true_eq]
    rw [hgraph, hinstances, List.append_nil]
    rfl
  | succ depth =>
    have hgraph : (g.entities.entries.map graphEntry).filter (·.depth = depth + 1) = [] := by
      rw [List.filter_eq_nil_iff]
      intro e he
      obtain ⟨p, -, rfl⟩ := List.mem_map.mp he
      simp [graphEntry]
    rw [hgraph, List.nil_append, generation, List.filter_map, List.map_map]
    refine List.map_congr_left fun p hp => ?_
    have hdepth : p.2.depth = depth + 1 := by simpa using (List.mem_filter.mp hp).2
    simp [entryAt, instanceEntry, hdepth]

theorem outcome_generations {count depth : Nat} (hrun : Run g h st)
    (hlist : worklist g st = h.map (·.entry) ++ (generation g st depth).map (entryAt depth))
    (hdepth : ∀ v ∈ h, v.entry.depth < depth) (hcount : count + depth = maxDepth + 1) :
    Outcome g (Complete g) (generations g count depth st) := by
  induction count generalizing h st depth with
  | zero =>
    have hc := hrun.consistent
    have hnone : (generation g st depth).map (entryAt depth) = [] := by
      rw [generation_eq hc.depth_pos, List.filter_eq_nil_iff]
      intro e he
      have hle := hc.depth_le e he
      simp only [decide_eq_true_eq]
      omega
    exact ⟨h, hrun, by rw [Complete, hlist, hnone, List.append_nil]⟩
  | succ count ih =>
    have hall : worklist g st =
        h.map (·.entry) ++ (generation g st depth).map (entryAt depth) ++ [] := by
      rw [hlist, List.append_nil]
    refine (outcome_visitAll hrun hall).bind
      fun h' st' hrun' ⟨hvisited, new, hnew, hnewdepth⟩ => ?_
    have hle : ∀ e ∈ h'.map (·.entry), e.depth ≤ depth := by
      intro e he
      rw [hvisited] at he
      rcases List.mem_append.mp he with he | he
      · obtain ⟨v, hv, rfl⟩ := List.mem_map.mp he
        exact Nat.le_of_lt (hdepth v hv)
      · obtain ⟨p, -, rfl⟩ := List.mem_map.mp he
        exact Nat.le_refl _
    have hwork : worklist g st' = h'.map (·.entry) ++ new := by rw [hnew, hlist, hvisited]
    have hgen : (generation g st' (depth + 1)).map (entryAt (depth + 1)) = new := by
      have hold : (h'.map (·.entry)).filter (·.depth = depth + 1) = [] := by
        rw [List.filter_eq_nil_iff]
        intro e he
        have hled := hle e he
        simp only [decide_eq_true_eq]
        omega
      rw [generation_eq hrun'.consistent.depth_pos, hwork, List.filter_append, hold,
        List.nil_append, List.filter_eq_self]
      simpa using hnewdepth
    refine ih hrun' (by rw [hgen, hwork]) (fun v hv => ?_) (by omega)
    exact Nat.lt_succ_of_le (hle v.entry (List.mem_map_of_mem hv))

/-- **The generations of a graph make up a run.** -/
theorem outcome_normalize (g : Graph) :
    Outcome g (Complete g) (generations g (maxDepth + 1) 0 .empty) := by
  refine outcome_generations Run.start ?_ (by simp) rfl
  exact List.append_nil _

end Normalize

open Normalize

theorem Graph.normalize_ok {g : Graph} {n : Normalized} (hn : g.normalize = .ok n) :
    ∃ h st, Run g h st ∧ Complete g h st ∧ n = st.result := by
  have hout := outcome_normalize g
  unfold Graph.normalize at hn
  cases hgen : generations g (maxDepth + 1) 0 .empty with
  | error err =>
    rw [hgen] at hn
    cases hn
  | ok st =>
    rw [hgen] at hn hout
    cases hn
    obtain ⟨h, hrun, hcomplete⟩ := hout
    exact ⟨h, st, hrun, hcomplete, rfl⟩

theorem Graph.normalize_error {g : Graph} {err : GraphError} (hn : g.normalize = .error err) :
    Stuck g err := by
  have hout := outcome_normalize g
  unfold Graph.normalize at hn
  cases hgen : generations g (maxDepth + 1) 0 .empty with
  | error err' =>
    rw [hgen] at hn hout
    cases hn
    exact hout
  | ok st =>
    rw [hgen] at hn
    cases hn

/-- A graph with a template, and with a use of it that another template leads to. -/
def Graph.pages : Graph :=
  let items : Field := .both "Page" "items" 0 (.list (.named "T" none) .none)
  let pages : Field := .both "Book" "pages" 0 (.generic "Page" [.named "T" none] none)
  let books : Field := .both "User" "books" 0 (.generic "Book" [.named "Item" none] none)
  ⟨⟨[("Item", .scalar ⟨"Item", none⟩),
    ("Page", .object { (Object.named "Page").withField items false with generics := some ["T"] }),
    ("Book", .object { (Object.named "Book").withField pages false with generics := some ["T"] }),
    ("User", .object ((Object.named "User").withField books false))], by decide⟩⟩

example : (Graph.pages.normalize.map fun n => n.specializations.map (·.escapedName)).toOption =
    some ["Book_Item", "Page_Item"] := by decide

end EntityGraph
