import EntityGraph.Proofs.Generations
import Mathlib.Data.List.Induction

/-!
# The loop over the list

Normalization can be told without generations: a loop takes entry after entry from a list, has the
requests of each granted one by one, and puts what is made for them at the end of the list.  The
depth of an entry is the one on record under its name.  `Loop.step` is one turn.

The loop comes to an end on every graph, with what generation after generation comes to:

    ∃ turns, (Loop.start g).run g turns = some g.normalize                  (run_eq_normalize)

A state of the loop lies between two visits of a run, or within one (`Loop.Within`), and its list is
`listed`: the entries of the graph and behind them all that has been made so far.
-/

namespace EntityGraph

namespace Normalize

/-! ## Algorithm -/

/-- The depth on record under a name; the entries of the graph have none on record. -/
def State.depthOf (st : State) (name : String) : Nat :=
  ((st.instances.find? name).map (·.depth)).getD 0

def instanceNode (p : String × Instance) : String × Node := (p.1, .object p.2.object)

/-- What has been made since the first of the two states. -/
def made (st st' : State) : List (String × Node) :=
  (st'.instances.entries.drop st.instances.entries.length).map instanceNode

/-- An entry whose requests are being granted. -/
structure Turn where
  name : String
  depth : Nat
  report : Report
  /-- The requests that have not been granted yet. -/
  pending : List Request

structure Loop where
  list : List (String × Node)
  /-- The entries taken from the list so far. -/
  taken : List (String × Node)
  current : Option Turn
  state : State

namespace Loop

def start (g : Graph) : Loop := ⟨g.entities.entries, [], none, .empty⟩

/-- One turn of the loop; none is left when the whole list has been taken. -/
def step (g : Graph) (l : Loop) : Except GraphError (Option Loop) :=
  match l.current with
  | none =>
    match l.list[l.taken.length]? with
    | none => .ok none
    | some (name, node) => do
      let r ← report (lookup g l.state) name node
      return some { l with
        taken := l.taken ++ [(name, node)]
        current := some ⟨name, l.state.depthOf name, r, r.requests⟩ }
  | some ⟨name, depth, r, q :: rest⟩ => do
    let st ← grant g depth l.state q
    return some { l with
      list := l.list ++ made l.state st, current := some ⟨name, depth, r, rest⟩, state := st }
  | some ⟨name, _, r, []⟩ => .ok (some { l with current := none, state := l.state.add name r })

/-- What the loop comes to in the given number of turns, if it ends within them. -/
def run (g : Graph) : Nat → Loop → Option (Except GraphError Normalized)
  | 0, _ => none
  | turns + 1, l =>
    match l.step g with
    | .error err => some (.error err)
    | .ok none => some (.ok l.state.result)
    | .ok (some l') => run g turns l'

/-- The states that the loop goes through. -/
inductive Reachable (g : Graph) : Loop → Prop
  | start : Reachable g (start g)
  | step {l l' : Loop} : Reachable g l → l.step g = .ok (some l') → Reachable g l'

end Loop

/-- The list of a loop in the given state. -/
def listed (g : Graph) (st : State) : List (String × Node) :=
  g.entities.entries ++ st.instances.entries.map instanceNode

/-- The loop between two visits. -/
def between (g : Graph) (h : List Visit) (st : State) : Loop :=
  ⟨listed g st, h.map fun v => (v.entry.name, v.entry.node), none, st⟩

/-- The loop within the visit to `e`, when the requests `pending` are left. -/
def within (g : Graph) (h : List Visit) (e : Entry) (r : Report) (pending : List Request)
    (mid : State) : Loop :=
  ⟨listed g mid, (h.map fun v => (v.entry.name, v.entry.node)) ++ [(e.name, e.node)],
    some ⟨e.name, e.depth, r, pending⟩, mid⟩

/-- After the visits `h`, which lead to `st`, the requests `pre` of the next entry are granted. -/
structure Within (g : Graph) (h : List Visit) (st : State) (e : Entry) (r : Report)
    (pre pending : List Request) (mid : State) : Prop where
  run : Run g h st
  next : (worklist g st)[h.length]? = some e
  reported : report (lookup g st) e.name e.node = .ok r
  requests : r.requests = pre ++ pending
  granted : grantAll g e.depth st pre = .ok mid

/-! ## Lemmas -/

variable {g : Graph} {h : List Visit} {st st' mid : State} {e : Entry} {r : Report}
  {pre pending : List Request} {q : Request} {depth : Nat}

theorem listed_eq_worklist (g : Graph) (st : State) :
    listed g st = (worklist g st).map fun e => (e.name, e.node) := by
  simp only [listed, worklist, List.map_append, List.map_map]
  congr 1
  exact (List.map_id _).symm

theorem listed_getElem? {i : Nat} (he : (worklist g st)[i]? = some e) :
    (listed g st)[i]? = some (e.name, e.node) := by
  rw [listed_eq_worklist, List.getElem?_map, he, Option.map_some]

theorem depthOf_eq (hc : Consistent g h st) (he : e ∈ worklist g st) :
    st.depthOf e.name = e.depth := by
  rcases mem_worklist_iff.mp he with ⟨p, hp, rfl⟩ | ⟨p, hp, rfl⟩
  · -- the name of an entry of the graph is not that of an instantiation
    have hnone : st.instances.find? p.1 = none := by
      rw [Dict.find?_eq_none_iff]
      intro hmem
      obtain ⟨p', hp', hname⟩ := List.mem_map.mp hmem
      have hfree := Dict.contains_eq_false_iff.mp (hc.free p' hp')
      exact hfree (hname ▸ Assoc.mem_keys_of_mem hp)
    simp [State.depthOf, graphEntry, hnone]
  · simp [State.depthOf, instanceEntry, Dict.find?_eq_some_iff.mpr hp]

/-! ### Requests one by one -/

theorem grantAll_append (pre post : List Request) : grantAll g depth st (pre ++ post) =
    grantAll g depth st pre >>= fun mid => grantAll g depth mid post := by
  induction pre generalizing st with
  | nil => rfl
  | cons q rest ih =>
    rw [List.cons_append, grantAll, grantAll]
    cases grant g depth st q with
    | error err => rfl
    | ok mid => exact ih

theorem grantAll_concat (hmid : grantAll g depth st pre = .ok mid)
    (hq : grant g depth mid q = .ok st') : grantAll g depth st (pre ++ [q]) = .ok st' := by
  rw [grantAll_append, Except.bind_eq_ok_iff]
  exact ⟨mid, hmid, Except.bind_eq_ok_iff.mpr ⟨st', hq, rfl⟩⟩

/-- A request puts what is made for it behind all that has been made. -/
theorem instances_of_grant (hq : grant g depth st q = .ok st') :
    ∃ new, st'.instances.entries = st.instances.entries ++ new := by
  obtain ⟨t, -, -, ⟨i, -, -, rfl⟩ | ⟨hfresh, -, o, -, rfl⟩⟩ := grant_ok_iff.mp hq
  · exact ⟨[], (List.append_nil _).symm⟩
  · exact ⟨_, Dict.entries_insert_of_not_mem _ (Dict.find?_eq_none_iff.mp hfresh)⟩

theorem listed_append_made (hq : grant g depth st q = .ok st') :
    listed g st ++ made st st' = listed g st' := by
  obtain ⟨new, hnew⟩ := instances_of_grant hq
  rw [listed, listed, made, hnew, List.drop_left, List.map_append, List.append_assoc]

theorem listed_add (g : Graph) (st : State) (name : String) (r : Report) :
    listed g (st.add name r) = listed g st := rfl

/-! ### One turn -/

namespace Loop

theorem start_eq (g : Graph) : start g = between g [] .empty := by
  rw [between, listed, start, show State.empty.instances.entries = [] from rfl, List.map_nil,
    List.append_nil, List.map_nil]

theorem step_between (he : (worklist g st)[h.length]? = some e) (hc : Consistent g h st) :
    (between g h st).step g = do
      let r ← report (lookup g st) e.name e.node
      return some (within g h e r r.requests st) := by
  have hnext : (between g h st).list[(between g h st).taken.length]? = some (e.name, e.node) := by
    rw [between, List.length_map, listed_getElem? he]
  have hdepth := depthOf_eq hc (List.mem_of_getElem? he)
  unfold step
  rw [show (between g h st).current = none from rfl, hnext]
  simp only [between, hdepth, within]

theorem step_complete (hcomplete : Complete g h st) : (between g h st).step g = .ok none := by
  have hlength : (listed g st).length = h.length := by
    rw [listed_eq_worklist, ← hcomplete, List.length_map, List.length_map]
  have hnone : (between g h st).list[(between g h st).taken.length]? = none := by
    rw [between, List.length_map, List.getElem?_eq_none (Nat.le_of_eq hlength)]
  unfold step
  rw [show (between g h st).current = none from rfl, hnone]

theorem step_within_cons : (within g h e r (q :: pending) mid).step g = do
    let st ← grant g e.depth mid q
    return some (within g h e r pending st) := by
  simp only [step, within]
  cases hq : grant g e.depth mid q with
  | error err => rfl
  | ok st' =>
    show Except.ok (some _) = Except.ok (some _)
    rw [listed_append_made hq]

theorem step_within_nil : (within g h e r [] mid).step g =
    .ok (some (between g (h ++ [⟨e, r⟩]) (mid.add e.name r))) := by
  simp only [step, within, between, listed_add, List.map_append, List.map_cons, List.map_nil]

end Loop

/-! ### The loop follows the run -/

theorem Within.visit (hw : Within g h st e r pre [] mid) :
    Run g (h ++ [⟨e, r⟩]) (mid.add e.name r) := by
  have hrequests := hw.requests
  rw [List.append_nil] at hrequests
  exact hw.run.visit hw.next hw.reported (hrequests ▸ hw.granted)

theorem Within.grant (hw : Within g h st e r pre (q :: pending) mid)
    (hq : Normalize.grant g e.depth mid q = .ok st') : Within g h st e r (pre ++ [q]) pending st' :=
  { run := hw.run
    next := hw.next
    reported := hw.reported
    requests := by rw [hw.requests, List.append_assoc, List.singleton_append]
    granted := grantAll_concat hw.granted hq }

theorem Within.grows (hw : Within g h st e r pre pending mid) : Grows g e.depth pre st mid :=
  grantAll_grows hw.run.consistent.noTemplates hw.granted

/-- A run that finds nothing left in the list is complete. -/
theorem Consistent.complete (hc : Consistent g h st) (hnone : (worklist g st)[h.length]? = none) :
    Complete g h st := by
  have hle := List.getElem?_eq_none_iff.mp hnone
  exact hc.visited.eq_of_length_le (by rwa [List.length_map])

namespace Loop

/-- **Where the loop can be.**  It is between two visits of a run, or within one. -/
theorem Reachable.cases {l : Loop} (hl : Reachable g l) :
    (∃ h st, Run g h st ∧ l = between g h st) ∨
      ∃ h st e r pre pending mid, Within g h st e r pre pending mid ∧
        l = within g h e r pending mid := by
  induction hl with
  | start =>
    exact Or.inl ⟨[], .empty, .start, start_eq g⟩
  | step _ hstep ih =>
    rcases ih with ⟨h, st, hrun, rfl⟩ | ⟨h, st, e, r, pre, pending, mid, hw, rfl⟩
    · cases he : (worklist g st)[h.length]? with
      | none =>
        rw [step_complete (hrun.consistent.complete he)] at hstep
        cases hstep
      | some e =>
        rw [step_between he hrun.consistent] at hstep
        obtain ⟨r, hr, hstep⟩ := Except.bind_eq_ok_iff.mp hstep
        cases hstep
        exact Or.inr ⟨h, st, e, r, [], r.requests, st, ⟨hrun, he, hr, rfl, rfl⟩, rfl⟩
    · cases pending with
      | nil =>
        rw [step_within_nil] at hstep
        cases hstep
        exact Or.inl ⟨_, _, hw.visit, rfl⟩
      | cons q rest =>
        rw [step_within_cons] at hstep
        obtain ⟨st', hq, hstep⟩ := Except.bind_eq_ok_iff.mp hstep
        cases hstep
        exact Or.inr ⟨h, st, e, r, pre ++ [q], rest, st', hw.grant hq, rfl⟩

theorem reachable_within (hl : Reachable g (between g h st))
    (hw : Within g h st e r pre pending mid) : Reachable g (within g h e r pending mid) := by
  induction pre using List.reverseRecOn generalizing pending mid with
  | nil =>
    have hmid : st = mid := Except.ok.inj hw.granted
    subst hmid
    have hrequests : r.requests = pending := hw.requests
    refine hl.step ?_
    rw [step_between hw.next hw.run.consistent, hw.reported, ← hrequests]
    rfl
  | append_singleton pre q ih =>
    have hgranted := hw.granted
    rw [grantAll_append] at hgranted
    obtain ⟨mid', hmid', hq⟩ := Except.bind_eq_ok_iff.mp hgranted
    obtain ⟨mid'', hq, hnil⟩ := Except.bind_eq_ok_iff.mp hq
    cases hnil
    have hbefore : Within g h st e r pre (q :: pending) mid' :=
      ⟨hw.run, hw.next, hw.reported, by rw [hw.requests]; simp, hmid'⟩
    refine (ih hbefore).step ?_
    rw [step_within_cons, hq]
    rfl

theorem reachable_between (hrun : Run g h st) : Reachable g (between g h st) := by
  induction hrun with
  | start => exact start_eq g ▸ .start
  | @visit h st mid e r hrun he hr hgrant ih =>
    have hw : Within g h st e r r.requests [] mid :=
      ⟨hrun, he, hr, (List.append_nil _).symm, hgrant⟩
    exact (reachable_within ih hw).step step_within_nil

/-! ### The end of the loop -/

theorem run_succ_of_step {l l' : Loop} (hstep : l.step g = .ok (some l')) (turns : Nat) :
    l.run g (turns + 1) = l'.run g turns := by
  rw [run, hstep]

theorem exists_run_of_reachable {l : Loop} {x : Except GraphError Normalized} (hl : Reachable g l)
    (hend : ∃ turns, l.run g turns = some x) : ∃ turns, (start g).run g turns = some x := by
  induction hl with
  | start => exact hend
  | step _ hstep ih =>
    obtain ⟨turns, hrun⟩ := hend
    exact ih ⟨turns + 1, by rw [run_succ_of_step hstep, hrun]⟩

end Loop

/-- A run that is stuck on an error has come to an entry that cannot be resolved, or to a request
that cannot be granted. -/
theorem Stuck.cases {err : GraphError} (hstuck : Stuck g err) :
    (∃ h st e, Run g h st ∧ (worklist g st)[h.length]? = some e ∧
      report (lookup g st) e.name e.node = .error err) ∨
    ∃ h st e r pre q pending mid, Within g h st e r pre (q :: pending) mid ∧
      grant g e.depth mid q = .error err := by
  obtain ⟨h, st, e, hrun, he, hvisit⟩ := hstuck
  rw [visit_eq] at hvisit
  cases hr : report (lookup g st) e.name e.node with
  | error err' =>
    rw [hr] at hvisit
    cases hvisit
    exact Or.inl ⟨h, st, e, hrun, he, hr⟩
  | ok r =>
    cases hgrant : grantAll g e.depth st r.requests with
    | ok st' =>
      have hok := visit_ok_iff.mpr ⟨r, st', hr, hgrant, rfl⟩
      rw [visit_eq, hvisit] at hok
      cases hok
    | error err' =>
      rw [hr] at hvisit
      change (grantAll g e.depth st r.requests >>= _) = _ at hvisit
      rw [hgrant] at hvisit
      cases hvisit
      obtain ⟨pre, q, pending, mid, hrequests, hmid, hfail⟩ := exists_of_grantAll_eq_error hgrant
      exact Or.inr ⟨h, st, e, r, pre, q, pending, mid, ⟨hrun, he, hr, hrequests, hmid⟩, hfail⟩

namespace Loop

/-- A run that is stuck is a loop that fails. -/
theorem exists_step_of_stuck {err : GraphError} (hstuck : Stuck g err) :
    ∃ l, Reachable g l ∧ l.step g = .error err := by
  rcases hstuck.cases with ⟨h, st, e, hrun, he, hr⟩ | ⟨h, st, e, r, pre, q, pending, mid, hw, hq⟩
  · refine ⟨_, reachable_between hrun, ?_⟩
    rw [step_between he hrun.consistent, hr]
    rfl
  · refine ⟨_, reachable_within (reachable_between hw.run) hw, ?_⟩
    rw [step_within_cons, hq]
    rfl

end Loop

end Normalize

open Normalize

/-- A normalization that succeeds is a loop that takes its whole list. -/
theorem Graph.exists_loop_of_normalize {g : Graph} {n : Normalized} (hn : g.normalize = .ok n) :
    ∃ h st, Run g h st ∧ Complete g h st ∧ n = st.result ∧
      Loop.Reachable g (between g h st) ∧ (between g h st).step g = .ok none := by
  obtain ⟨h, st, hrun, hcomplete, rfl⟩ := normalize_ok hn
  exact ⟨h, st, hrun, hcomplete, rfl, Loop.reachable_between hrun, Loop.step_complete hcomplete⟩

/-- **The loop ends on every graph, with what normalization comes to.** -/
theorem Graph.run_eq_normalize (g : Graph) :
    ∃ turns, (Loop.start g).run g turns = some g.normalize := by
  cases hn : g.normalize with
  | ok n =>
    obtain ⟨h, st, -, -, rfl, hl, hstep⟩ := exists_loop_of_normalize hn
    refine Loop.exists_run_of_reachable hl ⟨1, ?_⟩
    rw [Loop.run, hstep]
    rfl
  | error err =>
    obtain ⟨l, hl, hstep⟩ := Loop.exists_step_of_stuck (normalize_error hn)
    refine Loop.exists_run_of_reachable hl ⟨1, ?_⟩
    rw [Loop.run, hstep]

end EntityGraph
