import EntityGraph.Proofs.Generations

/-!
# There is one complete run

A visit leaves no choice, so of two runs the shorter one is the beginning of the longer one
(`Run.unique`, `Run.exists_take`).  A run that has visited the whole list can neither be carried on
nor miss an entry that a stuck run fails at.  So a complete run is all there is to normalization:

    Run g h st → Complete g h st → g.normalize = .ok st.result               (normalize_of_complete)
-/

namespace EntityGraph

namespace Normalize

variable {g : Graph} {h h' : List Visit} {st st' : State}

/-! ## Lemmas -/

/-- Runs of the same length are the same. -/
theorem Run.unique (hrun : Run g h st) (hrun' : Run g h' st') (hlength : h.length = h'.length) :
    h = h' ∧ st = st' := by
  induction hrun generalizing h' st' with
  | start =>
    cases hrun' with
    | start => exact ⟨rfl, rfl⟩
    | visit => simp at hlength
  | @visit h₁ st₁ st₂ e r hrun₁ he hr hgrant ih =>
    cases hrun' with
    | start => simp at hlength
    | @visit h₁' st₁' st₂' e' r' hrun₁' he' hr' hgrant' =>
      have hlength₁ : h₁.length = h₁'.length := by simpa using hlength
      obtain ⟨rfl, rfl⟩ := ih hrun₁' hlength₁
      -- from here on the two do the same
      rw [he] at he'
      cases he'
      rw [hr] at hr'
      cases hr'
      rw [hgrant] at hgrant'
      cases hgrant'
      exact ⟨rfl, rfl⟩

/-- A run that has more than `k` visits has been at a state after `k` of them, and went on from
there. -/
theorem Run.exists_take (hrun : Run g h st) {k : Nat} (hk : k < h.length) :
    ∃ st₀ st₁ e, Run g (h.take k) st₀ ∧ (worklist g st₀)[k]? = some e ∧
      Normalize.visit g e.depth st₀ e.name e.node = .ok st₁ := by
  induction hrun with
  | start => simp at hk
  | @visit h₁ st₁ st₂ e r hrun₁ he hr hgrant ih =>
    rw [List.length_append, List.length_singleton] at hk
    rcases Nat.lt_or_eq_of_le (Nat.le_of_lt_succ hk) with hlt | rfl
    · rw [List.take_append_of_le_length (Nat.le_of_lt hlt)]
      exact ih hlt
    · rw [List.take_left]
      exact ⟨st₁, _, e, hrun₁, he, visit_ok_iff.mpr ⟨r, st₂, hr, hgrant, rfl⟩⟩

/-- Behind a complete run there is nothing to visit. -/
theorem Complete.getElem?_worklist (hcomplete : Complete g h st) :
    (worklist g st)[h.length]? = none := by
  have hlength : h.length = (worklist g st).length := by rw [← hcomplete, List.length_map]
  exact List.getElem?_eq_none_iff.mpr (Nat.le_of_eq hlength.symm)

/-- No run is longer than a complete one. -/
theorem Complete.length_le (hcomplete : Complete g h st) (hrun : Run g h st)
    (hrun' : Run g h' st') : h'.length ≤ h.length := by
  refine Nat.le_of_not_lt fun hlt => ?_
  obtain ⟨st₀, _, e, hrun₀, he, -⟩ := hrun'.exists_take hlt
  have hlength : (h'.take h.length).length = h.length := by
    rw [List.length_take]
    omega
  obtain ⟨-, rfl⟩ := hrun₀.unique hrun hlength
  rw [hcomplete.getElem?_worklist] at he
  cases he

theorem Complete.not_stuck (hcomplete : Complete g h st) (hrun : Run g h st) (err : GraphError) :
    ¬ Stuck g err := by
  rintro ⟨h', st', e, hrun', he, hvisit⟩
  rcases Nat.lt_or_eq_of_le (hcomplete.length_le hrun hrun') with hlt | heq
  · -- the complete run has visited the entry in the same state
    obtain ⟨st₀, st₁, e', hrun₀, he', hok⟩ := hrun.exists_take hlt
    have hlength : (h.take h'.length).length = h'.length := by
      rw [List.length_take]
      omega
    obtain ⟨-, rfl⟩ := hrun₀.unique hrun' hlength
    rw [he] at he'
    cases he'
    rw [hvisit] at hok
    cases hok
  · obtain ⟨-, rfl⟩ := hrun'.unique hrun heq
    rw [heq, hcomplete.getElem?_worklist] at he
    cases he

end Normalize

open Normalize

/-- **A complete run is what normalization comes to.** -/
theorem Graph.normalize_of_complete {g : Graph} {h : List Visit} {st : State} (hrun : Run g h st)
    (hcomplete : Complete g h st) : g.normalize = .ok st.result := by
  cases hn : g.normalize with
  | error err => exact absurd (Graph.normalize_error hn) (hcomplete.not_stuck hrun err)
  | ok n =>
    obtain ⟨h', st', hrun', hcomplete', rfl⟩ := Graph.normalize_ok hn
    have hlength : h'.length = h.length :=
      Nat.le_antisymm (hcomplete.length_le hrun hrun') (hcomplete'.length_le hrun' hrun)
    obtain ⟨-, rfl⟩ := hrun'.unique hrun hlength
    rfl

end EntityGraph
