import EntityGraph.Proofs.Depth
import EntityGraph.Proofs.Sharing

/-!
# When an instantiation is used again

A request takes what has been made under its escaped name, if that has the generic name of the
request as well.  Each of the two names is shared by different types, but the pair is not:

    t.Full → t'.Full → (t.escapedName, t.genericName) = (t'.escapedName, t'.genericName) →
      t.bare = t'.bare

So what is taken was made for the same reference, up to files and hooks of lists, and if what is on
record was made for another one the request is refused (`grant_of_made`).
-/

namespace EntityGraph

open Normalize

/-! ## Algorithm -/

/-- Types without empty lists of arguments that share the name are alike up to files and hooks. -/
def FieldType.Identifies {α : Type} (name : FieldType → α) : Prop :=
  ∀ t t' : FieldType, t.Full → t'.Full → name t = name t' → t.bare = t'.bare

/-! ## Lemmas -/

/-! ### One name is not enough -/

namespace FieldType

/-- An entity may be called like the instantiation of a template. -/
theorem not_identifies_of_shared {α : Type} {name : FieldType → α} {n : String}
    (h : name (.named n none) = name (.generic "Page" [.named "Item" none] none)) :
    ¬ Identifies name := by
  intro hidentifies
  have hbare := hidentifies (.named n none) _ rfl (by decide) h
  cases hbare

theorem not_identifies_escapedName : ¬ Identifies escapedName :=
  not_identifies_of_shared (n := "Page_Item") rfl

theorem not_identifies_genericName : ¬ Identifies genericName :=
  not_identifies_of_shared (n := "Page<Item>") rfl

end FieldType

/-! ### What is on record -/

theorem Graph.Asks.names {g : Graph} {r : Reference} {o : Object} (h : g.Asks r o) :
    o.name = r.genericName ∧ o.escapedName = r.escapedName := by
  obtain ⟨t, -, ho⟩ := h
  rw [(Object.instantiate_ok_iff.mp ho).2]
  exact ⟨rfl, rfl⟩

namespace Normalize

variable {g : Graph} {st : State} {l : Loop} {q : Request} {i : Instance} {r : Reference}

/-- All that has been made was asked for by an entry of the list. -/
theorem exists_asks (hl : Loop.Reachable g l) {name : String}
    (hi : l.state.instances.find? name = some i) : g.contains name = false ∧
      i.object.escapedName = name ∧
      ∃ p ∈ l.list, ∃ r, p.2.Requests (lookup g l.state) r ∧ g.Asks r i.object := by
  have hmem := Dict.find?_eq_some_iff.mp hi
  obtain ⟨e, he, r, hr, hmakes⟩ := (layered_of_reachable hl).made _ hmem
  obtain ⟨t, ht, ho⟩ := hmakes.made
  have hname : name = r.escapedName := hmakes.name
  have hasks : g.Asks r i.object := ⟨t, ht, by rw [← hname, ho]⟩
  refine ⟨hmakes.free, hasks.names.2.trans hname.symm, (e.name, e.node), ?_, r, hr, hasks⟩
  exact (mem_list_iff hl).mpr ⟨e, he, rfl⟩

/-- What has been made for `r` is used again by a request for the same, and by no other. -/
theorem grant_of_made (depth : Nat) (hfree : g.contains q.reference.escapedName = false)
    (hi : st.instances.find? q.reference.escapedName = some i) (hasks : g.Asks r i.object)
    (hescaped : r.escapedName = q.reference.escapedName) (hfull : q.reference.toType.Full) :
    (r.toType.bare = q.reference.toType.bare ∧ grant g depth st q = .ok st) ∨
      r.toType.bare ≠ q.reference.toType.bare ∧ ∃ err, grant g depth st q = .error err := by
  by_cases hbare : r.toType.bare = q.reference.toType.bare
  · have hforget := Reference.forget_eq_iff.mpr hbare
    have hname := Reference.name_eq_of_forget_eq hforget
    have hgeneric := Reference.genericName_eq_of_forget_eq hforget
    obtain ⟨t, ht, -⟩ := id hasks
    have hlookup : lookup g st q.reference.name = some (.object t) := by
      rw [lookup, ← hname, ht]
    refine Or.inl ⟨hbare, grant_ok_iff.mpr ⟨t, hlookup, hfree, Or.inl ⟨i, hi, ?_, rfl⟩⟩⟩
    rw [hasks.names.1, hgeneric]
  · refine Or.inr ⟨hbare, ?_⟩
    cases hgrant : grant g depth st q with
    | error err => exact ⟨err, rfl⟩
    | ok st' =>
      -- it would have to be called like the request, and then it would be what is asked for
      exfalso
      obtain ⟨t, -, -, ⟨i', hi', hgeneric, -⟩ | ⟨hfresh, -⟩⟩ := grant_ok_iff.mp hgrant
      · rw [hi] at hi'
        cases hi'
        rw [hasks.names.1] at hgeneric
        exact hbare (FieldType.bare_eq_of_names_eq hfull hescaped.symm hgeneric.symm).symm
      · rw [hi] at hfresh
        cases hfresh

theorem made_self (st : State) : made st st = [] := by
  rw [made, List.drop_length, List.map_nil]

end Normalize

/-- **The two names identify an instantiation.**  Types without empty lists of arguments that agree
in both names are the same up to files and hooks, and neither name alone tells that much.  So when
the loop comes to a request and something is on record under its escaped name, that is used again
if it was made for the same reference, up to files and hooks, and otherwise the request is refused.
-/
theorem Graph.names_identify :
    FieldType.Identifies (fun t => (t.escapedName, t.genericName)) ∧
    ¬ FieldType.Identifies FieldType.escapedName ∧ ¬ FieldType.Identifies FieldType.genericName ∧
    ∀ (g : Graph) (l : Loop) (name : String) (depth : Nat) (report : Report) (q : Request)
      (rest : List Request) (i : Instance), Loop.Reachable g l →
      l.current = some ⟨name, depth, report, q :: rest⟩ →
      l.state.instances.find? q.reference.escapedName = some i → q.reference.toType.Full →
      (∃ p ∈ l.list, ∃ r, p.2.Requests (lookup g l.state) r ∧ g.Asks r i.object) ∧
      ∀ r, g.Asks r i.object →
        (r.toType.bare = q.reference.toType.bare ∧
          l.step g = .ok (some { l with current := some ⟨name, depth, report, rest⟩ })) ∨
        r.toType.bare ≠ q.reference.toType.bare ∧ ∃ err, l.step g = .error err := by
  refine ⟨fun t t' hfull _ hnames => ?_, FieldType.not_identifies_escapedName,
    FieldType.not_identifies_genericName, ?_⟩
  · exact FieldType.bare_eq_of_names_eq hfull (congrArg Prod.fst hnames)
      (congrArg Prod.snd hnames)
  · intro g l name depth report q rest i hl hcurrent hi hfull
    obtain ⟨hfree, hname, hmade⟩ := exists_asks hl hi
    refine ⟨hmade, fun r hasks => ?_⟩
    have hescaped : r.escapedName = q.reference.escapedName := hasks.names.2.symm.trans hname
    have hstep : l.step g = do
        let st ← grant g depth l.state q
        return some { l with
          list := l.list ++ made l.state st, current := some ⟨name, depth, report, rest⟩,
          state := st } := by
      rw [Loop.step, hcurrent]
    rcases grant_of_made depth hfree hi hasks hescaped hfull with
      ⟨hbare, hgrant⟩ | ⟨hbare, err, hgrant⟩
    · refine Or.inl ⟨hbare, ?_⟩
      rw [hstep, hgrant]
      show Except.ok (some _) = Except.ok (some _)
      rw [made_self, List.append_nil]
    · refine Or.inr ⟨hbare, err, ?_⟩
      rw [hstep, hgrant]
      rfl

/-- A use with hooks takes what was made for one without. -/
theorem Graph.names_identify_checkedPages :
    (pageOf .none).toType.bare = (pageOf refusing).toType.bare ∧
    ∃ (l : Loop) (name : String) (depth : Nat) (report : Report) (q : Request)
      (rest : List Request) (i : Instance), Loop.Reachable checkedPages l ∧
      l.current = some ⟨name, depth, report, q :: rest⟩ ∧ q.reference = pageOf refusing ∧
      l.state.instances.find? q.reference.escapedName = some i ∧
      checkedPages.Asks (pageOf .none) i.object ∧
      l.step checkedPages =
        .ok (some { l with current := some ⟨name, depth, report, rest⟩ }) := by
  have hbare := names_identify.1 (pageOf .none).toType (pageOf refusing).toType rfl rfl rfl
  have hl : ∃ l, Loop.Reachable checkedPages l ∧
      ∃ name depth report q rest i, l.current = some ⟨name, depth, report, q :: rest⟩ ∧
        q.reference = pageOf refusing ∧
        l.state.instances.find? q.reference.escapedName = some i ∧
        checkedPages.Asks (pageOf .none) i.object :=
    ⟨_, .step (.step (.step (.step (.step (.step (.step .start rfl) rfl) rfl) rfl) rfl) rfl) rfl,
      _, _, _, _, _, _, rfl, rfl, rfl, _, rfl, rfl⟩
  obtain ⟨l, hl, name, depth, report, q, rest, i, hcurrent, hq, hi, hasks⟩ := hl
  refine ⟨hbare, l, name, depth, report, q, rest, i, hl, hcurrent, hq, hi, hasks, ?_⟩
  have hmemo := names_identify.2.2.2 _ l name depth report q rest i hl hcurrent hi (by rw [hq]; rfl)
  rcases hmemo.2 _ hasks with ⟨-, hstep⟩ | ⟨hne, -⟩
  · exact hstep
  · exact absurd (hq ▸ hbare) hne

end EntityGraph
