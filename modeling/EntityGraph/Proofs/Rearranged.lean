import EntityGraph.Proofs.EntryOrder

/-!
# The order of entries and fields

Entries, the fields of an object and its visible fields are found by their names, and no chain of
requests depends on the order in which they are listed.

    g.Rearranged g' → g.Requested d r → g'.Requested d r                    (Rearranged.requested)
-/

namespace EntityGraph

/-! ## Algorithm -/

/-- The same object, with its fields listed in another order. -/
structure Object.Rearranged (o o' : Object) : Prop where
  fields : o.fields.entries.Perm o'.fields.entries
  visibleFields : o.visibleFields.entries.Perm o'.visibleFields.entries
  others : { o with fields := o'.fields, visibleFields := o'.visibleFields } = o'

inductive Node.Rearranged : Node → Node → Prop
  | object {o o' : Object} : o.Rearranged o' → Rearranged (.object o) (.object o')
  | other {node : Node} : node.object? = none → Rearranged node node

/-- The same entries, listed in another order, and so are the fields of their objects. -/
def Graph.Rearranged (g g' : Graph) : Prop :=
  ∀ name, Option.Rel Node.Rearranged (g.find? name) (g'.find? name)

/-! ## Lemmas -/

namespace Object.Rearranged

variable {o o' : Object} (h : o.Rearranged o')

include h

theorem symm : o'.Rearranged o :=
  ⟨h.fields.symm, h.visibleFields.symm, by rw [← h.others]⟩

theorem find?_fields (key : String) : o.fields.find? key = o'.fields.find? key :=
  Dict.find?_eq_of_perm h.fields key

theorem searchOrder (v : VisibleField) :
    Resolution.searchOrder o v = Resolution.searchOrder o' v := by
  rw [← h.others]
  rfl

theorem isTemplate : o.isTemplate = o'.isTemplate := by
  rw [← h.others]
  rfl

theorem typeParameters : o.typeParameters = o'.typeParameters := by
  rw [← h.others]
  rfl

theorem instanceOf (r : Reference) (escaped : String) :
    (o.instanceOf r escaped).Rearranged (o'.instanceOf r escaped) := by
  have hbindings : o.bindings r = o'.bindings r := by rw [bindings, bindings, h.typeParameters]
  refine ⟨?_, h.visibleFields, ?_⟩
  · simp only [Object.instanceOf, Dict.mapValues, hbindings]
    exact h.fields.map _
  · rw [← h.others]
    rfl

end Object.Rearranged

theorem Node.Rearranged.symm {node node' : Node} (h : node.Rearranged node') :
    node'.Rearranged node := by
  cases h with
  | object ho => exact .object ho.symm
  | other hnone => exact .other hnone

theorem Graph.rearranged_of_perm {g g' : Graph}
    (hperm : g.entities.entries.Perm g'.entities.entries) : g.Rearranged g' := by
  intro name
  have hfind : g.find? name = g'.find? name := Dict.find?_eq_of_perm hperm name
  rw [← hfind]
  cases g.find? name with
  | none => exact .none
  | some node =>
    refine .some ?_
    cases node with
    | object o => exact .object ⟨.refl _, .refl _, rfl⟩
    | _ => exact .other rfl

namespace Graph.Rearranged

variable {g g' : Graph} (h : g.Rearranged g')

include h

theorem find?_object {name : String} {o : Object} (ho : g.find? name = some (.object o)) :
    ∃ o', g'.find? name = some (.object o') ∧ o.Rearranged o' := by
  have hrel := h name
  rw [ho] at hrel
  cases hfind : g'.find? name with
  | none =>
    rw [hfind] at hrel
    cases hrel
  | some node =>
    rw [hfind] at hrel
    cases hrel with
    | some hnode =>
      cases hnode with
      | object ho' => exact ⟨_, rfl, ho'⟩
      | other hnone => cases hnone

theorem symm : g'.Rearranged g := by
  intro name
  have hrel := h name
  generalize g.find? name = x at hrel ⊢
  generalize g'.find? name = y at hrel ⊢
  cases hrel with
  | none => exact .none
  | some hnode => exact .some hnode.symm

theorem declares {name key : String} {field : Field}
    (hd : Resolution.Declares g.find? name key field) :
    Resolution.Declares g'.find? name key field := by
  obtain ⟨owner, howner, hfield⟩ := hd
  obtain ⟨owner', howner', hsame⟩ := h.find?_object howner
  exact ⟨owner', howner', hsame.find?_fields key ▸ hfield⟩

theorem provides {o o' : Object} (ho : o.Rearranged o') {key : String} {v : VisibleField}
    {field : Field} (hp : Resolution.Provides g.find? o key v field) :
    Resolution.Provides g'.find? o' key v field := by
  rcases hp with hown | ⟨hnone, pre, name, post, horder, hpre, hname⟩
  · exact Or.inl (ho.find?_fields key ▸ hown)
  · refine Or.inr ⟨ho.find?_fields key ▸ hnone, pre, name, post, ?_, ?_, h.declares hname⟩
    · rw [← ho.searchOrder, horder]
    · exact fun a ha f hf => hpre a ha f (h.symm.declares hf)

theorem requests {o o' : Object} (ho : o.Rearranged o') {r : Reference}
    (hr : o.Requests g.find? r) : o'.Requests g'.find? r := by
  obtain ⟨p, hp, field, hprov, hty⟩ := hr
  exact ⟨p, ho.visibleFields.mem_iff.mp hp, field, h.provides ho hprov, hty⟩

theorem reaches {d : Nat} {name : String} {o : Object} (hreach : g.Reaches d name o) :
    ∃ o', g'.Reaches d name o' ∧ o.Rearranged o' := by
  induction hreach with
  | entry ho htemplate =>
    obtain ⟨o', ho', hsame⟩ := h.find?_object ho
    exact ⟨o', .entry ho' (hsame.isTemplate ▸ htemplate), hsame⟩
  | @request d name o t made r _ hr ht hmade ih =>
    obtain ⟨o', hreach', hsame⟩ := ih
    obtain ⟨t', ht', htsame⟩ := h.find?_object ht
    obtain ⟨hlength, rfl⟩ := Object.instantiate_ok_iff.mp hmade
    have hmade' : t'.instantiate r r.escapedName = .ok (t'.instanceOf r r.escapedName) :=
      Object.instantiate_of_length (htsame.typeParameters ▸ hlength) _
    exact ⟨_, .request hreach' (h.requests hsame hr) ht' hmade', htsame.instanceOf r _⟩

/-- **Chains of requests do not depend on any order.** -/
theorem requested {d : Nat} {r : Reference} (hr : g.Requested d r) : g'.Requested d r := by
  obtain ⟨name, o, hreach, hr⟩ := hr
  obtain ⟨o', hreach', hsame⟩ := h.reaches hreach
  exact ⟨name, o', hreach', h.requests hsame hr⟩

end Graph.Rearranged

end EntityGraph
