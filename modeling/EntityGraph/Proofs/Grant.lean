import EntityGraph.Proofs.Forgetting
import EntityGraph.Proofs.Report

/-!
# What granting a request does

A request either finds the instantiation that it asks for or has it made, from a template of the
graph and one generation further on.  Granting only ever adds instantiations behind those that
are there (`Grows`), so a name that is known keeps its meaning.

An instantiation is no template.  A reference with arguments to one that is in the way of a new
instantiation therefore has the wrong number of arguments, and what is made is always made from
the graph (`template_of_fresh`).
-/

namespace EntityGraph

/-! ## Algorithm -/

namespace Normalize

/-- An instantiation made by an entry at `depth`, with its name. -/
structure Makes (g : Graph) (depth : Nat) (r : Reference) (p : String × Instance) : Prop where
  name : p.1 = r.escapedName
  free : g.contains p.1 = false
  depth_eq : p.2.depth = depth + 1
  depth_le : p.2.depth ≤ maxDepth
  made : ∃ t, g.find? r.name = some (.object t) ∧ t.instantiate r p.1 = .ok p.2.object

/-- What is on record for a request once it has been granted. -/
def Granted (g : Graph) (st : State) (r : Reference) : Prop :=
  g.contains r.escapedName = false ∧ ∃ i, st.instances.find? r.escapedName = some i ∧
    i.object.name = r.genericName

/-- What granting the requests of an entry at `depth` changes. -/
structure Grows (g : Graph) (depth : Nat) (qs : List Request) (st st' : State) : Prop where
  input : st'.input = st.input
  output : st'.output = st.output
  diagnostics : st'.diagnostics = st.diagnostics
  instances : ∃ new, st'.instances.entries = st.instances.entries ++ new ∧
    ∀ p ∈ new, ∃ q ∈ qs, Makes g depth q.reference p
  granted : ∀ q ∈ qs, Granted g st' q.reference

def NoTemplates (st : State) : Prop := ∀ p ∈ st.instances.entries, p.2.object.generics = none

end Normalize

/-! ## Lemmas -/

/-- A reference without arguments keeps its name. -/
theorem Reference.escapedName_of_no_args {r : Reference} (h : r.args.getD [] = []) :
    r.escapedName = r.name := by
  obtain ⟨name, args, fileName⟩ := r
  cases args with
  | none => rfl
  | some args =>
    cases args with
    | nil => exact String.append_empty
    | cons a rest => cases h

theorem Graph.find?_eq_none {g : Graph} {name : String} (h : g.contains name = false) :
    g.find? name = none :=
  Dict.find?_eq_none_iff.mpr (Dict.contains_eq_false_iff.mp h)

namespace Normalize

variable {g : Graph} {depth : Nat} {st st' : State} {q : Request}

theorem extends_of_append {new : List (String × Instance)}
    (h : st'.instances.entries = st.instances.entries ++ new) :
    Resolution.Extends (lookup g st) (lookup g st') := by
  intro name node hnode
  unfold lookup at hnode ⊢
  cases hg : g.find? name with
  | some n => rwa [hg] at hnode
  | none =>
    rw [hg] at hnode
    obtain ⟨i, hi, hobj⟩ := Option.map_eq_some_iff.mp hnode
    have hfind : st'.instances.find? name = some i := by
      rw [Dict.find?_eq_some_iff, h]
      exact List.mem_append_left _ (Dict.find?_eq_some_iff.mp hi)
    simp only [hfind, Option.map_some, hobj]

theorem template_ok_iff {t : Object} :
    template g st q = .ok t ↔ lookup g st q.reference.name = some (.object t) := by
  unfold template
  cases h : lookup g st q.reference.name with
  | none => simp
  | some node => cases node <;> simp

theorem grant_ok_iff : grant g depth st q = .ok st' ↔
    ∃ t, lookup g st q.reference.name = some (.object t) ∧
      g.contains q.reference.escapedName = false ∧
      ((∃ i, st.instances.find? q.reference.escapedName = some i ∧
          i.object.name = q.reference.genericName ∧ st' = st) ∨
        st.instances.find? q.reference.escapedName = none ∧ depth + 1 ≤ maxDepth ∧
          ∃ o, t.instantiate q.reference q.reference.escapedName = .ok o ∧ st' =
            { st with
              instances := st.instances.insert q.reference.escapedName ⟨o, depth + 1⟩ }) := by
  rw [grant, Except.bind_eq_ok_iff]
  refine exists_congr fun t => ?_
  rw [template_ok_iff]
  refine and_congr_right fun _ => ?_
  dsimp only
  cases hg : g.contains q.reference.escapedName with
  | true => simp
  | false =>
    simp only [Bool.false_eq_true, if_false, true_and]
    cases hfind : st.instances.find? q.reference.escapedName with
    | some i => by_cases hname : i.object.name = q.reference.genericName <;> simp [hname, eq_comm]
    | none =>
      by_cases hdepth : maxDepth < depth + 1
      · simp [hdepth, Nat.not_le_of_gt hdepth]
      · rw [if_neg hdepth, Except.bind_eq_ok_iff]
        simp [Nat.le_of_not_lt hdepth, pure, Except.pure, eq_comm]

theorem NoTemplates.find? (hno : NoTemplates st) {name : String} {i : Instance}
    (hi : st.instances.find? name = some i) : i.object.isTemplate = false := by
  rw [Object.isTemplate, hno _ (Dict.find?_eq_some_iff.mp hi)]
  rfl

/-- What a new instantiation is made from is in the graph. -/
theorem template_of_fresh {r : Reference} {t o : Object} {escaped : String}
    (hno : NoTemplates st) (ht : lookup g st r.name = some (.object t))
    (ho : t.instantiate r escaped = .ok o) (hfresh : st.instances.find? r.escapedName = none) :
    g.find? r.name = some (.object t) := by
  unfold lookup at ht
  cases hg : g.find? r.name with
  | some node => rwa [hg] at ht
  | none =>
    rw [hg] at ht
    obtain ⟨i, hi, hobj⟩ := Option.map_eq_some_iff.mp ht
    cases hobj
    -- an instantiation takes no arguments, so the reference goes by the name of this very one
    have hgen : i.object.generics = none := hno _ (Dict.find?_eq_some_iff.mp hi)
    have hlen := (Object.instantiate_ok_iff.mp ho).1
    rw [Object.typeParameters, hgen] at hlen
    have hname := Reference.escapedName_of_no_args (List.length_eq_zero_iff.mp hlen.symm)
    rw [hname, hi] at hfresh
    cases hfresh

theorem Granted.mono {r : Reference} {new : List (String × Instance)}
    (h : st'.instances.entries = st.instances.entries ++ new) (hr : Granted g st r) :
    Granted g st' r := by
  obtain ⟨hfree, i, hi, hname⟩ := hr
  refine ⟨hfree, i, ?_, hname⟩
  exact Dict.find?_eq_some_iff.mpr (h ▸ List.mem_append_left _ (Dict.find?_eq_some_iff.mp hi))

namespace Grows

theorem refl (st : State) : Grows g depth [] st st :=
  ⟨rfl, rfl, rfl, ⟨[], by simp⟩, by simp⟩

theorem trans {qs qs' : List Request} {st st' st'' : State} (h : Grows g depth qs st st')
    (h' : Grows g depth qs' st' st'') : Grows g depth (qs ++ qs') st st'' := by
  obtain ⟨new, he, hnew⟩ := h.instances
  obtain ⟨new', he', hnew'⟩ := h'.instances
  refine ⟨h'.input.trans h.input, h'.output.trans h.output, h'.diagnostics.trans h.diagnostics,
    ⟨new ++ new', by rw [he', he, List.append_assoc], fun p hp => ?_⟩, fun q hq => ?_⟩
  · rcases List.mem_append.mp hp with hp | hp
    · obtain ⟨q, hq, hmade⟩ := hnew p hp
      exact ⟨q, List.mem_append_left _ hq, hmade⟩
    · obtain ⟨q, hq, hmade⟩ := hnew' p hp
      exact ⟨q, List.mem_append_right _ hq, hmade⟩
  · rcases List.mem_append.mp hq with hq | hq
    · exact (h.granted q hq).mono he'
    · exact h'.granted q hq

theorem noTemplates {qs : List Request} (h : Grows g depth qs st st') (hno : NoTemplates st) :
    NoTemplates st' := by
  obtain ⟨new, he, hnew⟩ := h.instances
  intro p hp
  rw [he] at hp
  rcases List.mem_append.mp hp with hp | hp
  · exact hno p hp
  · obtain ⟨q, -, hmade⟩ := hnew p hp
    obtain ⟨t, -, ho⟩ := hmade.made
    rw [(Object.instantiate_ok_iff.mp ho).2]
    rfl

end Grows

theorem grant_grows (hno : NoTemplates st) (h : grant g depth st q = .ok st') :
    Grows g depth [q] st st' := by
  obtain ⟨t, ht, hfree, ⟨i, hi, hname, rfl⟩ | ⟨hfresh, hdepth, o, ho, rfl⟩⟩ := grant_ok_iff.mp h
  · exact ⟨rfl, rfl, rfl, ⟨[], by simp⟩, by simpa using ⟨hfree, i, hi, hname⟩⟩
  · refine ⟨rfl, rfl, rfl, ⟨[(q.reference.escapedName, ⟨o, depth + 1⟩)], ?_, ?_⟩, ?_⟩
    · exact Dict.entries_insert_of_not_mem _ (Dict.find?_eq_none_iff.mp hfresh)
    · have hmakes : Makes g depth q.reference (q.reference.escapedName, ⟨o, depth + 1⟩) :=
        ⟨rfl, hfree, rfl, hdepth, t, template_of_fresh hno ht ho hfresh, ho⟩
      simpa using hmakes
    · have hname : o.name = q.reference.genericName := by
        rw [(Object.instantiate_ok_iff.mp ho).2]
        rfl
      simpa using ⟨hfree, ⟨o, depth + 1⟩, Dict.find?_insert_self .., hname⟩

/-- **Granting only adds.**  All requests end up on record, and whatever is new was made for one
of them. -/
theorem grantAll_grows {qs : List Request} (hno : NoTemplates st)
    (h : grantAll g depth st qs = .ok st') : Grows g depth qs st st' := by
  induction qs generalizing st with
  | nil =>
    cases h
    exact Grows.refl _
  | cons q rest ih =>
    obtain ⟨mid, hmid, hrest⟩ := Except.bind_eq_ok_iff.mp h
    have hone := grant_grows hno hmid
    exact hone.trans (ih (hone.noTemplates hno) hrest)

/-- If not all requests are granted, then one of them fails after those before it. -/
theorem exists_of_grantAll_eq_error {qs : List Request} {e : GraphError}
    (h : grantAll g depth st qs = .error e) : ∃ pre q post mid, qs = pre ++ q :: post ∧
      grantAll g depth st pre = .ok mid ∧ grant g depth mid q = .error e := by
  induction qs generalizing st with
  | nil => cases h
  | cons q rest ih =>
    unfold grantAll at h
    cases hq : grant g depth st q with
    | error e' =>
      rw [hq] at h
      cases h
      exact ⟨[], q, rest, st, rfl, rfl, hq⟩
    | ok mid =>
      rw [hq] at h
      obtain ⟨pre, q', post, mid', rfl, hpre, hfail⟩ := ih h
      refine ⟨q :: pre, q', post, mid', rfl, ?_, hfail⟩
      exact Except.bind_eq_ok_iff.mpr ⟨mid, hq, hpre⟩

end Normalize

end EntityGraph
