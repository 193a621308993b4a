import EntityGraph.Proofs.Sides

/-!
# No generics are left

A type in a schema is the declared one, or it names an instantiation where the declared one refers
to a template with arguments; the lists around the reference stay (`Normalized.Eliminates`).  The
instantiations are registered under names of their own, and what a use asks for is what it gets by
its name.

None of them is made in vain.  From the entries of the graph that are no templates, every
instantiation is linked by fields that the schemas show:

    o ∈ n.specializations → n.Linked g o.escapedName                        (linked_of_instances)

The links are found from the depths: an instantiation was made for the visit of something less
deep, and what has been requested by a visit stands in a field that this visit adds to a schema.
-/

namespace EntityGraph

open Normalize

/-! ## Algorithm -/

/-- The hooks of the lists around the reference, those of the outermost list first. -/
def FieldType.listHooks : FieldType → List Hooks
  | .list element hooks => hooks :: element.listHooks
  | .named .. => []
  | .generic .. => []

namespace Side

/-- The types that stand in a declaration on this side. -/
def declaredTypes : Side → Field → List FieldType
  | input, f => (f.input.map (·.type)).toList
  | output, f => (f.output.bind (·.param)).toList ++ (f.output.map (·.type)).toList

/-- The types that stand in a field of the schema. -/
def types : (s : Side) → s.SchemaField → List FieldType
  | input, e => [e.type]
  | output, e => e.param.toList ++ [e.type]

end Side

namespace Normalized

variable (g : Graph) (n : Normalized)

/-- `ty` is what the schemas show in place of the declared type. -/
def Eliminates (declared ty : FieldType) : Prop :=
  match declared.terminal.args with
  | none => ty = declared
  | some args => args ≠ [] ∧ ty.listHooks = declared.listHooks ∧ ∃ o ∈ n.specializations,
      o.escapedName = declared.terminal.escapedName ∧
        ty.terminal = ⟨o.escapedName, none, declared.terminal.fileName⟩

/-- The fields of `x` show the declarations of what goes by the name, in their order. -/
def Presents (s : Side) (name : String) (x : ObjectSchema s.SchemaField) : Prop :=
  ∃ o resolved reports, n.Shows g name o ∧
    Resolution.resolveAll (n.lookup g) o o.visibleFields.entries = .ok (resolved, reports) ∧
    List.Forall₂ (fun f e => s.shown f = some e ∧
        List.Forall₂ n.Eliminates (s.declaredTypes f.field) (s.types e))
      ((FieldOrder.arrange o resolved).filter (s.declared ·.field)) x.fields

/-- A field that the schemas show under the name refers to `target`. -/
def Refers (name target : String) : Prop :=
  ∃ (s : Side) (x : ObjectSchema s.SchemaField), (s.schema n).find? name = some (.object x) ∧
    ∃ e ∈ x.fields, ∃ ty ∈ s.types e, ty.terminal.name = target

/-- A chain of fields leads to the name, from an entry of the graph that is no template and through
instantiations. -/
inductive Linked : String → Prop
  | entry {name target : String} {o : Object} : g.find? name = some (.object o) →
      o.isTemplate = false → n.Refers name target → Linked target
  | instantiation {o : Object} {target : String} : o ∈ n.specializations →
      Linked o.escapedName → n.Refers o.escapedName target → Linked target

/-- No generics are left in the schemas, and no instantiation has been made in vain. -/
structure Eliminated : Prop where
  fields : ∀ (s : Side) (name : String) (x : ObjectSchema s.SchemaField),
    (s.schema n).find? name = some (.object x) → n.Presents g s name x
  nodup : (n.specializations.map (·.escapedName)).Nodup
  free : ∀ o ∈ n.specializations, g.contains o.escapedName = false
  concrete : ∀ o ∈ n.specializations, o.isTemplate = false
  used : ∀ o ∈ n.specializations, ∃ r, n.Uses g r ∧ r.escapedName = o.escapedName
  /-- All uses of an instantiation agree on what it is called. -/
  name : ∀ o ∈ n.specializations, ∀ r, n.Uses g r → r.escapedName = o.escapedName →
    o.name = r.genericName
  linked : ∀ o ∈ n.specializations, n.Linked g o.escapedName

end Normalized

/-! ## Lemmas -/

theorem FieldType.listHooks_onTerminal (name : String) (fileName : Option String) :
    (ty : FieldType) → (ty.onTerminal (.named name fileName)).listHooks = ty.listHooks
  | .list element hooks => congrArg (hooks :: ·) (listHooks_onTerminal name fileName element)
  | .named .. => rfl
  | .generic .. => rfl

theorem FieldType.terminal_concrete {ty : FieldType} {r : Reference} (h : ty.applied? = some r) :
    ty.concrete.terminal = ⟨r.escapedName, none, r.fileName⟩ := by
  obtain ⟨args, hargs, rfl⟩ := Option.map_eq_some_iff.mp h
  simp only [concrete, hargs, terminal_onTerminal]
  rfl

namespace Side

variable {s : Side} {f : ResolvedField} {e : s.SchemaField} {ty : FieldType}

theorem mem_types_iff {f : Field} : ty ∈ f.types ↔ ∃ s : Side, ty ∈ s.declaredTypes f := by
  rw [Field.types, List.append_assoc, List.mem_append]
  constructor
  · rintro (h | h)
    · exact ⟨input, h⟩
    · exact ⟨output, h⟩
  · rintro ⟨s, h⟩
    cases s with
    | input => exact Or.inl h
    | output => exact Or.inr h

theorem declared_of_mem {f : Field} (h : ty ∈ s.declaredTypes f) : s.declared f = true := by
  cases s with
  | input =>
    cases hf : f.input with
    | none => simp [declaredTypes, hf] at h
    | some v => simp [declared, hf]
  | output =>
    cases hf : f.output with
    | none => simp [declaredTypes, hf] at h
    | some v => simp [declared, hf]

theorem types_of_shown (h : s.shown f = some e) :
    s.types e = (s.declaredTypes f.field).map FieldType.concrete := by
  cases s with
  | input =>
    obtain ⟨v, hv, rfl⟩ := Option.map_eq_some_iff.mp h
    simp [types, declaredTypes, hv]
  | output =>
    obtain ⟨v, hv, rfl⟩ := Option.map_eq_some_iff.mp h
    cases hp : v.param <;> simp [types, declaredTypes, hv, hp]

end Side

namespace Normalize

variable {g : Graph} {h : List Visit} {st : State} {name : String} {o : Object} {r : Reference}

/-! ### Types -/

/-- What an instantiation was made for has arguments.  Without any, it would go by the name of its
template, which is taken. -/
theorem args_of_makes {depth : Nat} {p : String × Instance} (hmade : Makes g depth r p) :
    ∃ a rest, r.args = some (a :: rest) := by
  obtain ⟨t, ht, -⟩ := hmade.made
  have hne : r.args.getD [] ≠ [] := by
    intro hnil
    have hfree := hmade.free
    rw [hmade.name, Reference.escapedName_of_no_args hnil, Graph.contains,
      Dict.contains_eq_false_iff] at hfree
    exact hfree (Assoc.mem_keys_of_mem (Dict.find?_eq_some_iff.mp ht))
  cases hargs : r.args with
  | none => simp [hargs] at hne
  | some args =>
    cases args with
    | nil => simp [hargs] at hne
    | cons a rest => exact ⟨a, rest, rfl⟩

/-- An empty list of arguments is never granted.  The reference would have to go by the name of
something that has been instantiated, and what people read of the two would differ. -/
theorem args_ne_nil_of_granted (hc : Consistent g h st) (hr : Granted g st r)
    {args : List FieldType} (hargs : r.args = some args) : args ≠ [] := by
  rintro rfl
  obtain ⟨-, i, hi, hname⟩ := hr
  obtain ⟨v, -, q, -, hmade⟩ := hc.made _ (Dict.find?_eq_some_iff.mp hi)
  obtain ⟨a, rest, hcons⟩ := args_of_makes hmade
  obtain ⟨t, -, hinst⟩ := hmade.made
  have hescaped : r.escapedName = q.reference.escapedName := hmade.name
  have hgeneric : r.genericName = q.reference.genericName := by
    rw [← hname, (Object.instantiate_ok_iff.mp hinst).2]
    rfl
  -- behind the name of the template, one says `_` and the other says `<`
  have hchars : r.genericName.toList = r.escapedName.toList ++ ['<', '>'] := by
    simp [Reference.genericName, Reference.escapedName, Reference.toType, hargs,
      FieldType.toList_genericName_generic, FieldType.toList_escapedName_generic,
      FieldType.genericNames, FieldType.escapedArgs]
  rw [hescaped, hgeneric] at hchars
  simp [Reference.genericName, Reference.escapedName, Reference.toType, hcons,
    FieldType.toList_genericName_generic, FieldType.toList_escapedName_generic,
    FieldType.escapedArgs] at hchars

/-- The concrete form of a type whose reference has been granted. -/
theorem eliminates_concrete (hc : Consistent g h st) {ty : FieldType}
    (hgranted : ∀ r, ty.applied? = some r → Granted g st r) :
    st.result.Eliminates ty ty.concrete := by
  unfold Normalized.Eliminates
  cases hargs : ty.terminal.args with
  | none => simp only [FieldType.concrete, hargs]
  | some args =>
    have happlied : ty.applied? = some ty.terminal := by rw [FieldType.applied?, hargs]; rfl
    have hr := hgranted _ happlied
    obtain ⟨-, i, hi, -⟩ := id hr
    have hmem := Dict.find?_eq_some_iff.mp hi
    have hname : i.object.escapedName = ty.terminal.escapedName := hc.escapedName _ hmem
    refine ⟨args_ne_nil_of_granted hc hr hargs, ?_, i.object,
      mem_specializations_iff.mpr ⟨_, hmem, rfl⟩, hname, ?_⟩
    · simp only [FieldType.concrete, hargs, FieldType.listHooks_onTerminal]
    · rw [FieldType.terminal_concrete happlied, hname]

/-! ### Fields -/

/-- What stands in the declarations of a visited object has been granted. -/
theorem granted_of_visit (hc : Consistent g h st) {v : Visit} (hv : v ∈ h)
    (hnode : v.entry.node = .object o) (ho : o.isTemplate = false)
    {resolved : List ResolvedField} {reports : List Diagnostic}
    (hres : Resolution.resolveAll (lookup g st) o o.visibleFields.entries =
      .ok (resolved, reports)) {f : ResolvedField} (hf : f ∈ resolved) {ty : FieldType}
    (hty : ty ∈ f.field.types) (hr : ty.applied? = some r) : Granted g st r := by
  have hreport := hc.reported v hv
  rw [hnode, report_object_ok_iff ho] at hreport
  obtain ⟨resolved', reports', hres', hrep⟩ := hreport
  rw [hres] at hres'
  cases hres'
  have hrequested : ∃ q ∈ v.report.requests, q.reference = r := by
    rw [hrep]
    exact mem_objectReport_requests.mpr ⟨f, hf, ty, hty, hr⟩
  obtain ⟨q, hq, rfl⟩ := hrequested
  exact hc.granted v hv q hq

theorem eliminates_of_shown {s : Side} {f : ResolvedField} {e : s.SchemaField}
    (hc : Consistent g h st) (hshown : s.shown f = some e)
    (hgranted : ∀ ty ∈ f.field.types, ∀ r, ty.applied? = some r → Granted g st r) :
    List.Forall₂ st.result.Eliminates (s.declaredTypes f.field) (s.types e) := by
  rw [Side.types_of_shown hshown, List.forall₂_map_right_iff, List.forall₂_same]
  intro ty hty
  exact eliminates_concrete hc (hgranted ty (Side.mem_types_iff.mpr ⟨s, hty⟩))

theorem presents_result (hc : Consistent g h st) (hcomplete : Complete g h st) (s : Side)
    {x : ObjectSchema s.SchemaField} (hx : (s.schema st.result).find? name = some (.object x)) :
    st.result.Presents g s name x := by
  obtain ⟨v, hv, hname, o, resolved, reports, hnode, ho, hres, hside⟩ :=
    (Side.find?_object_iff hc).mp hx
  refine ⟨o, resolved, reports, (shows_result_iff hc hcomplete).mpr ⟨v, hv, hname, hnode, ho⟩,
    by rwa [lookup_result hc], ?_⟩
  rw [Object.fields_of_side? hside]
  refine forall₂_filter_filterMap (fun f _ => s.isSome_shown f) fun f hf e hshown => ?_
  refine ⟨hshown, eliminates_of_shown hc hshown fun ty hty r hr => ?_⟩
  have hmem := (FieldOrder.arrange_perm o resolved).mem_iff.mp hf
  exact granted_of_visit hc hv hnode ho hres hmem hty hr

/-! ### Links -/

/-- What a visit has requested stands in a field that it adds to a schema. -/
theorem refers_of_request (hc : Consistent g h st) {v : Visit} (hv : v ∈ h) {q : Request}
    (hq : q ∈ v.report.requests) :
    st.result.Refers v.entry.name q.reference.escapedName := by
  have hreport := hc.reported v hv
  obtain ⟨o, hnode, ho⟩ := object_of_mem_requests hreport hq
  rw [hnode, report_object_ok_iff ho] at hreport
  obtain ⟨resolved, reports, hres, hrep⟩ := hreport
  obtain ⟨f, hf, ty, hty, happlied⟩ := mem_objectReport_requests.mp ⟨q, hrep ▸ hq, rfl⟩
  obtain ⟨s, hty⟩ := Side.mem_types_iff.mp hty
  have hsome : (s.shown f).isSome = true := by rw [s.isSome_shown, Side.declared_of_mem hty]
  obtain ⟨e, he⟩ := Option.isSome_iff_exists.mp hsome
  have hmem : e ∈ (FieldOrder.arrange o resolved).filterMap s.shown :=
    List.mem_filterMap.mpr ⟨f, (FieldOrder.arrange_perm o resolved).mem_iff.mpr hf, he⟩
  have hside : o.side? v.entry.name ((FieldOrder.arrange o resolved).filterMap s.shown) = some _ :=
    Side.side?_eq_some_iff.mpr ⟨List.ne_nil_of_mem hmem, rfl⟩
  refine ⟨s, _, (Side.find?_object_iff hc).mpr
    ⟨v, hv, rfl, o, resolved, reports, hnode, ho, hres, hside⟩, e, hmem, ty.concrete, ?_, ?_⟩
  · rw [Side.types_of_shown he]
    exact List.mem_map_of_mem hty
  · rw [FieldType.terminal_concrete happlied]

/-- **Nothing is instantiated in vain.**  The induction is on the depth: what has an instantiation
made is less deep than the instantiation. -/
theorem linked_of_instances (hc : Consistent g h st) {d : Nat} : ∀ p ∈ st.instances.entries,
    p.2.depth = d → st.result.Linked g p.2.object.escapedName := by
  induction d using Nat.strongRecOn with
  | ind d ih =>
    intro p hp hd
    obtain ⟨v, hv, q, hq, hmade⟩ := hc.made p hp
    have hrefers := refers_of_request hc hv hq
    rw [← hmade.name, ← hc.escapedName p hp] at hrefers
    obtain ⟨o, hnode, ho⟩ := object_of_mem_requests (hc.reported v hv) hq
    rcases mem_worklist_iff.mp (hc.mem_worklist hv) with ⟨p', hp', hentry⟩ | ⟨p', hp', hentry⟩
    · rw [← hentry] at hnode hrefers
      refine .entry (Dict.find?_eq_some_iff.mpr ?_) ho hrefers
      rw [← show p'.2 = .object o from hnode]
      exact hp'
    · have hdepth : p'.2.depth < d := by
        rw [← hd, hmade.depth_eq, ← hentry]
        exact Nat.lt_succ_self _
      have hlinked := ih _ hdepth p' hp' rfl
      rw [← hentry] at hrefers
      refine .instantiation (mem_specializations_iff.mpr ⟨p', hp', rfl⟩) hlinked ?_
      rw [hc.escapedName p' hp']
      exact hrefers

/-! ### The instantiations -/

theorem escapedNames_result (hc : Consistent g h st) :
    st.result.specializations.map (·.escapedName) = st.instances.keys := by
  rw [State.result, Dict.values, List.map_map, List.map_map]
  exact List.map_congr_left hc.escapedName

theorem eliminated_result (hc : Consistent g h st) (hcomplete : Complete g h st) :
    st.result.Eliminated g := by
  refine
    { fields := fun s _ _ hx => presents_result hc hcomplete s hx
      nodup := by rw [escapedNames_result hc]; exact st.instances.nodup
      free := fun o ho => ?_
      concrete := fun o ho => ?_
      used := fun o ho => ?_
      name := fun o ho r hr hname => ?_
      linked := fun o ho => ?_ }
  all_goals obtain ⟨p, hp, rfl⟩ := mem_specializations_iff.mp ho
  · rw [hc.escapedName p hp]
    exact hc.free p hp
  · exact hc.noTemplates.find? (Dict.find?_eq_some_iff.mpr hp)
  · obtain ⟨v, hv, q, hq, hmade⟩ := hc.made p hp
    refine ⟨q.reference, (uses_result_iff hc hcomplete).mpr ⟨v, hv, q, hq, rfl⟩, ?_⟩
    rw [hc.escapedName p hp, hmade.name]
  · obtain ⟨-, i, hi, hgeneric⟩ := granted_of_uses hc hcomplete hr
    rw [hname, hc.escapedName p hp, Dict.find?_eq_some_iff.mpr hp] at hi
    cases hi
    exact hgeneric
  · exact linked_of_instances hc p hp rfl

end Normalize

/-- **Generics are eliminated.**  The types in the schemas are the declared ones with instantiations
in place of references with arguments, and every instantiation is linked to the graph. -/
theorem Graph.normalize_eliminated {g : Graph} {n : Normalized} (hn : g.normalize = .ok n) :
    n.Eliminated g := by
  obtain ⟨h, st, hrun, hcomplete, rfl⟩ := Graph.normalize_ok hn
  exact eliminated_result hrun.consistent hcomplete

theorem Graph.normalize_eliminated_pages : ∃ n, pages.normalize = .ok n ∧
    n.specializations.map (·.escapedName) = ["Book_Item", "Page_Item"] ∧ n.Eliminated pages :=
  ⟨_, rfl, by decide, normalize_eliminated rfl⟩

end EntityGraph
