import EntityGraph.Proofs.Reach
import EntityGraph.Proofs.Sides

/-!
# Graphs without hooks

A graph that comes from a document carries no hooks.  Nothing that is made of it does either: an
instantiation puts together the types of a template and those of a reference in the graph, and the
schemas take hooks and lists over as they are declared.

    g.hookFree → g.normalize = .ok n → n.input.find? name = some (.object x) →
      ∀ e ∈ x.fields, e.hookFree                                       (hookFree_of_mem_input)

What is inherited may come from an instantiation as well as from the graph.  So the property is
carried through the run, from what a visit looks up to what is instantiated for it
(`forall_instances`).
-/

namespace EntityGraph

/-! ## Algorithm -/

/-- Whether there is no hook at all. -/
def Hooks.absent (h : Hooks) : Bool := h.assertion.isNone && h.transform.isNone

namespace FieldType

mutual

/-- Whether no list in the type, arguments included, carries a hook. -/
def hookFree : FieldType → Bool
  | .list element hooks => hooks.absent && element.hookFree
  | .named .. => true
  | .generic _ args _ => hookFreeAll args

def hookFreeAll : List FieldType → Bool
  | [] => true
  | a :: rest => a.hookFree && hookFreeAll rest

end

end FieldType

def Reference.hookFree (r : Reference) : Bool := r.toType.hookFree

def InputVariant.hookFree (v : InputVariant) : Bool := v.hooks.absent && v.type.hookFree

def OutputVariant.hookFree (v : OutputVariant) : Bool :=
  v.hooks.absent && v.type.hookFree && v.param.all (·.hookFree)

def Field.hookFree (f : Field) : Bool := f.input.all (·.hookFree) && f.output.all (·.hookFree)

def Object.hookFree (o : Object) : Bool := o.fields.entries.all (·.2.hookFree)

def Node.hookFree : Node → Bool
  | .scalar _ | .enumeration _ => true
  | .union u => u.types.all (·.hookFree)
  | .object o => o.hookFree
  | .list element hooks => hooks.absent && element.hookFree
  | .reference r => r.hookFree
  | .field f => f.hookFree

def Graph.hookFree (g : Graph) : Bool := g.entities.entries.all (·.2.hookFree)

def InputField.hookFree (f : InputField) : Bool := f.hooks.absent && f.type.hookFree

/-! ## Lemmas -/

theorem Hooks.absent_iff {h : Hooks} : h.absent = true ↔ h = .none := by
  obtain ⟨assertion, transform⟩ := h
  simp [absent, Hooks.none]

namespace FieldType

@[simp] theorem hookFree_list_iff {element : FieldType} {hooks : Hooks} :
    (list element hooks).hookFree = true ↔ hooks = .none ∧ element.hookFree = true := by
  rw [hookFree, Bool.and_eq_true, Hooks.absent_iff]

@[simp] theorem hookFreeAll_iff {args : List FieldType} :
    hookFreeAll args = true ↔ ∀ a ∈ args, a.hookFree = true := by
  induction args with
  | nil => simp [hookFreeAll]
  | cons a rest ih => simp [hookFreeAll, ih]

theorem hookFree_substitute {b : Bindings} (hb : ∀ name a, b name = some a → a.hookFree = true)
    {ty : FieldType} (h : ty.hookFree = true) : (ty.substitute b).hookFree = true := by
  induction ty with
  | list element hooks ih =>
    rw [hookFree_list_iff] at h
    rw [substitute, hookFree_list_iff]
    exact ⟨h.1, ih h.2⟩
  | named name fileName =>
    rw [substitute]
    cases ha : b name with
    | none => rfl
    | some a => exact hb name a ha
  | generic name args fileName ih =>
    rw [hookFree, hookFreeAll_iff] at h
    rw [substitute, hookFree, hookFreeAll_iff, substituteAll_eq_map, List.forall_mem_map]
    exact fun a ha => ih a ha (h a ha)

theorem hookFree_concrete {ty : FieldType} (h : ty.hookFree = true) :
    ty.concrete.hookFree = true := by
  have honTerminal : ∀ name fileName, (ty.onTerminal (.named name fileName)).hookFree = true := by
    intro name fileName
    induction ty with
    | list element hooks ih =>
      rw [hookFree_list_iff] at h
      rw [onTerminal, hookFree_list_iff]
      exact ⟨h.1, ih h.2⟩
    | named => rfl
    | generic => rfl
  unfold concrete
  cases hargs : ty.terminal.args with
  | none => simpa only [hargs] using h
  | some args =>
    simp only [hargs]
    exact honTerminal _ _

theorem hookFree_terminal {ty : FieldType} (h : ty.hookFree = true) :
    ty.terminal.hookFree = true := by
  induction ty with
  | list element hooks ih => exact ih (hookFree_list_iff.mp h).2
  | named name fileName => exact h
  | generic name args fileName ih => exact h

theorem hookFree_of_applied? {ty : FieldType} {r : Reference} (hr : ty.applied? = some r)
    (h : ty.hookFree = true) : r.hookFree = true := by
  obtain ⟨args, -, rfl⟩ := Option.map_eq_some_iff.mp hr
  exact hookFree_terminal h

end FieldType

namespace Field

variable {f : Field} {b : Bindings}

theorem mem_types_iff {ty : FieldType} : ty ∈ f.types ↔ (∃ v, f.input = some v ∧ v.type = ty) ∨
    ∃ v, f.output = some v ∧ (v.param = some ty ∨ v.type = ty) := by
  simp [types, Option.map_eq_some_iff, Option.bind_eq_some_iff, exists_or, and_or_left]

theorem hookFree_iff : f.hookFree = true ↔ (∀ v, f.input = some v → v.hooks = .none) ∧
    (∀ v, f.output = some v → v.hooks = .none) ∧ ∀ ty ∈ f.types, ty.hookFree = true := by
  have hinput : f.input.all (·.hookFree) = true ↔
      ∀ v, f.input = some v → v.hooks = .none ∧ v.type.hookFree = true := by
    simp [Option.all_eq_true, InputVariant.hookFree, Hooks.absent_iff]
  have houtput : f.output.all (·.hookFree) = true ↔ ∀ v, f.output = some v →
      (v.hooks = .none ∧ v.type.hookFree = true) ∧
        ∀ ty, v.param = some ty → ty.hookFree = true := by
    simp [Option.all_eq_true, OutputVariant.hookFree, Hooks.absent_iff]
  rw [hookFree, Bool.and_eq_true, hinput, houtput]
  constructor
  · rintro ⟨hin, hout⟩
    refine ⟨fun v hv => (hin v hv).1, fun v hv => (hout v hv).1.1, fun ty hty => ?_⟩
    rcases mem_types_iff.mp hty with ⟨v, hv, rfl⟩ | ⟨v, hv, hparam | rfl⟩
    · exact (hin v hv).2
    · exact (hout v hv).2 ty hparam
    · exact (hout v hv).1.2
  · rintro ⟨hin, hout, htypes⟩
    refine ⟨fun v hv => ⟨hin v hv, ?_⟩, fun v hv => ⟨⟨hout v hv, ?_⟩, fun ty hty => ?_⟩⟩
    · exact htypes _ (mem_types_iff.mpr (Or.inl ⟨v, hv, rfl⟩))
    · exact htypes _ (mem_types_iff.mpr (Or.inr ⟨v, hv, Or.inr rfl⟩))
    · exact htypes _ (mem_types_iff.mpr (Or.inr ⟨v, hv, Or.inl hty⟩))

theorem hookFree_instantiate (hb : ∀ name a, b name = some a → a.hookFree = true)
    (h : f.hookFree = true) (owner : String) : (f.instantiate b owner).hookFree = true := by
  obtain ⟨hinput, houtput, htypes⟩ := hookFree_iff.mp h
  refine hookFree_iff.mpr ⟨fun v hv => ?_, fun v hv => ?_, fun ty hty => ?_⟩
  · obtain ⟨v', hv', rfl⟩ := Option.map_eq_some_iff.mp hv
    exact hinput v' hv'
  · obtain ⟨v', hv', rfl⟩ := Option.map_eq_some_iff.mp hv
    exact houtput v' hv'
  · rw [types_instantiate] at hty
    obtain ⟨ty', hty', rfl⟩ := List.mem_map.mp hty
    exact FieldType.hookFree_substitute hb (htypes ty' hty')

end Field

namespace Object

variable {t : Object} {r : Reference}

theorem hookFree_iff {o : Object} :
    o.hookFree = true ↔ ∀ p ∈ o.fields.entries, p.2.hookFree = true := List.all_eq_true

theorem hookFree_bindings (hr : r.hookFree = true) :
    ∀ name a, t.bindings r name = some a → a.hookFree = true := by
  intro name a ha
  have hmem := (List.of_mem_zip (Bindings.mem_of_ofPairs ha)).2
  obtain ⟨rname, args, fileName⟩ := r
  cases args with
  | none => cases hmem
  | some args => exact FieldType.hookFreeAll_iff.mp hr a hmem

theorem hookFree_instanceOf (ht : t.hookFree = true) (hr : r.hookFree = true) (escaped : String) :
    (t.instanceOf r escaped).hookFree = true := by
  rw [hookFree_iff] at ht ⊢
  intro p hp
  obtain ⟨q, hq, rfl⟩ := List.mem_map.mp hp
  exact Field.hookFree_instantiate (hookFree_bindings hr) (ht q hq) escaped

/-- What an object declares or inherits is without hooks, if the objects that go by a name are. -/
theorem hookFree_of_provides {o : Object} {lookup : String → Option Node} {key : String}
    {v : VisibleField} {field : Field} (ho : o.hookFree = true)
    (hlookup : ∀ name owner, lookup name = some (.object owner) → owner.hookFree = true)
    (hprov : Resolution.Provides lookup o key v field) : field.hookFree = true := by
  rcases hprov with hown | ⟨-, pre, name, post, -, -, owner, howner, hfield⟩
  · exact hookFree_iff.mp ho _ (Dict.find?_eq_some_iff.mp hown)
  · exact hookFree_iff.mp (hlookup name owner howner) _ (Dict.find?_eq_some_iff.mp hfield)

theorem hookFree_of_requests {o : Object} {lookup : String → Option Node} (ho : o.hookFree = true)
    (hlookup : ∀ name owner, lookup name = some (.object owner) → owner.hookFree = true)
    (hreq : o.Requests lookup r) : r.hookFree = true := by
  obtain ⟨p, -, field, hprov, ty, hty, happlied⟩ := hreq
  have hfield := hookFree_of_provides ho hlookup hprov
  exact FieldType.hookFree_of_applied? happlied ((Field.hookFree_iff.mp hfield).2.2 ty hty)

end Object

/-! ## What is kept through a run -/

namespace Normalize

variable {g : Graph} {h : List Visit} {st : State} {P : Object → Prop} {Q : Reference → Prop}

theorem forall_lookup (hgraph : g.AllObjects P)
    (hinstances : ∀ p ∈ st.instances.entries, P p.2.object)
    {name : String} {o : Object} (ho : lookup g st name = some (.object o)) : P o := by
  unfold lookup at ho
  cases hg : g.find? name with
  | some node =>
    rw [hg] at ho
    cases ho
    exact hgraph.find? hg
  | none =>
    rw [hg] at ho
    obtain ⟨i, hi, hobject⟩ := Option.map_eq_some_iff.mp ho
    cases hobject
    exact hinstances _ (Dict.find?_eq_some_iff.mp hi)

/-- What holds of all objects of the graph holds of the instantiations, if something follows from it
for all that is requested, and the two together for what is made. -/
theorem forall_instances (hgraph : g.AllObjects P)
    (hrequest : ∀ lookup o r, P o → (∀ name owner, lookup name = some (.object owner) → P owner) →
      o.Requests lookup r → Q r)
    (hmake : ∀ t r escaped, P t → Q r → P (t.instanceOf r escaped)) (hrun : Run g h st) :
    ∀ p ∈ st.instances.entries, P p.2.object := by
  induction hrun with
  | start => exact fun p hp => nomatch hp
  | @visit h st st' e r hrun he hr hgrant ih =>
    have hc := hrun.consistent
    obtain ⟨new, hnew, hmade⟩ := (grantAll_grows hc.noTemplates hgrant).instances
    intro p hp
    change p ∈ st'.instances.entries at hp
    rw [hnew] at hp
    rcases List.mem_append.mp hp with hp | hp
    · exact ih p hp
    · obtain ⟨q, hq, hmakes⟩ := hmade p hp
      obtain ⟨t, ht, hinst⟩ := hmakes.made
      obtain ⟨o, hnode, ho⟩ := object_of_mem_requests hr hq
      rw [hnode] at hr
      have hreq := (mem_requests_report_iff ho hr).mp ⟨q, hq, rfl⟩
      have hPo : P o := by
        rcases mem_worklist_iff.mp (List.mem_of_getElem? he) with ⟨p, hp, rfl⟩ | ⟨p, hp, rfl⟩
        · have hifObject := hgraph p hp
          rw [show p.2 = .object o from hnode] at hifObject
          exact hifObject
        · cases hnode
          exact ih p hp
      rw [(Object.instantiate_ok_iff.mp hinst).2]
      refine hmake t q.reference p.1 (hgraph.find? ht) ?_
      exact hrequest _ o q.reference hPo (fun _ _ => forall_lookup hgraph ih) hreq

end Normalize

theorem Graph.allObjects_of_hookFree {g : Graph} (hg : g.hookFree = true) :
    g.AllObjects (·.hookFree = true) := by
  intro p hp
  have hnode := List.all_eq_true.mp hg p hp
  revert hnode
  cases p.2 with
  | object o => exact id
  | _ => exact fun _ => trivial

namespace Normalize

variable {g : Graph} {h : List Visit} {st : State} {name : String}

/-- Everything that the schemas show is without hooks. -/
theorem hookFree_of_declares (hg : g.hookFree = true) (hrun : Run g h st) {field : Field}
    (hdeclares : st.result.Declares g name field) : field.hookFree = true := by
  have hgraph := Graph.allObjects_of_hookFree hg
  have hinstances := forall_instances (Q := (·.hookFree = true)) hgraph
    (fun _ _ _ => Object.hookFree_of_requests)
    (fun _ _ escaped ht hr => Object.hookFree_instanceOf ht hr escaped) hrun
  obtain ⟨o, hshows, p, -, hprov⟩ := hdeclares
  rw [lookup_result hrun.consistent] at hprov
  refine Object.hookFree_of_provides ?_ (fun _ _ => forall_lookup hgraph hinstances) hprov
  rcases hshows with ⟨ho, -⟩ | ⟨ho, -⟩
  · exact hgraph.find? ho
  · obtain ⟨q, hq, rfl⟩ := mem_specializations_iff.mp ho
    exact hinstances q hq

theorem hookFree_of_mem_input (hg : g.hookFree = true) (hrun : Run g h st)
    (hcomplete : Complete g h st) {x : InputObject}
    (hx : st.result.input.find? name = some (.object x)) {e : InputField} (he : e ∈ x.fields) :
    e.hookFree = true := by
  obtain ⟨f, hdeclares, hshown⟩ :=
    Side.exists_declares_of_mem (s := .input) hrun.consistent hcomplete hx he
  have hfield := Field.hookFree_iff.mp (hookFree_of_declares hg hrun hdeclares)
  obtain ⟨v, hv, rfl⟩ := Option.map_eq_some_iff.mp hshown
  have htype := hfield.2.2 v.type (Field.mem_types_iff.mpr (Or.inl ⟨v, hv, rfl⟩))
  rw [InputField.hookFree, Bool.and_eq_true, Hooks.absent_iff]
  exact ⟨hfield.1 v hv, FieldType.hookFree_concrete htype⟩

end Normalize

end EntityGraph
