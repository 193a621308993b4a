import EntityGraph.Proofs.Report
import EntityGraph.Proofs.UniqueNames

/-!
# What an object requests

An object requests the references with arguments in the declarations of its visible fields, and
those are what its report says (`mem_requests_report_iff`).

Objects that agree up to what is forgotten request the same up to that (`Agree.requests`), and an
object without empty lists of arguments requests nothing that has any (`full_of_requests`).
-/

namespace EntityGraph

/-! ## Algorithm -/

namespace Object

/-- `r` is a reference with arguments in the declaration of a visible field. -/
def Requests (lookup : String → Option Node) (o : Object) (r : Reference) : Prop :=
  ∃ p ∈ o.visibleFields.entries, ∃ field, Resolution.Provides lookup o p.1 p.2 field ∧
    ∃ ty ∈ field.types, ty.applied? = some r

/-- The objects are the same without files and with `f` of the hooks of lists. -/
def Agree (f : Hooks → Hooks) (o o' : Object) : Prop :=
  o.mapTypes (·.forget f) = o'.mapTypes (·.forget f)

/-- The objects are the same without files and hooks of lists. -/
def Alike (o o' : Object) : Prop := Agree (fun _ => .none) o o'

/-- No list of arguments in the declared types is empty. -/
def Full (o : Object) : Prop := ∀ p ∈ o.fields.entries, ∀ ty ∈ p.2.types, ty.Full

instance (o : Object) : Decidable o.Full :=
  inferInstanceAs (Decidable (∀ p ∈ o.fields.entries, ∀ ty ∈ p.2.types, ty.Full))

end Object

/-! ## Requests and reports -/

namespace Normalize

variable {lookup : String → Option Node} {name : String} {o : Object} {node : Node} {r : Report}
  {ref : Reference}

theorem mem_requests_report_iff (ho : o.isTemplate = false)
    (hr : report lookup name (.object o) = .ok r) :
    (∃ q ∈ r.requests, q.reference = ref) ↔ o.Requests lookup ref := by
  obtain ⟨resolved, reports, hres, rfl⟩ := (report_object_ok_iff ho).mp hr
  rw [mem_objectReport_requests]
  constructor
  · rintro ⟨f, hf, hty⟩
    obtain ⟨p, hp, hone⟩ := (Resolution.mem_resolveAll hres).mp hf
    exact ⟨p, hp, f.field, Resolution.provides_of_resolve hone, hty⟩
  · rintro ⟨p, hp, field, hprov, hty⟩
    obtain ⟨x, hx⟩ := Resolution.resolveAll_isOk_iff.mp ⟨_, hres⟩ p hp
    obtain ⟨f, rfl, rfl⟩ := Resolution.resolve_of_provides hx hprov
    exact ⟨f, (Resolution.mem_resolveAll hres).mpr ⟨p, hp, hx⟩, hty⟩

/-- Only objects that are no templates request anything. -/
theorem object_of_mem_requests {q : Request} (hr : report lookup name node = .ok r)
    (hq : q ∈ r.requests) : ∃ o, node = .object o ∧ o.isTemplate = false := by
  cases node with
  | object o =>
    refine ⟨o, rfl, ?_⟩
    cases ho : o.isTemplate with
    | false => rfl
    | true =>
      rw [report_template ho] at hr
      cases hr
      cases hq
  | scalar s => cases hr; cases hq
  | enumeration e => cases hr; cases hq
  | union u => cases hr; cases hq
  | _ => cases hr

/-- The report of an object needs nothing but that its fields can be resolved. -/
theorem report_object_isOk_iff (ho : o.isTemplate = false) :
    (∃ r, report lookup name (.object o) = .ok r) ↔ ∀ p ∈ o.visibleFields.entries,
      o.fields.find? p.1 = none →
        Resolution.ObjectsUpTo lookup p.1 (Resolution.searchOrder o p.2) := by
  have hres : (∃ x, Resolution.resolveAll lookup o o.visibleFields.entries = .ok x) ↔ _ :=
    Resolution.resolveAll_isOk_iff
  simp only [Resolution.resolve_isOk_iff] at hres
  rw [← hres]
  constructor
  · rintro ⟨r, hr⟩
    obtain ⟨resolved, reports, hok, -⟩ := (report_object_ok_iff ho).mp hr
    exact ⟨_, hok⟩
  · rintro ⟨⟨resolved, reports⟩, hok⟩
    exact ⟨_, (report_object_ok_iff ho).mpr ⟨resolved, reports, hok, rfl⟩⟩

end Normalize

/-! ## Objects that agree -/

section

variable {f : Hooks → Hooks}

theorem FieldType.applied?_forget (ty : FieldType) :
    (ty.forget f).applied? = ty.applied?.map (·.forget f) := by
  rw [applied?, applied?, terminal_forget]
  cases hargs : ty.terminal.args <;> simp [Reference.forget, hargs]

namespace Object.Agree

variable {o o' : Object} {lookup : String → Option Node}

theorem find?_fields (ha : Agree f o o') (key : String) :
    (o.fields.find? key).map (Field.mapTypes (·.forget f)) =
      (o'.fields.find? key).map (Field.mapTypes (·.forget f)) := by
  rw [← find?_fields_mapTypes, ← find?_fields_mapTypes, ha]

theorem visibleFields (ha : Agree f o o') : o.visibleFields = o'.visibleFields := by
  rw [Agree, mapTypes, mapTypes] at ha
  injection ha

theorem inherit (ha : Agree f o o') : o.inherit = o'.inherit := by
  rw [Agree, mapTypes, mapTypes] at ha
  injection ha

theorem generics (ha : Agree f o o') : o.generics = o'.generics := by
  rw [Agree, mapTypes, mapTypes] at ha
  injection ha

theorem searchOrder (ha : Agree f o o') (v : VisibleField) :
    Resolution.searchOrder o v = Resolution.searchOrder o' v := by
  rw [Resolution.searchOrder, Resolution.searchOrder, ancestors, ancestors, ha.inherit]

theorem find?_fields_eq_none (ha : Agree f o o') {key : String} (h : o.fields.find? key = none) :
    o'.fields.find? key = none := by
  have heq := ha.find?_fields key
  rw [h] at heq
  exact Option.map_eq_none_iff.mp heq.symm

/-- What they declare agrees, and what they inherit is the same. -/
theorem provides (ha : Agree f o o') {key : String} {v : VisibleField} {field : Field}
    (hp : Resolution.Provides lookup o key v field) :
    ∃ field', Resolution.Provides lookup o' key v field' ∧
      field'.mapTypes (·.forget f) = field.mapTypes (·.forget f) := by
  rcases hp with hown | ⟨hnone, hfirst⟩
  · have heq := ha.find?_fields key
    rw [hown] at heq
    obtain ⟨field', hown', hfield⟩ := Option.map_eq_some_iff.mp heq.symm
    exact ⟨field', Or.inl hown', hfield⟩
  · rw [ha.searchOrder] at hfirst
    exact ⟨field, Or.inr ⟨ha.find?_fields_eq_none hnone, hfirst⟩, rfl⟩

theorem requests (ha : Agree f o o') {r : Reference} (hr : o.Requests lookup r) :
    ∃ r', o'.Requests lookup r' ∧ r'.forget f = r.forget f := by
  obtain ⟨p, hp, field, hprov, ty, hty, happlied⟩ := hr
  obtain ⟨field', hprov', hfield⟩ := ha.provides hprov
  have htypes : field'.types.map (·.forget f) = field.types.map (·.forget f) := by
    rw [← Field.types_mapTypes, hfield, Field.types_mapTypes]
  have hmem : ty.forget f ∈ field'.types.map (·.forget f) := htypes ▸ List.mem_map_of_mem hty
  obtain ⟨ty', hty', hforget⟩ := List.mem_map.mp hmem
  have heq := congrArg FieldType.applied? hforget
  rw [FieldType.applied?_forget, FieldType.applied?_forget, happlied] at heq
  obtain ⟨r', happlied', hr'⟩ := Option.map_eq_some_iff.mp heq
  exact ⟨r', ⟨p, ha.visibleFields ▸ hp, field', hprov', ty', hty', happlied'⟩, hr'⟩

end Object.Agree

end

/-! ## Types without empty lists of arguments -/

namespace FieldType

theorem full_substitute {b : Bindings} (hb : ∀ name a, b name = some a → a.Full) {ty : FieldType}
    (hfull : ty.Full) : (ty.substitute b).Full := by
  induction ty with
  | list element hooks ih => exact ih hfull
  | named name fileName =>
    rw [substitute]
    cases h : b name with
    | none => rfl
    | some a => exact hb name a h
  | generic name args fileName ih =>
    rw [full_generic_iff] at hfull
    rw [substitute, full_generic_iff, substituteAll_eq_map, List.forall_mem_map]
    exact ⟨mt List.map_eq_nil_iff.mp hfull.1, fun a ha => ih a ha (hfull.2 a ha)⟩

theorem full_terminal {ty : FieldType} (hfull : ty.Full) : ty.terminal.toType.Full := by
  induction ty with
  | list element hooks ih => exact ih hfull
  | named name fileName => exact hfull
  | generic name args fileName ih => exact hfull

theorem full_of_applied? {ty : FieldType} {r : Reference} (h : ty.applied? = some r)
    (hfull : ty.Full) : r.toType.Full := by
  obtain ⟨args, -, rfl⟩ := Option.map_eq_some_iff.mp h
  exact full_terminal hfull

end FieldType

theorem Field.types_instantiate (b : Bindings) (owner : String) (f : Field) :
    (f.instantiate b owner).types = f.types.map (·.substitute b) :=
  f.types_mapTypes

theorem Bindings.mem_of_ofPairs {l : List (String × FieldType)} {name : String} {a : FieldType}
    (h : Bindings.ofPairs l name = some a) : (name, a) ∈ l := by
  induction l with
  | nil => cases h
  | cons p rest ih =>
    unfold ofPairs at h
    rcases Option.or_eq_some_iff.mp h with h | ⟨-, h⟩
    · exact List.mem_cons_of_mem _ (ih h)
    · split at h
      · next hname =>
        cases h
        rw [← hname]
        exact List.mem_cons_self
      · cases h

namespace Object

variable {t o : Object} {r : Reference} {lookup : String → Option Node}

theorem full_bindings (hr : r.toType.Full) :
    ∀ name a, t.bindings r name = some a → a.Full := by
  intro name a ha
  have hmem := (List.of_mem_zip (Bindings.mem_of_ofPairs ha)).2
  obtain ⟨rname, args, fileName⟩ := r
  cases args with
  | none => cases hmem
  | some args => exact (FieldType.full_generic_iff.mp hr).2 a hmem

theorem full_instanceOf (ht : t.Full) (hr : r.toType.Full) (escaped : String) :
    (t.instanceOf r escaped).Full := by
  intro p hp ty hty
  obtain ⟨q, hq, rfl⟩ := List.mem_map.mp hp
  rw [Field.types_instantiate, List.mem_map] at hty
  obtain ⟨ty', hty', rfl⟩ := hty
  exact FieldType.full_substitute (full_bindings hr) (ht q hq ty' hty')

theorem full_of_requests (ho : o.Full)
    (hlookup : ∀ name owner, lookup name = some (.object owner) → owner.Full)
    (hr : o.Requests lookup r) : r.toType.Full := by
  obtain ⟨p, -, field, hprov, ty, hty, happlied⟩ := hr
  refine FieldType.full_of_applied? happlied ?_
  rcases hprov with hown | ⟨-, pre, name, post, -, -, owner, howner, hfield⟩
  · exact ho _ (Dict.find?_eq_some_iff.mp hown) ty hty
  · exact hlookup name owner howner _ (Dict.find?_eq_some_iff.mp hfield) ty hty

end Object

end EntityGraph
