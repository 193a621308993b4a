import EntityGraph.Proofs.Answers
import EntityGraph.Proofs.Emission
import EntityGraph.Proofs.HookFree

/-!
# What stands where in a result

Without hooks, what stands in the result of a validation has been made of what stood in the payload
at the same place, by the type that the schema gives to that place.  `Position` relates the three:

    the members of the result          the field of that target name that was sent last
    the elements of a list, if not null                    the type of the elements
    the members of an object below     the same again, if the schema has an object of that name

Nothing is left out: the members of a result are places, and so are the elements of what stands for
a list (`positions_of_done`, `positions_of_list`).

At each place the value is an answer of the walk for the type (`answers_of_position`).  So where the
graph declares an object with a field that callers may send, there stands an object with no other
members than such fields, which are places again (`members_of_position`).  An object of which
callers may send nothing is not in the input schema.  What is sent in its place is not looked at
(`eq_of_absent`).
-/

namespace EntityGraph

open Normalize

/-! ## Algorithm -/

/-- `v` stands in the result where `raw` stood in the payload, at a place for what has type `ty`. -/
inductive Position (schema : InputSchema) (o : InputObject) (payload result : Json) :
    (ty : FieldType) → (raw v : Json) → Prop
  | member {f : InputField} {raw v : Json} : LastSent o.fields payload f raw →
      result.member? f.targetName = some v → Position schema o payload result f.type raw v
  | element {ty : FieldType} {hooks : Hooks} {raw x w : Json} {items : List Json} {i : Nat} :
      Position schema o payload result (.list ty hooks) raw (.arr items) →
      (Validate.elements raw)[i]? = some x → items[i]? = some w → w ≠ .null →
      Position schema o payload result ty x w
  | nested {ty : FieldType} {name : String} {below : InputObject} {f : InputField}
      {raw v x w : Json} : Position schema o payload result ty raw v →
      ty.reference? = some name → schema.find? name = some (.object below) →
      LastSent below.fields raw f x → v.member? f.targetName = some w →
      Position schema o payload result f.type x w

/-- What goes by the name is an object that exposes a field which callers may send, and which has
the given name in results. -/
def Normalized.Takes (g : Graph) (n : Normalized) (name target : String) : Prop :=
  ∃ field, n.Declares g name field ∧ field.input.isSome = true ∧ field.name = target

/-! ## Lemmas -/

namespace Validate

variable {schema : InputSchema} {context : Option Json} {o : InputObject}
  {payload result raw v : Json} {path : FieldPath} {levels : Nat}

/-- A member of what becomes of an object is an answer for the field that was sent last. -/
theorem answers_of_lastSent (hfree : ∀ e ∈ o.fields, e.hookFree = true)
    (h : (object schema context levels o payload path).Answers result) {f : InputField}
    (hlast : LastSent o.fields payload f raw) (hv : result.member? f.targetName = some v) :
    f.type.hookFree = true ∧ ∃ levels' path',
      (value schema (object schema context levels') context f.type raw path').Answers v := by
  obtain ⟨levels', sent, made, -, -, rfl, hmade⟩ := answers_object h
  have hf := hfree f hlast.mem
  rw [InputField.hookFree, Bool.and_eq_true, Hooks.absent_iff] at hf
  obtain ⟨y, hy, hv⟩ := hmade.of_lastSent hlast hv
  rw [hf.1, Run.hooks_none, Run.answers_pure_iff] at hy
  subst hy
  exact ⟨hf.2, levels', _, hv⟩

/-- There is nothing in what becomes of an object but what fields were sent for. -/
theorem lastSent_of_answers (h : (object schema context levels o payload path).Answers result) :
    ∃ members, result = .obj members ∧ ∀ p ∈ members, ∃ f raw,
      LastSent o.fields payload f raw ∧ f.targetName = p.1 ∧
        result.member? f.targetName = some p.2 := by
  obtain ⟨_, _, made, -, -, rfl, hmade⟩ := answers_object h
  refine ⟨made, rfl, fun p hp => ?_⟩
  obtain ⟨f, raw, hlast, hname, -⟩ := hmade.members p hp
  refine ⟨f, raw, hlast, hname, ?_⟩
  rw [hname]
  exact Assoc.find?_of_mem hmade.nodup hp

/-- **What stands at a place** is an answer for what stood there in the payload. -/
theorem answers_of_position {ty : FieldType} (hroot : ∀ e ∈ o.fields, e.hookFree = true)
    (hfree : ∀ name x, schema.find? name = some (.object x) → ∀ e ∈ x.fields, e.hookFree = true)
    (h : (object schema context levels o payload path).Answers result)
    (hpos : Position schema o payload result ty raw v) : ty.hookFree = true ∧ ∃ levels' path',
      (value schema (object schema context levels') context ty raw path').Answers v := by
  induction hpos with
  | member hlast hv => exact answers_of_lastSent hroot h hlast hv
  | element _ hx hw hne ih =>
    obtain ⟨hty, levels', path', hitems⟩ := ih
    obtain ⟨rfl, hty⟩ := FieldType.hookFree_list_iff.mp hty
    obtain ⟨items', heq, hall⟩ := answers_value_list hitems
    cases heq
    obtain ⟨x', hx', hnull | ⟨-, j, y, hy, hanswers⟩⟩ := exists_getElem?_of_forall₂ hall hw
    · exact absurd hnull.2 hne
    · rw [hx] at hx'
      cases hx'
      rw [Run.hooks_none, Run.answers_pure_iff] at hy
      subst hy
      exact ⟨hty, levels', _, hanswers⟩
  | nested _ hname hbelow hlast hw ih =>
    obtain ⟨-, levels', path', hanswers⟩ := ih
    rcases answers_value_reference hname hanswers with ⟨below', hbelow', hobject⟩ | ⟨hno, -⟩
    · rw [hbelow] at hbelow'
      cases hbelow'
      exact answers_of_lastSent (hfree _ _ hbelow) hobject hlast hw
    · exact absurd hbelow (hno _)

end Validate

/-! ## Objects of the graph -/

namespace Normalize

variable {g : Graph} {h : List Visit} {st : State} {name target : String}

/-- An object of which callers may send something is in the input schema. -/
theorem exists_object_of_takes (hc : Consistent g h st) (hcomplete : Complete g h st)
    (htakes : st.result.Takes g name target) :
    ∃ x, st.result.input.find? name = some (.object x) := by
  obtain ⟨field, ⟨o, hshows, p, hp, hprov⟩, hinput, -⟩ := htakes
  obtain ⟨v, hv, hname, hnode, ho⟩ := (shows_result_iff hc hcomplete).mp hshows
  rw [lookup_result hc] at hprov
  have hreport := hc.reported v hv
  rw [hnode] at hreport
  obtain ⟨resolved, reports, hres, -⟩ := (report_object_ok_iff ho).mp hreport
  obtain ⟨y, hy⟩ := Resolution.resolveAll_isOk_iff.mp ⟨_, hres⟩ p hp
  obtain ⟨f, rfl, rfl⟩ := Resolution.resolve_of_provides hy hprov
  have hne : (FieldOrder.arrange o resolved).filterMap Side.input.shown ≠ [] :=
    (Side.filterMap_shown_ne_nil_iff hres).mpr ⟨p, hp, f, hy, hinput⟩
  have hside : o.side? name ((FieldOrder.arrange o resolved).filterMap Side.input.shown) =
      some ⟨o.name, name, o.id, o.deprecated, o.doc, _⟩ :=
    Side.side?_eq_some_iff.mpr ⟨hne, rfl⟩
  exact ⟨_, (Side.find?_object_iff (s := .input) hc).mpr
    ⟨v, hv, hname, o, resolved, reports, hnode, ho, hres, hside⟩⟩

theorem takes_of_mem (hc : Consistent g h st) (hcomplete : Complete g h st) {x : InputObject}
    (hx : st.result.input.find? name = some (.object x)) {e : InputField} (he : e ∈ x.fields) :
    st.result.Takes g name e.targetName := by
  obtain ⟨f, hdeclares, hshown⟩ := Side.exists_declares_of_mem (s := .input) hc hcomplete hx he
  obtain ⟨v, hv, rfl⟩ := Option.map_eq_some_iff.mp hshown
  exact ⟨f.field, hdeclares, by rw [hv]; rfl, rfl⟩

end Normalize

namespace Graph

variable {g : Graph} {n : Normalized} {name m : String} {x : InputObject}
  {limit : Option Duration} {context : Option Json} {payload result raw v : Json} {ty : FieldType}

theorem answers_of_position (hg : g.hookFree = true) (hn : g.normalize = .ok n)
    (hx : n.input.find? name = some (.object x))
    (hdone : (Validator.validate ⟨n.input, limit⟩ x payload context).outcome = .done result)
    (hpos : Position n.input x payload result ty raw v) : ∃ levels path,
      (Validate.value n.input (Validate.object n.input context levels) context ty raw path).Answers
        v := by
  obtain ⟨h, st, hrun, hcomplete, rfl⟩ := normalize_ok hn
  have hfree : ∀ name' x', st.result.input.find? name' = some (.object x') →
      ∀ e ∈ x'.fields, e.hookFree = true :=
    fun _ _ hx' _ he => hookFree_of_mem_input hg hrun hcomplete hx' he
  have hanswers := Run.answers_of_verdict hdone
  exact (Validate.answers_of_position (hfree name x hx) hfree hanswers hpos).2

/-- Where the input schema has no object of the name, the payload is taken over as it is. -/
theorem eq_of_absent (hg : g.hookFree = true) (hn : g.normalize = .ok n)
    (hx : n.input.find? name = some (.object x))
    (hdone : (Validator.validate ⟨n.input, limit⟩ x payload context).outcome = .done result)
    (hpos : Position n.input x payload result ty raw v) (hm : ty.reference? = some m)
    (habsent : n.input.find? m = none) : v = raw := by
  obtain ⟨levels, path, hanswers⟩ := answers_of_position hg hn hx hdone hpos
  rcases Validate.answers_value_reference hm hanswers with ⟨y, hy, -⟩ | ⟨-, rfl⟩
  · rw [habsent] at hy
    cases hy
  · rfl

theorem positions_of_done {schema : InputSchema}
    (hdone : (Validator.validate ⟨schema, limit⟩ x payload context).outcome = .done result) :
    ∃ members, result = .obj members ∧ ∀ p ∈ members, ∃ f ∈ x.fields, f.targetName = p.1 ∧
      ∃ raw, Position schema x payload result f.type raw p.2 := by
  obtain ⟨members, hresult, hmembers⟩ :=
    Validate.lastSent_of_answers (Run.answers_of_verdict hdone)
  refine ⟨members, hresult, fun p hp => ?_⟩
  obtain ⟨f, raw, hlast, hname, hv⟩ := hmembers p hp
  exact ⟨f, hlast.mem, hname, raw, .member hlast hv⟩

theorem positions_of_list (hg : g.hookFree = true) (hn : g.normalize = .ok n)
    (hx : n.input.find? name = some (.object x))
    (hdone : (Validator.validate ⟨n.input, limit⟩ x payload context).outcome = .done result)
    {hooks : Hooks} (hpos : Position n.input x payload result (.list ty hooks) raw v) :
    ∃ items, v = .arr items ∧ ∀ w ∈ items, w ≠ .null →
      ∃ raw', Position n.input x payload result ty raw' w := by
  obtain ⟨levels, path, hanswers⟩ := answers_of_position hg hn hx hdone hpos
  obtain ⟨items, rfl, hall⟩ := Validate.answers_value_list hanswers
  refine ⟨items, rfl, fun w hw hne => ?_⟩
  obtain ⟨i, hi⟩ := List.getElem?_of_mem hw
  obtain ⟨raw', hraw', -⟩ := exists_getElem?_of_forall₂ hall hi
  exact ⟨raw', .element hpos hraw' hi hne⟩

/-- **No undeclared members.**  Where the type names an object of which callers may send something,
there stands an object, and each of its members is a field of that object which they may send. -/
theorem members_of_position (hg : g.hookFree = true) (hn : g.normalize = .ok n)
    (hx : n.input.find? name = some (.object x))
    (hdone : (Validator.validate ⟨n.input, limit⟩ x payload context).outcome = .done result)
    (hpos : Position n.input x payload result ty raw v) (hm : ty.reference? = some m)
    (htakes : ∃ target, n.Takes g m target) : ∃ members, v = .obj members ∧ ∀ p ∈ members,
      n.Takes g m p.1 ∧ ∃ ty' raw', Position n.input x payload result ty' raw' p.2 := by
  obtain ⟨levels, path, hanswers⟩ := answers_of_position hg hn hx hdone hpos
  obtain ⟨h, st, hrun, hcomplete, rfl⟩ := normalize_ok hn
  have hc := hrun.consistent
  obtain ⟨target, htakes⟩ := htakes
  obtain ⟨y, hy⟩ := exists_object_of_takes hc hcomplete htakes
  rcases Validate.answers_value_reference hm hanswers with ⟨y', hy', hobject⟩ | ⟨hno, -⟩
  · obtain ⟨members, hv, hmembers⟩ := Validate.lastSent_of_answers hobject
    refine ⟨members, hv, fun p hp => ?_⟩
    obtain ⟨e, raw', hlast, htarget, hmember⟩ := hmembers p hp
    refine ⟨?_, e.type, raw', .nested hpos hm hy' hlast hmember⟩
    rw [← htarget]
    exact takes_of_mem hc hcomplete hy' hlast.mem
  · exact absurd hy (hno y)

/-- A user has a profile, of which callers may send the name, and a badge, of which they may send
nothing. -/
def users : Graph :=
  let name : Field := .both "Profile" "name" 0 (.named "Text" none)
  let label : Field := { Field.both "Badge" "label" 0 (.named "Text" none) with input := none }
  let profile : Field := .both "User" "profile" 0 (.named "Profile" none)
  let badge : Field := .both "User" "badge" 1 (.named "Badge" none)
  ⟨⟨[("Text", .scalar ⟨"Text", none⟩),
    ("Profile", .object ((Object.named "Profile").withField name false)),
    ("Badge", .object ((Object.named "Badge").withField label false)),
    ("User", .object (((Object.named "User").withField profile false).withField badge false))],
    by decide⟩⟩

/-- What callers may send of a user. -/
def userInput : InputObject :=
  let field (name type : String) : InputField :=
    ⟨name, name, none, 0, false, true, none, none, .named type none, .none⟩
  ⟨"User", "User", 0, false, none, [field "profile" "Profile", field "badge" "Badge"]⟩

/-- A user whose profile has a member too many, and whose badge is a text. -/
def sentUser : Json :=
  .obj [("profile", .obj [("name", .str ""), ("other", .bool true)]), ("badge", .str "x")]

def doneUser : Json := .obj [("profile", .obj [("name", .str "")]), ("badge", .str "x")]

theorem position_profile (schema : InputSchema) : Position schema userInput sentUser doneUser
    (.named "Profile" none) (.obj [("name", .str ""), ("other", .bool true)])
    (.obj [("name", .str "")]) := by
  have hlast : LastSent userInput.fields sentUser userInput.fields[0]
      (.obj [("name", .str ""), ("other", .bool true)]) := by
    refine ⟨[], [_], rfl, ⟨rfl, by simp⟩, fun e he heq => ?_⟩
    cases List.mem_singleton.mp he
    exact absurd heq (by decide)
  exact .member hlast rfl

theorem position_badge (schema : InputSchema) : Position schema userInput sentUser doneUser
    (.named "Badge" none) (.str "x") (.str "x") := by
  have hlast : LastSent userInput.fields sentUser userInput.fields[1] (.str "x") :=
    ⟨[_], [], rfl, ⟨rfl, by simp⟩, by simp⟩
  exact .member hlast rfl

theorem members_of_position_profile : ∃ n, users.hookFree = true ∧ users.normalize = .ok n ∧
    n.input.find? "User" = some (.object userInput) ∧
    (Validator.validate ⟨n.input, none⟩ userInput sentUser none).outcome = .done doneUser ∧
    (∃ target, n.Takes users "Profile" target) ∧ ∃ members,
      Json.obj [("name", .str "")] = .obj members ∧ ∀ p ∈ members, n.Takes users "Profile" p.1 ∧
        ∃ ty' raw', Position n.input userInput sentUser doneUser ty' raw' p.2 := by
  have htakes (n : Normalized) : ∃ target, n.Takes users "Profile" target :=
    ⟨"name", _, ⟨_, Or.inl ⟨rfl, rfl⟩, _, List.mem_cons_self, Or.inl rfl⟩, rfl, rfl⟩
  refine ⟨_, rfl, rfl, ?sent, ?done, htakes _,
    members_of_position rfl rfl ?sent ?done (position_profile _) rfl (htakes _)⟩
  case sent => rfl
  case done => rfl

/-- What stands for a badge need not be an object. -/
theorem not_members_of_position_badge : ∃ n, users.hookFree = true ∧ users.normalize = .ok n ∧
    n.input.find? "User" = some (.object userInput) ∧
    (Validator.validate ⟨n.input, none⟩ userInput sentUser none).outcome = .done doneUser ∧
    ¬ ∀ ty raw v m o, Position n.input userInput sentUser doneUser ty raw v →
      ty.reference? = some m → n.Shows users m o →
      ∃ members, v = .obj members ∧ ∀ p ∈ members, n.Takes users m p.1 := by
  refine ⟨_, rfl, rfl, rfl, rfl, fun hall => ?_⟩
  obtain ⟨members, hmembers, -⟩ :=
    hall _ _ _ "Badge" _ (position_badge _) rfl (Or.inl ⟨rfl, rfl⟩)
  cases hmembers

end Graph

end EntityGraph
