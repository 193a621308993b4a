import EntityGraph.Proofs.Unhooked

/-!
# The first misplaced value

Without hooks a validation asks one thing of a payload: that there is an object where the schema has
one.  These places are given without a walk: they are the root, and what can be reached by steps
through fields that have been sent and to elements of lists (`Child`, `ObjectPlace`).

    (v.validate o payload context).outcome = .done w           if all places hold objects
    (v.validate o payload context).outcome = .failed (.invalidShape path x.kind)
                                                               if `x` is at the first that does not

The order of places is the lexicographic one of the numbers of the steps that lead there, of the
field in its object and of the element in its list.  The path tells the same steps by name, and it
leads from the payload to the misplaced value (`follow_of_objectPlace`).

The schema may be cyclic.  The walk ends because it goes down the payload: what a field has been
sent is less deep than its object, and an element is no deeper than its list, with a smaller type.
-/

namespace EntityGraph

open FieldPath

/-! ## Algorithm -/

/-- What a schema demands of a value: that it is one of an input object, or of a type. -/
inductive Demand where
  | object (o : InputObject)
  | type (ty : FieldType)

/-- A step into a value: through a field of an object, if it has been sent, or to an element of a
list, unless it is null.  The number of the step is that of the field or of the element. -/
inductive Child : Demand → Json → Nat → Segment → Demand → Json → Prop
  | member {o : InputObject} {v : Json} {i : Nat} {f : InputField} {raw : Json} :
      o.fields[i]? = some f → f.Sent v raw →
      Child (.object o) v i (.field f.name) (.type f.type) raw
  | element {element : FieldType} {hooks : Hooks} {v : Json} {i : Nat} {x : Json} :
      (Validate.elements v)[i]? = some x → x ≠ .null →
      Child (.type (.list element hooks)) v i (.index i) (.type element) x

/-- A place inside a value at which the schema has an object: the numbers and the names of the steps
that lead there, and what is there. -/
inductive ObjectPlace (schema : InputSchema) :
    Demand → Json → List Nat → List Segment → Json → Prop
  | here {o : InputObject} {v : Json} : ObjectPlace schema (.object o) v [] [] v
  | child {demand demand' : Demand} {v v' x : Json} {i : Nat} {segment : Segment}
      {steps : List Nat} {segments : List Segment} :
      Child demand v i segment demand' v' →
      ObjectPlace schema demand' v' steps segments x →
      ObjectPlace schema demand v (i :: steps) (segment :: segments) x
  | reference {ty : FieldType} {name : String} {o : InputObject} {v x : Json} {steps : List Nat}
      {segments : List Segment} : ty.reference? = some name →
      schema.find? name = some (.object o) → ObjectPlace schema (.object o) v steps segments x →
      ObjectPlace schema (.type ty) v steps segments x

/-- Every place at which the schema has an object holds one. -/
def AllPlaced (schema : InputSchema) (demand : Demand) (v : Json) : Prop :=
  ∀ steps segments x, ObjectPlace schema demand v steps segments x → x.kind = .object

/-- The first of the places that hold no object. -/
structure FirstMisplaced (schema : InputSchema) (demand : Demand) (v : Json) (steps : List Nat)
    (segments : List Segment) (x : Json) : Prop where
  place : ObjectPlace schema demand v steps segments x
  misplaced : x.kind ≠ .object
  first : ∀ steps' segments' x', ObjectPlace schema demand v steps' segments' x' →
    steps' < steps → x'.kind = .object

/-- The path with further segments at its end. -/
def FieldPath.along (p : FieldPath) (segments : List Segment) : FieldPath :=
  { p with ending := segments.reverse ++ p.ending }

/-- The error names the first of the places that hold no object. -/
def MisplacedAt (schema : InputSchema) (demand : Demand) (v : Json) (path : FieldPath)
    (e : Halt) : Prop :=
  ∃ steps segments x, FirstMisplaced schema demand v steps segments x ∧
    e = .rejected (.invalidShape (path.along segments) x.kind)

/-- What is here is fine, so that there is nothing to look at but the children. -/
def Demand.Passes (v : Json) : Demand → Prop
  | .object _ => v.kind = .object
  | .type ty => ty.reference? = none

/-- The value that a path leads to; a value that is no array is followed as its only element. -/
def Json.follow : List Segment → Json → Option Json
  | [], v => some v
  | .field name :: rest, v => (v.member? name).bind (follow rest)
  | .index i :: rest, v => (Validate.elements v)[i]?.bind (follow rest)

/-- All is placed in an element, unless it is null. -/
def ElementPlaced (schema : InputSchema) (element : FieldType) (x : Json) : Prop :=
  x ≠ .null → AllPlaced schema (.type element) x

def ElementMisplacedAt (schema : InputSchema) (element : FieldType) (path : FieldPath) (i : Nat)
    (x : Json) (e : Halt) : Prop :=
  x ≠ .null ∧ MisplacedAt schema (.type element) x (path.along [.index i]) e

/-- All is placed in what the field has been sent. -/
def FieldPlaced (schema : InputSchema) (v : Json) (f : InputField) : Prop :=
  ∀ raw, f.Sent v raw → AllPlaced schema (.type f.type) raw

def FieldMisplacedAt (schema : InputSchema) (v : Json) (path : FieldPath) (f : InputField)
    (e : Halt) : Prop :=
  ∃ raw, f.Sent v raw ∧
    MisplacedAt schema (.type f.type) raw (path.along [.field f.name]) e

namespace Validate

/-- The run returns if all is placed in the value, and else it halts at the first
place that is not. -/
def Finds (schema : InputSchema) (demand : Demand) (v : Json) (path : FieldPath)
    (x : Run Json) : Prop :=
  x.Splits (AllPlaced schema demand v) (MisplacedAt schema demand v path)

end Validate

/-! ## Lemmas -/

namespace FieldPath

variable {p : FieldPath} {segments : List Segment}

theorem along_along (rest : List Segment) :
    (p.along segments).along rest = p.along (segments ++ rest) := by
  rw [along, along, along, List.reverse_append, List.append_assoc]

theorem segments_along : (p.along segments).segments = p.segments ++ segments := by
  rw [FieldPath.segments, along, List.reverse_append, List.reverse_reverse]
  rfl

end FieldPath

/-! ### Steps go down -/

namespace Json

variable {v x : Json} {key : String}

theorem depth_lt_of_member? (h : v.member? key = some x) : x.depth < v.depth := by
  cases v with
  | obj members =>
    have hmembers := depthMembers_le_iff.mp (Nat.le_refl (depthMembers members))
    exact Nat.lt_succ_of_le (hmembers _ (Assoc.mem_of_find? h))
  | _ => cases h

theorem depth_le_of_mem_elements (h : x ∈ Validate.elements v) : x.depth ≤ v.depth := by
  cases v with
  | arr items =>
    have hitems := depthItems_le_iff.mp (Nat.le_refl (depthItems items))
    exact Nat.le_succ_of_le (hitems x h)
  | _ => exact Nat.le_of_eq (congrArg depth (List.mem_singleton.mp h))

end Json

/-! ### Places -/

section

variable {schema : InputSchema} {demand demand' : Demand} {v v' x : Json} {i : Nat}
  {segment : Segment} {steps : List Nat} {segments : List Segment} {o : InputObject}
  {element ty : FieldType} {hooks : Hooks} {name : String}

theorem follow_of_child (h : Child demand v i segment demand' v') :
    v.follow (segment :: segments) = v'.follow segments := by
  cases h with
  | member _ hsent => rw [Json.follow, hsent.1, Option.bind_some]
  | element hx _ => rw [Json.follow, hx, Option.bind_some]

/-- **The path to a place leads to what is there.** -/
theorem follow_of_objectPlace (h : ObjectPlace schema demand v steps segments x) :
    v.follow segments = some x := by
  induction h with
  | here => rfl
  | child hchild _ ih => rw [follow_of_child hchild, ih]
  | reference _ _ _ ih => exact ih

/-- The number of a step says which one it is. -/
theorem Child.unique {segment' : Segment} {demand'' : Demand} {v'' : Json}
    (h : Child demand v i segment demand' v') (h' : Child demand v i segment' demand'' v'') :
    segment' = segment ∧ demand'' = demand' ∧ v'' = v' := by
  cases h with
  | member hf hsent =>
    cases h' with
    | member hf' hsent' =>
      cases hf.symm.trans hf'
      cases hsent.1.symm.trans hsent'.1
      exact ⟨rfl, rfl, rfl⟩
  | element hx hne =>
    cases h' with
    | element hx' hne' =>
      cases hx.symm.trans hx'
      exact ⟨rfl, rfl, rfl⟩

theorem allPlaced_of_children (hpass : demand.Passes v)
    (h : ∀ i segment demand' v', Child demand v i segment demand' v' →
      AllPlaced schema demand' v') : AllPlaced schema demand v := by
  intro steps segments x hplace
  cases hplace with
  | here => exact hpass
  | child hchild hplace => exact h _ _ _ _ hchild _ _ _ hplace
  | reference href _ _ =>
    rw [Demand.Passes, href] at hpass
    cases hpass

/-- What is first in the first child that has anything is first. -/
theorem FirstMisplaced.of_child (hpass : demand.Passes v)
    (hchild : Child demand v i segment demand' v')
    (hbefore : ∀ j segment' demand'' v'', j < i → Child demand v j segment' demand'' v'' →
      AllPlaced schema demand'' v'')
    (h : FirstMisplaced schema demand' v' steps segments x) :
    FirstMisplaced schema demand v (i :: steps) (segment :: segments) x := by
  refine ⟨.child hchild h.place, h.misplaced, fun steps' segments' x' hplace hlt => ?_⟩
  cases hplace with
  | here => exact hpass
  | @child _ _ _ _ _ j _ steps'' _ hchild' hplace =>
    rcases List.cons_lt_cons_iff.mp hlt with hlt | ⟨rfl, htail⟩
    · exact hbefore _ _ _ _ hlt hchild' _ _ _ hplace
    · obtain ⟨-, rfl, rfl⟩ := hchild.unique hchild'
      exact h.first _ _ _ hplace htail
  | reference href _ _ =>
    rw [Demand.Passes, href] at hpass
    cases hpass

theorem MisplacedAt.of_child {path : FieldPath} {e : Halt} (hpass : demand.Passes v)
    (hchild : Child demand v i segment demand' v')
    (hbefore : ∀ j segment' demand'' v'', j < i → Child demand v j segment' demand'' v'' →
      AllPlaced schema demand'' v'')
    (h : MisplacedAt schema demand' v' (path.along [segment]) e) :
    MisplacedAt schema demand v path e := by
  obtain ⟨steps, segments, x, hfirst, rfl⟩ := h
  refine ⟨i :: steps, segment :: segments, x, hfirst.of_child hpass hchild hbefore, ?_⟩
  rw [along_along]
  rfl

theorem allPlaced_of_elements
    (h : ∀ (i : Nat) x, (Validate.elements v)[i]? = some x → ElementPlaced schema element x) :
    AllPlaced schema (.type (.list element hooks)) v := by
  refine allPlaced_of_children rfl fun i segment demand' v' hchild => ?_
  cases hchild with
  | element hx hne => exact h i v' hx hne

theorem misplacedAt_of_element {path : FieldPath} {e : Halt}
    (hx : (Validate.elements v)[i]? = some x) (h : ElementMisplacedAt schema element path i x e)
    (hbefore : ∀ j y, j < i → (Validate.elements v)[j]? = some y →
      ElementPlaced schema element y) :
    MisplacedAt schema (.type (.list element hooks)) v path e := by
  refine .of_child rfl (.element hx h.1) (fun j segment' _ v'' hj hchild => ?_) h.2
  cases hchild with
  | element hy hne => exact hbefore j v'' hj hy hne

theorem allPlaced_of_fields (hkind : v.kind = .object)
    (h : ∀ (i : Nat) f, o.fields[i]? = some f → FieldPlaced schema v f) :
    AllPlaced schema (.object o) v := by
  refine allPlaced_of_children hkind fun i segment demand' v' hchild => ?_
  cases hchild with
  | member hf hsent => exact h i _ hf v' hsent

theorem misplacedAt_of_field {path : FieldPath} {e : Halt} {f : InputField}
    (hkind : v.kind = .object) (hf : o.fields[i]? = some f)
    (h : FieldMisplacedAt schema v path f e)
    (hbefore : ∀ j f', j < i → o.fields[j]? = some f' → FieldPlaced schema v f') :
    MisplacedAt schema (.object o) v path e := by
  obtain ⟨raw, hsent, hmisplaced⟩ := h
  refine .of_child hkind (.member hf hsent) (fun j segment' _ v'' hj hchild => ?_) hmisplaced
  cases hchild with
  | member hf' hsent' => exact hbefore j _ hj hf' v'' hsent'

theorem misplacedAt_here {path : FieldPath} (h : v.kind ≠ .object) :
    MisplacedAt schema (.object o) v path (.rejected (.invalidShape path v.kind)) :=
  ⟨[], [], v, ⟨.here, h, fun _ _ _ _ hlt => absurd hlt (List.not_lt_nil _)⟩, rfl⟩

/-- A reference to an object has the places of the object. -/
theorem objectPlace_reference_iff (hty : ty.reference? = some name)
    (ho : schema.find? name = some (.object o)) :
    ObjectPlace schema (.type ty) v steps segments x ↔
      ObjectPlace schema (.object o) v steps segments x := by
  constructor
  · intro h
    cases h with
    | child hchild _ =>
      cases hchild
      cases hty
    | reference hty' ho' hplace =>
      cases hty.symm.trans hty'
      cases ho.symm.trans ho'
      exact hplace
  · exact .reference hty ho

theorem allPlaced_reference_iff (hty : ty.reference? = some name)
    (ho : schema.find? name = some (.object o)) :
    AllPlaced schema (.type ty) v ↔ AllPlaced schema (.object o) v := by
  simp only [AllPlaced, objectPlace_reference_iff hty ho]

theorem misplacedAt_reference {path : FieldPath} {e : Halt} (hty : ty.reference? = some name)
    (ho : schema.find? name = some (.object o)) (h : MisplacedAt schema (.object o) v path e) :
    MisplacedAt schema (.type ty) v path e := by
  obtain ⟨steps, segments, x, ⟨hplace, hx, hfirst⟩, rfl⟩ := h
  refine ⟨steps, segments, x, ⟨.reference hty ho hplace, hx, fun _ _ _ hplace' => ?_⟩, rfl⟩
  exact hfirst _ _ _ ((objectPlace_reference_iff hty ho).mp hplace')

/-- No other reference has any places. -/
theorem allPlaced_leaf (hty : ty.reference? = some name)
    (hno : ∀ o, schema.find? name ≠ some (.object o)) : AllPlaced schema (.type ty) v := by
  intro steps segments x hplace
  cases hplace with
  | child hchild _ =>
    cases hchild
    cases hty
  | reference hty' ho _ =>
    cases hty.symm.trans hty'
    exact absurd ho (hno _)

end

/-! ### The walk -/

namespace Validate

variable {schema : InputSchema} {nested : InputObject → Json → FieldPath → Run Json}
  {context : Option Json} {v : Json} {path : FieldPath} {levels : Nat} {o : InputObject}

theorem finds_reference {ty : FieldType} {name : String} (hty : ty.reference? = some name)
    (hnested : ∀ o, schema.find? name = some (.object o) →
      Finds schema (.object o) v path (nested o v path)) :
    Finds schema (.type ty) v path (value.reference schema nested name v path) := by
  unfold value.reference
  split
  · next o ho =>
    exact (hnested o ho).imp (allPlaced_reference_iff hty ho).mpr fun _ =>
      misplacedAt_reference hty ho
  · next hno => exact .pure v (allPlaced_leaf hty hno)

theorem finds_list {element : FieldType} (hitems : ∀ x ∈ elements v, ∀ path,
      Finds schema (.type element) x path (value schema nested context element x path)) :
    Finds schema (.type (.list element .none)) v path
      (value schema nested context (.list element .none) v path) := by
  rw [value]
  refine Run.Splits.andThen ?_ fun made => ⟨_, Run.returns_pure _⟩
  -- the elements are walked with their numbers
  have hnumber : ∀ {i : Nat} {p : Json × Nat}, (elements v).zipIdx[i]? = some p →
      p.2 = i ∧ (elements v)[i]? = some p.1 := by
    intro i p hp
    obtain ⟨x, hx, rfl⟩ := Option.map_eq_some_iff.mp (List.getElem?_zipIdx ▸ hp)
    exact ⟨Nat.zero_add i, hx⟩
  refine (Run.splits_mapM (P := fun _ p => ElementPlaced schema element p.1)
    (Q := fun i p => ElementMisplacedAt schema element path i p.1) ?_).imp ?_ ?_
  · rintro i ⟨x, j⟩ hp
    obtain ⟨rfl, hx⟩ := hnumber hp
    have hitem := hitems x (List.mem_of_getElem? hx) (path.index j)
    cases x with
    | null => exact .pure Json.null fun hne => absurd rfl hne
    | _ => exact hitem.imp (fun h _ => h) fun e he => ⟨by simp, he⟩
  · exact fun hall => allPlaced_of_elements fun i x hx => hall i (x, i) (by simp [hx])
  · rintro e ⟨i, p, hp, hmisplaced, hbefore⟩
    exact misplacedAt_of_element (hnumber hp).2 hmisplaced
      fun j y hj hy => hbefore j (y, j) hj (by simp [hy])

theorem finds_value {ty : FieldType} (hty : ty.hookFree = true)
    (hnested : ∀ name o, schema.find? name = some (.object o) → ∀ x : Json, x.depth ≤ v.depth →
      ∀ path, Finds schema (.object o) x path (nested o x path)) :
    Finds schema (.type ty) v path (value schema nested context ty v path) := by
  induction ty generalizing v path with
  | list element hooks ih =>
    obtain ⟨rfl, helement⟩ := FieldType.hookFree_list_iff.mp hty
    refine finds_list fun x hx path => ih helement fun name o ho y hy => ?_
    exact hnested name o ho y (Nat.le_trans hy (Json.depth_le_of_mem_elements hx))
  | named name fileName =>
    exact finds_reference rfl fun o ho => hnested name o ho v (Nat.le_refl _) path
  | generic name args fileName =>
    exact finds_reference rfl fun o ho => hnested name o ho v (Nat.le_refl _) path

theorem splits_field {check : FieldType → Json → FieldPath → Run Json} {f : InputField}
    {made : List (String × Json)} (hf : f.hookFree = true)
    (hcheck : ∀ raw, f.Sent v raw → Finds schema (.type f.type) raw (path.along [.field f.name])
      (check f.type raw (path.field f.name))) :
    (field check context v path f made).Splits (FieldPlaced schema v f)
      (FieldMisplacedAt schema v path f) := by
  have hsent : ∀ raw raw', f.Sent v raw → f.Sent v raw' → raw = raw' :=
    fun raw raw' h h' => Option.some.inj (h.1.symm.trans h'.1)
  unfold field
  split
  · next hnone =>
    refine .pure made fun raw hraw => ?_
    cases hnone.symm.trans hraw.1
  · next hnull =>
    refine .pure made fun raw hraw => absurd ?_ hraw.2
    exact (Option.some.inj (hnull.symm.trans hraw.1)).symm
  · next raw hne hraw =>
    have hraw : f.Sent v raw := ⟨hraw, fun heq => hne (by rw [heq])⟩
    rw [(InputField.hookFree_iff.mp hf).1]
    refine Run.Splits.andThen (x := check f.type raw (path.field f.name)) ?_
      fun made => ⟨_, Run.returns_pure _⟩
    refine (hcheck raw hraw).imp (fun h raw' hraw' => ?_) fun e he => ⟨raw, hraw, he⟩
    rwa [← hsent raw raw' hraw hraw']

theorem splits_fields {check : FieldType → Json → FieldPath → Run Json} (ho : o.hookFree = true)
    (hkind : v.kind = .object) (hcheck : ∀ f ∈ o.fields, ∀ raw, f.Sent v raw →
      Finds schema (.type f.type) raw (path.along [.field f.name])
        (check f.type raw (path.field f.name))) :
    (o.fields.foldlM (fun made f => field check context v path f made) []).Splits
      (AllPlaced schema (.object o) v) (MisplacedAt schema (.object o) v path) := by
  have hfields : ∀ (i : Nat) f, o.fields[i]? = some f → ∀ made,
      (field check context v path f made).Splits (FieldPlaced schema v f)
        (FieldMisplacedAt schema v path f) := by
    intro i f hf made
    have hmem := List.mem_of_getElem? hf
    exact splits_field (List.all_eq_true.mp ho f hmem) (hcheck f hmem)
  refine (Run.splits_foldlM (f := fun made f => field check context v path f made) hfields []).imp
    (allPlaced_of_fields hkind) ?_
  rintro e ⟨i, f, hf, hmisplaced, hbefore⟩
  exact misplacedAt_of_field hkind hf hmisplaced hbefore

/-- **The walk through an object finds the first misplaced value.**  The levels are enough because
each object goes down one level of the value. -/
theorem finds_object (hschema : schema.hookFree = true) (ho : o.hookFree = true)
    (hdepth : v.depth < levels) :
    Finds schema (.object o) v path (object schema context levels o v path) := by
  induction levels generalizing o v path with
  | zero => exact absurd hdepth (Nat.not_lt_zero _)
  | succ levels ih =>
    cases v with
    | obj members =>
      refine Run.Splits.andThen (splits_fields ho rfl fun f hf raw hraw => ?_)
        fun made => ⟨_, Run.returns_pure _⟩
      have hlt := Json.depth_lt_of_member? hraw.1
      have htype := (InputField.hookFree_iff.mp (List.all_eq_true.mp ho f hf)).2
      refine finds_value htype fun name o' ho' x hx path => ?_
      exact ih (schema.hookFree_of_find? hschema ho') (by omega)
    | _ => exact .fail (misplacedAt_here (by simp [Json.kind]))

end Validate

/-- **Without hooks a validation fails at the first misplaced value.**  It is done exactly if every
place at which the schema has an object holds one, and otherwise it reports the first that does not,
with the path that leads there and the kind of what is there. -/
theorem Validator.fails_at_first_misplaced {v : Validator} {o : InputObject}
    (hschema : InputSchema.hookFree v.schema = true) (ho : o.hookFree = true) (payload : Json)
    (context : Option Json) :
    ((∃ w, (v.validate o payload context).outcome = .done w) ↔
      AllPlaced v.schema (.object o) payload) ∧
    (¬ AllPlaced v.schema (.object o) payload → ∃ steps x path,
      FirstMisplaced v.schema (.object o) payload steps path.segments x ∧
      path.entity = o.escapedName ∧ payload.follow path.segments = some x ∧
      (v.validate o payload context).outcome = .failed (.invalidShape path x.kind)) := by
  have hdepth : payload.depth < payload.depth + hookLevels :=
    Nat.lt_add_of_pos_right (by decide)
  have hfinds : Validate.Finds v.schema (.object o) payload (.root o.escapedName)
      (Validate.object v.schema context (payload.depth + hookLevels) o payload
        (.root o.escapedName)) := Validate.finds_object hschema ho hdepth
  rcases hfinds with ⟨hplaced, w, hw⟩ | ⟨e, ⟨steps, segments, x, hfirst, rfl⟩, he⟩
  · exact ⟨⟨fun _ => hplaced, fun _ => ⟨w, hw.outcome _ _⟩⟩, fun hno => absurd hplaced hno⟩
  · have hfailed := he.outcome v.limit o.escapedName
    have hno : ¬ AllPlaced v.schema (.object o) payload :=
      fun hplaced => hfirst.misplaced (hplaced _ _ _ hfirst.place)
    have hsegments : ((FieldPath.root o.escapedName).along segments).segments = segments := by
      rw [segments_along, segments_root, List.nil_append]
    refine ⟨⟨?_, fun hplaced => absurd hplaced hno⟩, fun _ => ?_⟩
    · rintro ⟨w, hw⟩
      cases hfailed.symm.trans hw
    · refine ⟨steps, x, (FieldPath.root o.escapedName).along segments, ?_, rfl, ?_, hfailed⟩
      · rwa [hsegments]
      · rw [hsegments]
        exact follow_of_objectPlace hfirst.place

/-- An object that refers to itself, under lists of lists and by itself. -/
def InputObject.tree : InputObject :=
  let field (name : String) (type : FieldType) : InputField :=
    ⟨name, name, none, 0, false, false, none, none, type, .none⟩
  ⟨"Tree", "Tree", 0, false, none,
    [field "kids" (.list (.list (.named "Tree" none) .none) .none),
      field "link" (.named "Tree" none), field "tag" (.named "Text" none)]⟩

/-- An object in place of a list, null in place of elements, and two misplaced values, of which the
one under the first field counts. -/
theorem Validator.fails_at_first_misplaced_tree :
    let schema : InputSchema := Dict.empty.insert "Tree" (.object InputObject.tree)
    let v : Validator := ⟨schema, none⟩
    let payload : Json := .obj [("link", .str ""), ("kids",
      .arr [.null, .obj [("link", .null)], .arr [.null, .obj [], .bool true]])]
    InputSchema.hookFree schema = true ∧ InputObject.tree.hookFree = true ∧
    (v.validate InputObject.tree payload none).outcome =
      .failed (.invalidShape ⟨"Tree", [.index 2, .index 2, .field "kids"]⟩ .boolean) ∧
    ∃ steps x path, FirstMisplaced schema (.object InputObject.tree) payload steps path.segments x ∧
      path.entity = "Tree" ∧ payload.follow path.segments = some x ∧
      (v.validate InputObject.tree payload none).outcome = .failed (.invalidShape path x.kind) := by
  intro schema v payload
  have hschema : InputSchema.hookFree schema = true := by decide
  have ho : InputObject.tree.hookFree = true := by decide
  have hfailed : (v.validate InputObject.tree payload none).outcome =
      .failed (.invalidShape ⟨"Tree", [.index 2, .index 2, .field "kids"]⟩ .boolean) := rfl
  have hall := fails_at_first_misplaced (v := v) hschema ho payload none
  refine ⟨hschema, ho, hfailed, hall.2 fun hplaced => ?_⟩
  obtain ⟨w, hw⟩ := hall.1.mpr hplaced
  cases hfailed.symm.trans hw

end EntityGraph
