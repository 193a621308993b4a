import EntityGraph.Proofs.Drafts
import EntityGraph.Proofs.Termination
import Mathlib.Data.List.Sort

/-!
# What a validation does not look at

Where the schema has an object, a payload may hold members that no field names, members that are
null, and members in any order.  `trim` takes the first two away and sorts the rest by name, down
through lists and objects; what the schema says nothing about stays as it is.  Without hooks this
makes no difference to a validation:

    walk demand (trim demand v) = walk demand v                                     (walk_trim)

So two payloads that are trimmed to the same value have the same result, with members in the same
order, or the same error at the same path (`validate_eq_of_trim_eq`).  The names of the fields of an
object have to be distinct, since a member could otherwise be of two types.
-/

namespace EntityGraph

/-! ## Algorithm -/

/-- Whether a test holds of all objects of the schema. -/
def InputSchema.allObjects (schema : InputSchema) (test : InputObject → Bool) : Bool :=
  schema.entries.all fun p => p.2.object?.all test

/-- Whether no two fields have one name in payloads. -/
def InputObject.distinctNames (o : InputObject) : Bool := decide (o.fields.map (·.name)).Nodup

def Demand.distinctNames : Demand → Bool
  | .object o => o.distinctNames
  | .type _ => true

/-- The object that is demanded under all lists. -/
def InputSchema.demanded? (schema : InputSchema) : Demand → Option InputObject
  | .object o => some o
  | .type ty => (schema.find? ty.terminal.name).bind SchemaNode.object?

namespace Json

/-- The members in the order of their names. -/
def sortMembers (members : List (String × Json)) : List (String × Json) :=
  members.insertionSort fun p q => p.1 ≤ q.1

mutual

/-- The value without the members that no object of the schema asks for or that are null, and with
the others sorted. -/
def trim (schema : InputSchema) (demand : Demand) : Json → Json
  | .arr items =>
    match demand with
    | .type (.list element _) => .arr (trimItems schema element items)
    | _ => .arr items
  | .obj members =>
    match schema.demanded? demand with
    | some o => .obj (sortMembers (trimMembers schema o members))
    | none => .obj members
  | leaf => leaf

def trimItems (schema : InputSchema) (element : FieldType) : List Json → List Json
  | [] => []
  | x :: rest => trim schema (.type element) x :: trimItems schema element rest

def trimMembers (schema : InputSchema) (o : InputObject) :
    List (String × Json) → List (String × Json)
  | [] => []
  | (key, v) :: rest =>
    match o.field? key with
    | some f =>
      if v.kind = .null then trimMembers schema o rest
      else (key, trim schema (.type f.type) v) :: trimMembers schema o rest
    | none => trimMembers schema o rest

end

end Json

/-! ## Lemmas -/

theorem InputSchema.test_of_find? {schema : InputSchema} {test : InputObject → Bool}
    (h : schema.allObjects test = true) {name : String} {o : InputObject}
    (ho : schema.find? name = some (.object o)) : test o = true := by
  have hentry := List.all_eq_true.mp h _ (Dict.find?_eq_some_iff.mp ho)
  exact hentry

/-- A name stands for one field. -/
theorem InputObject.field?_eq_some_iff {o : InputObject} (h : o.distinctNames = true) {key : String}
    {f : InputField} : o.field? key = some f ↔ f ∈ o.fields ∧ f.name = key := by
  have hnodup : (o.fields.map (·.name)).Nodup := of_decide_eq_true h
  constructor
  · intro hf
    have hname := List.find?_some hf
    exact ⟨List.mem_of_find?_eq_some hf, of_decide_eq_true hname⟩
  · rintro ⟨hf, rfl⟩
    cases hfind : o.field? f.name with
    | none =>
      have hno := List.find?_eq_none.mp hfind f hf
      exact absurd (decide_eq_true rfl) hno
    | some e =>
      have hname := List.find?_some hfind
      have he : e.name = f.name := of_decide_eq_true hname
      rw [List.inj_on_of_nodup_map hnodup (List.mem_of_find?_eq_some hfind) hf he]

namespace Json

variable {schema : InputSchema} {demand : Demand} {o : InputObject} {f : InputField}
  {element ty : FieldType} {hooks : Hooks} {name key : String} {v x : Json}
  {members : List (String × Json)}

theorem kind_eq_null_iff : v.kind = .null ↔ v = .null := by
  cases v <;> simp [kind]

theorem trimItems_eq_map (items : List Json) :
    trimItems schema element items = items.map (trim schema (.type element)) := by
  induction items with
  | nil => rfl
  | cons x rest ih => rw [trimItems, ih, List.map_cons]

/-- The kind of a value stays, and so does null. -/
theorem kind_trim : (trim schema demand v).kind = v.kind := by
  cases v with
  | arr items =>
    unfold trim
    split <;> rfl
  | obj members =>
    unfold trim
    split <;> rfl
  | _ => rfl

theorem trim_eq_null_iff : trim schema demand v = .null ↔ v = .null := by
  rw [← kind_eq_null_iff, kind_trim, kind_eq_null_iff]

/-- What stands for a list is trimmed element by element, also if it is no array. -/
theorem elements_trim : Validate.elements (trim schema (.type (.list element hooks)) v) =
    (Validate.elements v).map (trim schema (.type element)) := by
  cases v with
  | arr items =>
    rw [trim, trimItems_eq_map]
    rfl
  | obj members =>
    have hobj : trim schema (.type (.list element hooks)) (.obj members) =
        trim schema (.type element) (.obj members) := rfl
    rw [hobj]
    have hkind : (trim schema (.type element) (.obj members)).kind = .object := kind_trim
    cases htrim : trim schema (.type element) (.obj members) with
    | obj trimmed =>
      change [Json.obj trimmed] = [trim schema (.type element) (.obj members)]
      rw [htrim]
    | _ =>
      rw [htrim] at hkind
      cases hkind
  | _ => rfl

theorem demanded?_reference (hty : ty.reference? = some name) :
    schema.demanded? (.type ty) = (schema.find? name).bind SchemaNode.object? := by
  cases ty with
  | list element hooks => cases hty
  | named n fileName =>
    cases hty
    rfl
  | generic n args fileName =>
    cases hty
    rfl

theorem trim_arr_reference (hty : ty.reference? = some name) (items : List Json) :
    trim schema (.type ty) (.arr items) = .arr items := by
  cases ty with
  | list element hooks => cases hty
  | _ => rfl

theorem trim_reference (hty : ty.reference? = some name)
    (ho : schema.find? name = some (.object o)) :
    trim schema (.type ty) v = trim schema (.object o) v := by
  cases v with
  | arr items => exact trim_arr_reference hty items
  | obj members =>
    rw [trim, trim, demanded?_reference hty, ho]
    rfl
  | _ => rfl

theorem trim_leaf (hty : ty.reference? = some name)
    (hno : ∀ o, schema.find? name ≠ some (.object o)) : trim schema (.type ty) v = v := by
  cases v with
  | arr items => exact trim_arr_reference hty items
  | obj members =>
    have hnone : schema.demanded? (.type ty) = none := by
      rw [demanded?_reference hty]
      cases hfind : schema.find? name with
      | none => rfl
      | some node =>
        cases node with
        | object o => exact absurd hfind (hno o)
        | _ => rfl
    rw [trim, hnone]
  | _ => rfl

/-! ### Members -/

theorem mem_trimMembers_iff : (key, x) ∈ trimMembers schema o members ↔
    ∃ f raw, o.field? key = some f ∧ (key, raw) ∈ members ∧ raw ≠ .null ∧
      x = trim schema (.type f.type) raw := by
  induction members with
  | nil => simp [trimMembers]
  | cons p rest ih =>
    obtain ⟨k, v⟩ := p
    rw [trimMembers]
    split
    · next f hf =>
      split
      · next hnull =>
        rw [kind_eq_null_iff] at hnull
        rw [ih]
        grind
      · next hnull =>
        rw [kind_eq_null_iff] at hnull
        rw [List.mem_cons, ih]
        grind
    · next hnone =>
      rw [ih]
      grind

theorem keys_trimMembers_sublist :
    (Assoc.keys (trimMembers schema o members)).Sublist (Assoc.keys members) := by
  induction members with
  | nil => exact .slnil
  | cons p rest ih =>
    obtain ⟨k, v⟩ := p
    rw [trimMembers]
    split
    · split
      · exact ih.cons k
      · exact ih.cons_cons k
    · exact ih.cons k

theorem sortMembers_perm : (sortMembers members).Perm members := List.perm_insertionSort _ _

theorem member?_eq_some_iff (h : (Assoc.keys members).Nodup) :
    (Json.obj members).member? key = some x ↔ (key, x) ∈ members :=
  ⟨Assoc.mem_of_find?, Assoc.find?_of_mem h⟩

/-- A field is sent the trimmed value if it has been sent one. -/
theorem sent_trim_iff (ho : o.distinctNames = true) (hf : f ∈ o.fields)
    (hmembers : (Assoc.keys members).Nodup) :
    f.Sent (trim schema (.object o) (.obj members)) x ↔
      ∃ raw, f.Sent (.obj members) raw ∧ x = trim schema (.type f.type) raw := by
  have hnodup : (Assoc.keys (sortMembers (trimMembers schema o members))).Nodup := by
    have hsorted : (sortMembers (trimMembers schema o members)).Perm (trimMembers schema o members) :=
      sortMembers_perm
    have hperm := hsorted.map Prod.fst
    exact hperm.nodup_iff.mpr (hmembers.sublist keys_trimMembers_sublist)
  have hfield : o.field? f.name = some f := (InputObject.field?_eq_some_iff ho).mpr ⟨hf, rfl⟩
  change (Json.obj (sortMembers (trimMembers schema o members))).member? f.name = some x ∧
    x ≠ .null ↔ _
  rw [member?_eq_some_iff hnodup, sortMembers_perm.mem_iff, mem_trimMembers_iff]
  constructor
  · rintro ⟨⟨e, raw, he, hraw, hne, rfl⟩, -⟩
    cases hfield.symm.trans he
    exact ⟨raw, ⟨(member?_eq_some_iff hmembers).mpr hraw, hne⟩, rfl⟩
  · rintro ⟨raw, ⟨hraw, hne⟩, rfl⟩
    refine ⟨⟨f, raw, hfield, (member?_eq_some_iff hmembers).mp hraw, hne, rfl⟩, ?_⟩
    exact fun heq => hne (trim_eq_null_iff.mp heq)

end Json

/-! ### The walk -/

theorem Call.distinctNames {schema : InputSchema} {below : Demand × Json} {demand : Demand}
    {v : Json} (hschema : schema.allObjects InputObject.distinctNames = true)
    (h : Call schema below (demand, v)) : below.1.distinctNames = true := by
  cases h with
  | field _ _ => rfl
  | element _ _ => rfl
  | object _ ho => exact InputSchema.test_of_find? hschema ho

theorem Call.distinct {schema : InputSchema} {below : Demand × Json} {demand : Demand}
    {v : Json} (h : Call schema below (demand, v)) (hv : v.distinct = true) :
    below.2.distinct = true := by
  cases h with
  | @field o f _ raw _ hsent =>
    cases v with
    | obj members =>
      rw [Json.distinct, Bool.and_eq_true] at hv
      exact Json.distinctMembers_iff.mp hv.2 _ (Assoc.mem_of_find? hsent.1)
    | _ => cases hsent.1
  | element hx _ =>
    cases v with
    | arr items =>
      rw [Json.distinct] at hv
      exact Json.distinctItems_iff.mp hv _ hx
    | _ => rwa [List.mem_singleton.mp hx]
  | object _ _ => exact hv

/-- **Trimming makes no difference to the walk.** -/
theorem Validate.walk_trim {schema : InputSchema} {context : Option Json} {demand : Demand}
    {v : Json} (hschema : schema.hookFree = true)
    (hnames : schema.allObjects InputObject.distinctNames = true)
    (hdemand : demand.hookFree = true) (hown : demand.distinctNames = true)
    (hv : v.distinct = true) (path : FieldPath) :
    walk schema context demand (v.trim schema demand) path = walk schema context demand v path := by
  suffices ∀ above : Demand × Json, above.1.hookFree = true → above.1.distinctNames = true →
      above.2.distinct = true → ∀ path,
      walk schema context above.1 (above.2.trim schema above.1) path =
        walk schema context above.1 above.2 path from
    this (demand, v) hdemand hown hv path
  intro above
  induction above using (call_wellFounded schema).induction with
  | h above ih =>
    obtain ⟨demand, v⟩ := above
    intro hdemand hown hv path
    have hbelow : ∀ below, Call schema below (demand, v) → ∀ path,
        walk schema context below.1 (below.2.trim schema below.1) path =
          walk schema context below.1 below.2 path := by
      intro below hcall
      exact ih below hcall (hcall.hookFree hschema hdemand) (hcall.distinctNames hnames)
        (hcall.distinct hv)
    rw [walk_eq_turn hschema hdemand, walk_eq_turn hschema hdemand]
    cases demand with
    | object o =>
      cases v with
      | obj members =>
        have hmembers : (Assoc.keys members).Nodup := by
          rw [Json.distinct, Bool.and_eq_true] at hv
          exact of_decide_eq_true hv.1
        apply turn_object_congr hdemand rfl rfl
        · intro f hf x hx
          obtain ⟨raw, hraw, rfl⟩ := (Json.sent_trim_iff hown hf hmembers).mp hx
          exact ⟨raw, hraw, hbelow _ (.field hf hraw)⟩
        · intro f hf raw hraw
          exact ⟨_, (Json.sent_trim_iff hown hf hmembers).mpr ⟨raw, hraw, rfl⟩⟩
      | _ => rfl
    | type ty =>
      cases hty : ty.reference? with
      | none =>
        cases ty with
        | list element hooks =>
          obtain ⟨rfl, -⟩ := FieldType.hookFree_list_iff.mp hdemand
          apply turn_list_congr
          rw [Json.elements_trim, List.forall₂_map_left_iff, List.forall₂_same]
          intro x hx
          by_cases hnull : x = .null
          · exact Or.inl ⟨Json.trim_eq_null_iff.mpr hnull, hnull⟩
          · have hne : ¬ x.trim schema (.type element) = .null :=
              fun heq => hnull (Json.trim_eq_null_iff.mp heq)
            exact Or.inr ⟨hne, hnull, hbelow _ (.element hx hnull)⟩
        | _ => cases hty
      | some name =>
        apply turn_reference_congr hty
        · intro o ho
          rw [Json.trim_reference hty ho]
          exact hbelow _ (.object hty ho) path
        · intro hno
          exact Json.trim_leaf hty hno

/-- **Members that no field names, null members and the order of members have no influence.**  Two
payloads, in which no object has two members of one name, come to the same verdict if they are the
same when such members are taken away and the others are sorted, wherever the schema has an
object. -/
theorem Validator.validate_eq_of_trim_eq {v : Validator} {o : InputObject}
    (hschema : InputSchema.hookFree v.schema = true) (ho : o.hookFree = true)
    (hnames : InputSchema.allObjects v.schema InputObject.distinctNames = true)
    (hown : o.distinctNames = true) {payload payload' : Json} (hpayload : payload.distinct = true)
    (hpayload' : payload'.distinct = true)
    (h : payload.trim v.schema (.object o) = payload'.trim v.schema (.object o))
    (context : Option Json) : v.validate o payload context = v.validate o payload' context := by
  have htrimmed : ∀ w : Json, w.distinct = true → v.validate o w context =
      (Validate.walk v.schema context (.object o) (w.trim v.schema (.object o))
        (.root o.escapedName)).verdict v.limit o.escapedName := by
    intro w hw
    have hdemand : (Demand.object o).hookFree = true := ho
    rw [Validate.walk_trim hschema hnames hdemand hown hw, validate, validateWithin,
      Validate.object_eq_walk hschema ho]
  rw [htrimmed payload hpayload, htrimmed payload' hpayload', h]

/-- Trees with more members than are asked for, at the root and in an object that stands for a list
of them, and with less. -/
theorem Validator.validate_eq_of_trim_eq_tree :
    let o := InputObject.tree
    let v : Validator := ⟨.trees, none⟩
    let payload : Json := .obj [("other", .arr [.null]), ("tag", .str ""), ("link", .null),
      ("kids", .arr [.null, .obj [("tag", .bool true), ("link", .obj [("kids", .null)]),
        ("other", .null)]])]
    let payload' : Json := .obj [("kids", .arr [.null, .obj [("link", .obj []),
      ("tag", .bool true)]]), ("tag", .str "")]
    let w : Json := .obj [("kids", .arr [.null, .arr [.obj [("link", .obj []),
      ("tag", .bool true)]]]), ("tag", .str "")]
    (InputSchema.trees.hookFree = true ∧ o.hookFree = true ∧
      InputSchema.trees.allObjects InputObject.distinctNames = true ∧ o.distinctNames = true ∧
      payload.distinct = true ∧ payload'.distinct = true ∧
      payload.trim .trees (.object o) = payload'.trim .trees (.object o)) ∧
    v.validate o payload none = v.validate o payload' none ∧
    (v.validate o payload none).outcome = .done w := by
  intro o v payload payload' w
  have hschema : InputSchema.trees.hookFree = true := by decide
  have ho : o.hookFree = true := by decide
  have hnames : InputSchema.trees.allObjects InputObject.distinctNames = true := by decide
  have hown : o.distinctNames = true := by decide
  have hpayload : payload.distinct = true := by decide
  have hpayload' : payload'.distinct = true := by decide
  have htrim : payload.trim .trees (.object .tree) = payload' := rfl
  have htrim' : payload'.trim .trees (.object .tree) = payload' := rfl
  have h := htrim.trans htrim'.symm
  exact ⟨⟨hschema, ho, hnames, hown, hpayload, hpayload', h⟩,
    validate_eq_of_trim_eq hschema ho hnames hown hpayload hpayload' h none, rfl⟩

end EntityGraph
