import EntityGraph.Proofs.Trimming

/-!
# Validating once more

Where no field is renamed, what a validation without hooks is done with may be validated again, and
nothing changes:

    (v.validate o payload context).outcome = .done w →
      (v.validate o w context').outcome = .done w                     (validate_done_of_done)

A value is normal if nothing is to be done at any place that the walk comes to: lists are arrays, and
objects have members for their fields only, in the order of the fields and none of them null
(`Normal`).  What the walk answers is normal (`normal_of_answers`), and what is normal is answered as
it is (`returns_of_normal`).
-/

namespace EntityGraph

/-! ## Algorithm -/

/-- Whether all fields keep their names. -/
def InputObject.unrenamed (o : InputObject) : Bool :=
  o.fields.all fun f => f.targetName = f.name

/-- Whether all fields keep their names and have names of their own. -/
def InputObject.keepsNames (o : InputObject) : Bool := o.unrenamed && o.distinctNames

/-- There is nothing to do here, but perhaps at the places below. -/
def Demand.Tidy (v : Json) : Demand → Prop
  | .object o => ∃ members, v = .obj members ∧
      (Assoc.keys members).Sublist (o.fields.map (·.name)) ∧ ∀ p ∈ members, p.2 ≠ .null
  | .type ty => ty.reference? = none → ∃ items, v = .arr items

/-- There is nothing to do here or below. -/
inductive Normal (schema : InputSchema) : Demand × Json → Prop
  | intro {demand : Demand} {v : Json} : demand.Tidy v →
      (∀ below, Call schema below (demand, v) → Normal schema below) → Normal schema (demand, v)

/-! ## Lemmas -/

theorem InputObject.keepsNames_iff {o : InputObject} : o.keepsNames = true ↔
    (∀ f ∈ o.fields, f.targetName = f.name) ∧ o.distinctNames = true := by
  rw [keepsNames, unrenamed, Bool.and_eq_true, List.all_eq_true]
  simp only [decide_eq_true_eq]

namespace Validate

variable {schema : InputSchema} {context : Option Json} {o : InputObject} {demand : Demand}
  {v w : Json} {path : FieldPath}

/-! ### What the walk answers -/

/-- A walk within enough levels answers what the walk answers. -/
theorem answers_walk_of_within {levels : Nat} (hschema : schema.hookFree = true)
    (hdemand : demand.hookFree = true) (hlevels : v.depth < levels)
    (h : (within schema context levels demand v path).Answers w) :
    (walk schema context demand v path).Answers w := by
  rwa [within_eq hschema hdemand hlevels (Nat.lt_succ_self v.depth)] at h

/-- The members that a walk answers with are answers of the walks that it calls for. -/
theorem answers_walk_object (hschema : schema.hookFree = true) (ho : o.hookFree = true)
    (h : (walk schema context (.object o) v path).Answers w) :
    ∃ made, w = .obj made ∧ Gathered (fun f raw x => ∃ path,
      (walk schema context (.type f.type) raw path).Answers x) v o.fields made := by
  obtain ⟨levels, sent, made, hlevels, rfl, rfl, hmade⟩ := answers_object h
  refine ⟨made, rfl, hmade.nodup, hmade.sublist, fun p hp => ?_⟩
  obtain ⟨f, raw, hlast, hname, y, hy, hx⟩ := hmade.members p hp
  obtain ⟨hhooks, htype⟩ := InputField.hookFree_iff.mp (List.all_eq_true.mp ho f hlast.mem)
  rw [hhooks, Run.hooks_none, Run.answers_pure_iff] at hy
  rw [hy] at hx
  have hlt := Json.depth_lt_of_member? hlast.sent.1
  have hdemand : (Demand.type f.type).hookFree = true := htype
  exact ⟨f, raw, hlast, hname, _, answers_walk_of_within hschema hdemand (by omega) hx⟩

/-- So are the elements of a list. -/
theorem answers_walk_list {element : FieldType} {hooks : Hooks} (hschema : schema.hookFree = true)
    (hlist : (FieldType.list element hooks).hookFree = true)
    (h : (walk schema context (.type (.list element hooks)) v path).Answers w) :
    ∃ items, w = .arr items ∧ ∀ x ∈ items, x ≠ .null → ∃ raw ∈ elements v, raw ≠ .null ∧
      ∃ path, (walk schema context (.type element) raw path).Answers x := by
  obtain ⟨rfl, helement⟩ := FieldType.hookFree_list_iff.mp hlist
  obtain ⟨items, rfl, hitems⟩ := answers_value_list h
  refine ⟨items, rfl, fun x hx hne => ?_⟩
  obtain ⟨i, hi⟩ := List.getElem?_of_mem hx
  obtain ⟨raw, hraw, hnull | ⟨hne', j, y, hy, hx⟩⟩ := exists_getElem?_of_forall₂ hitems hi
  · exact absurd hnull.2 hne
  · rw [Run.hooks_none, Run.answers_pure_iff] at hy
    rw [hy] at hx
    have hmem := List.mem_of_getElem? hraw
    have hle := Json.depth_le_of_mem_elements hmem
    have hdemand : (Demand.type element).hookFree = true := helement
    exact ⟨raw, hmem, hne', _, answers_walk_of_within hschema hdemand (by omega) hx⟩

/-- A reference answers with what the object does, or with the value. -/
theorem answers_walk_reference {ty : FieldType} {name : String} (hty : ty.reference? = some name)
    (h : (walk schema context (.type ty) v path).Answers w) :
    (∃ o, schema.find? name = some (.object o) ∧
      (walk schema context (.object o) v path).Answers w) ∨
    (∀ o, schema.find? name ≠ some (.object o)) ∧ w = v := by
  have hvalue : (value schema (object schema context (v.depth + 1)) context ty v path).Answers w :=
    h
  have hcases := answers_value_reference hty hvalue
  exact hcases

/-- Only null becomes null. -/
theorem ne_null_of_answers (hv : v ≠ .null) (h : (walk schema context demand v path).Answers w) :
    w ≠ .null := by
  have hobject : ∀ o, (walk schema context (.object o) v path).Answers w → w ≠ .null := by
    intro o h
    obtain ⟨_, sent, made, -, -, rfl, -⟩ := answers_object h
    simp
  cases demand with
  | object o => exact hobject o h
  | type ty =>
    cases hty : ty.reference? with
    | none =>
      cases ty with
      | list element hooks =>
        obtain ⟨items, rfl, -⟩ := answers_value_list h
        simp
      | _ => cases hty
    | some name =>
      rcases answers_walk_reference hty h with ⟨o, -, h⟩ | ⟨-, rfl⟩
      · exact hobject o h
      · exact hv

/-- **What the walk answers is normal** if no field is renamed. -/
theorem normal_of_answers (hschema : schema.hookFree = true)
    (hnames : schema.allObjects InputObject.keepsNames = true) (hdemand : demand.hookFree = true)
    (hown : ∀ o, demand = .object o → o.keepsNames = true)
    (h : (walk schema context demand v path).Answers w) : Normal schema (demand, w) := by
  suffices ∀ above : Demand × Json, above.1.hookFree = true →
      (∀ o, above.1 = .object o → o.keepsNames = true) → ∀ path w,
      (walk schema context above.1 above.2 path).Answers w → Normal schema (above.1, w) from
    this (demand, v) hdemand hown path w h
  intro above
  induction above using (call_wellFounded schema).induction with
  | h above ih =>
    obtain ⟨demand, v⟩ := above
    intro hdemand hown path w h
    have hbelow : ∀ ty raw, Call schema (.type ty, raw) (demand, v) → ∀ path x,
        (walk schema context (.type ty) raw path).Answers x → Normal schema (.type ty, x) := by
      intro ty raw hcall path x hx
      have hno : ∀ o, Demand.type ty = .object o → o.keepsNames = true := fun o heq => by cases heq
      exact ih _ hcall (hcall.hookFree hschema hdemand) hno path x hx
    cases demand with
    | object o =>
      obtain ⟨hsame, hdistinct⟩ := InputObject.keepsNames_iff.mp (hown o rfl)
      obtain ⟨made, rfl, hmade⟩ := answers_walk_object hschema hdemand h
      have hkeys : o.fields.map (·.targetName) = o.fields.map (·.name) := List.map_congr_left hsame
      refine .intro ⟨made, rfl, hkeys ▸ hmade.sublist, ?_⟩ ?_
      · intro p hp
        obtain ⟨f, raw, hlast, -, path, hx⟩ := hmade.members p hp
        exact ne_null_of_answers hlast.sent.2 hx
      · intro below hcall
        obtain ⟨f, hf, hdemand', hsent⟩ := call_object_iff.mp hcall
        obtain ⟨_, x⟩ := below
        subst hdemand'
        -- the member has been made for a field of its name, and `f` is the only one
        have hmem : (f.name, x) ∈ made := Assoc.mem_of_find? hsent.1
        obtain ⟨e, raw, hlast, hname, path, hx⟩ := hmade.members _ hmem
        have he := (InputObject.field?_eq_some_iff hdistinct).mpr
          ⟨hlast.mem, (hsame e hlast.mem).symm.trans hname⟩
        cases he.symm.trans ((InputObject.field?_eq_some_iff hdistinct).mpr ⟨hf, rfl⟩)
        exact hbelow _ raw (.field hf hlast.sent) path x hx
    | type ty =>
      cases hty : ty.reference? with
      | none =>
        cases ty with
        | list element hooks =>
          obtain ⟨items, rfl, hitems⟩ := answers_walk_list hschema hdemand h
          refine .intro (fun _ => ⟨items, rfl⟩) ?_
          intro below hcall
          obtain ⟨hdemand', hx, hne⟩ := call_list_iff.mp hcall
          obtain ⟨_, x⟩ := below
          subst hdemand'
          obtain ⟨raw, hraw, hne', path, hanswers⟩ := hitems x hx hne
          exact hbelow _ raw (.element hraw hne') path x hanswers
        | _ => cases hty
      | some name =>
        have htidy : (Demand.type ty).Tidy w := by
          intro hnone
          cases hty.symm.trans hnone
        refine .intro htidy ?_
        intro below hcall
        cases hcall with
        | element _ _ => cases hty
        | @object _ name' o _ hty' ho =>
          cases hty.symm.trans hty'
          rcases answers_walk_reference hty h with ⟨o', ho', h⟩ | ⟨hno, rfl⟩
          · cases ho.symm.trans ho'
            have hcall : Call schema (.object o, v) (.type ty, v) := .object hty ho
            have hown' : ∀ e, Demand.object o = .object e → e.keepsNames = true := by
              rintro e ⟨⟩
              exact InputSchema.test_of_find? hnames ho
            exact ih _ hcall (hcall.hookFree hschema hdemand) hown' path w h
          · exact absurd ho (hno o)

/-! ### What is normal -/

theorem returns_mapM {α β : Type} {f : α → Run β} {l : List α} {out : List β}
    (h : List.Forall₂ (fun a b => (f a).Returns b) l out) : (l.mapM f).Returns out := by
  induction h with
  | nil =>
    rw [List.mapM_nil]
    exact Run.returns_pure []
  | cons hab _ ih =>
    rw [List.mapM_cons]
    exact hab.bind (ih.bind (Run.returns_pure _))

/-- Fields that keep their names gather the members that there are for them, behind those that have
been gathered. -/
theorem returns_fields {check : FieldType → Json → FieldPath → Run Json} {fields : List InputField}
    {rest acc : List (String × Json)}
    (hfields : ∀ f ∈ fields, f.hookFree = true ∧ f.targetName = f.name)
    (hnodup : (fields.map (·.name)).Nodup)
    (hsub : (Assoc.keys rest).Sublist (fields.map (·.name)))
    (hsent : ∀ f ∈ fields, ∀ x, f.Sent v x ↔ (f.name, x) ∈ rest)
    (hcheck : ∀ f ∈ fields, ∀ x, f.Sent v x → ∀ path, (check f.type x path).Returns x)
    (hnew : ∀ f ∈ fields, f.name ∉ Assoc.keys acc) :
    (fields.foldlM (fun made f => field check context v path f made) acc).Returns (acc ++ rest) := by
  induction fields generalizing rest acc with
  | nil =>
    have hrest : rest = [] := List.map_eq_nil_iff.mp (List.sublist_nil.mp hsub)
    rw [hrest, List.append_nil, List.foldlM_nil]
    exact Run.returns_pure acc
  | cons f fields ih =>
    obtain ⟨hname, hnodup⟩ := List.nodup_cons.mp hnodup
    have hmem : f ∈ f :: fields := List.mem_cons_self
    have htail : ∀ {e}, e ∈ fields → e ∈ f :: fields := List.mem_cons_of_mem f
    have hne : ∀ e ∈ fields, e.name ≠ f.name := by
      intro e he heq
      exact hname (List.mem_map.mpr ⟨e, he, heq⟩)
    rw [List.foldlM_cons]
    rcases List.sublist_cons_iff.mp hsub with hsub | ⟨keys, hkeys, hrest⟩
    · -- there is no member for `f`
      have hno : ∀ x, ¬ f.Sent v x := by
        intro x hx
        exact hname (hsub.subset (Assoc.mem_keys_of_mem ((hsent f hmem x).mp hx)))
      rw [field_of_not_sent hno]
      exact (Run.returns_pure acc).bind (ih (fun e he => hfields e (htail he)) hnodup hsub
        (fun e he => hsent e (htail he)) (fun e he => hcheck e (htail he))
        fun e he => hnew e (htail he))
    · -- the first member is the one for `f`
      obtain ⟨⟨key, x⟩, rest, rfl, hkey, rfl⟩ := List.map_eq_cons_iff.mp hkeys
      have hkey : key = f.name := hkey
      subst hkey
      have hx : f.Sent v x := (hsent f hmem x).mpr List.mem_cons_self
      obtain ⟨hfree, htarget⟩ := hfields f hmem
      have hinsert : Assoc.insert f.targetName x acc = acc ++ [(f.name, x)] := by
        rw [htarget, Assoc.insert_of_not_mem (hnew f hmem)]
      have hone : (field check context v path f acc).Returns (acc ++ [(f.name, x)]) := by
        rw [field_of_sent hx, (InputField.hookFree_iff.mp hfree).1, Run.hooks_none, pure_bind,
          ← hinsert]
        exact (hcheck f hmem x hx _).bind (Run.returns_pure _)
      have hsplit : acc ++ (f.name, x) :: rest = acc ++ [(f.name, x)] ++ rest := by simp
      rw [hsplit]
      refine hone.bind (ih (fun e he => hfields e (htail he)) hnodup hrest ?_
        (fun e he => hcheck e (htail he)) ?_)
      · intro e he y
        rw [hsent e (htail he) y, List.mem_cons, Prod.mk.injEq]
        simp [hne e he]
      · intro e he
        rw [Assoc.keys_append, List.mem_append, not_or]
        exact ⟨hnew e (htail he), by simpa using hne e he⟩

/-- **What is normal is answered as it is.** -/
theorem returns_of_normal {above : Demand × Json} (hschema : schema.hookFree = true)
    (hnames : schema.allObjects InputObject.keepsNames = true) (h : Normal schema above)
    (hdemand : above.1.hookFree = true) (hown : ∀ o, above.1 = .object o → o.keepsNames = true)
    (path : FieldPath) : (walk schema context above.1 above.2 path).Returns above.2 := by
  induction h generalizing path with
  | @intro demand v htidy _ ih =>
    have hbelow : ∀ ty x, Call schema (.type ty, x) (demand, v) → ∀ path,
        (walk schema context (.type ty) x path).Returns x := by
      intro ty x hcall path
      exact ih _ hcall (hcall.hookFree hschema hdemand) (fun o heq => by cases heq) path
    rw [walk_eq_turn hschema hdemand]
    cases demand with
    | object o =>
      obtain ⟨hsame, hdistinct⟩ := InputObject.keepsNames_iff.mp (hown o rfl)
      obtain ⟨members, rfl, hkeys, hnull⟩ := htidy
      have hnodup : (o.fields.map (·.name)).Nodup := of_decide_eq_true hdistinct
      have hsent : ∀ f ∈ o.fields, ∀ x, f.Sent (.obj members) x ↔ (f.name, x) ∈ members := by
        intro f _ x
        rw [InputField.Sent, Json.member?_eq_some_iff (hnodup.sublist hkeys)]
        exact ⟨fun hx => hx.1, fun hx => ⟨hx, hnull _ hx⟩⟩
      have hmade : (o.fields.foldlM (fun made f => field
          (fun ty => walk schema context (.type ty)) context (.obj members) path f made)
          []).Returns ([] ++ members) := by
        apply returns_fields _ hnodup hkeys hsent
        · intro f hf x hx path
          exact hbelow _ x (.field hf hx) path
        · intro f _
          simp
        · intro f hf
          exact ⟨List.all_eq_true.mp hdemand f hf, hsame f hf⟩
      exact hmade.bind (Run.returns_pure _)
    | type ty =>
      cases hty : ty.reference? with
      | none =>
        cases ty with
        | list element hooks =>
          obtain ⟨rfl, -⟩ := FieldType.hookFree_list_iff.mp hdemand
          obtain ⟨items, rfl⟩ := htidy hty
          have hmade : ((elements (.arr items)).zipIdx.mapM
              (passing (walk schema context (.type element)) path)).Returns items := by
            apply returns_mapM
            have hitems : List.Forall₂ (fun x y : Json × Nat =>
                (passing (walk schema context (.type element)) path x).Returns y.1)
                items.zipIdx items.zipIdx := by
              rw [List.forall₂_same]
              rintro ⟨x, i⟩ hx
              by_cases hnull : x = .null
              · rw [hnull]
                exact Run.returns_pure _
              · rw [passing_of_ne_null hnull]
                exact hbelow _ x (.element (List.fst_mem_of_mem_zipIdx hx) hnull) _
            rwa [← List.forall₂_map_right_iff, List.zipIdx_map_fst] at hitems
          rw [turn_list]
          exact hmade.bind (Run.returns_pure _)
        | _ => cases hty
      | some name =>
        rw [turn_reference hty]
        unfold value.reference
        split
        · next o ho =>
          have hcall : Call schema (.object o, v) (.type ty, v) := .object hty ho
          refine ih _ hcall (hcall.hookFree hschema hdemand) ?_ path
          rintro e ⟨⟩
          exact InputSchema.test_of_find? hnames ho
        · exact Run.returns_pure v

end Validate

/-- **Validation is idempotent where fields keep their names.**  What a validation without hooks is
done with is what a further validation against the same object is done with, in which members have
the same order. -/
theorem Validator.validate_done_of_done {v : Validator} {o : InputObject} {payload w : Json}
    {context : Option Json} (hschema : InputSchema.hookFree v.schema = true)
    (ho : o.hookFree = true)
    (hnames : InputSchema.allObjects v.schema InputObject.keepsNames = true)
    (hown : o.keepsNames = true) (h : (v.validate o payload context).outcome = .done w)
    (context' : Option Json) : (v.validate o w context').outcome = .done w := by
  have hdemand : (Demand.object o).hookFree = true := ho
  have hkeeps : ∀ e, Demand.object o = .object e → e.keepsNames = true := by
    rintro e ⟨⟩
    exact hown
  rw [validate, validateWithin, Validate.object_eq_walk hschema ho] at h ⊢
  have hnormal : Normal v.schema (.object o, w) :=
    Validate.normal_of_answers hschema hnames hdemand hkeeps (Run.answers_of_verdict h)
  exact (Validate.returns_of_normal hschema hnames hnormal hdemand hkeeps _).outcome _ _

/-- A tree with an object in place of a list of lists, null in a list, null in place of an object and
a member that is not asked for. -/
theorem Validator.validate_done_of_done_tree :
    let v : Validator := ⟨.trees, none⟩
    let payload : Json := .obj [("tag", .null), ("other", .null), ("link", .obj [("tag", .null)]),
      ("kids", .arr [.null, .obj [("kids", .obj [])]])]
    let w : Json := .obj [("kids", .arr [.null, .arr [.obj [("kids", .arr [.arr [.obj []]])]]]),
      ("link", .obj [])]
    InputSchema.trees.hookFree = true ∧ InputObject.tree.hookFree = true ∧
    InputSchema.trees.allObjects InputObject.keepsNames = true ∧
    InputObject.tree.keepsNames = true ∧
    (v.validate InputObject.tree payload none).outcome = .done w ∧
    (v.validate InputObject.tree w none).outcome = .done w := by
  intro v payload w
  have hschema : InputSchema.trees.hookFree = true := by decide
  have ho : InputObject.tree.hookFree = true := by decide
  have hnames : InputSchema.trees.allObjects InputObject.keepsNames = true := by decide
  have hown : InputObject.tree.keepsNames = true := by decide
  have h : (v.validate InputObject.tree payload none).outcome = .done w := rfl
  exact ⟨hschema, ho, hnames, hown, h, validate_done_of_done hschema ho hnames hown h none⟩

end EntityGraph
