import EntityGraph.Proofs.Misplaced

/-!
# The walk ends

What the walk does with a value is to be had from what it does with others: those sent for the fields
of an object, the elements of a list, and the same value as an object that a type refers to.
`Call schema` relates a walk to the ones that it calls for, and `turn` is the recursion with these
calls left open:

    walk demand v = turn schema context walk demand v                      (walk_eq_turn)

The schema may lead from an object back to itself, and still there is no endless chain of calls
(`call_wellFounded`).  The value gets smaller at each field.  At a list level it does not get larger,
also if it is no array and stands for its only element, and the type loses a list.  So what decreases
is the pair of the size of the value and of the lists around the type.

Without hooks the calls of `Call` are all there are (`turn_congr`).  So the number of levels that a
walk may go down makes no difference as long as it is larger than the depth of the payload
(`within_eq`), and the equation above has one solution.
-/

namespace EntityGraph

/-! ## Algorithm -/

/-- The walks that a walk calls for; the first one is called for by the second one. -/
inductive Call (schema : InputSchema) : Demand × Json → Demand × Json → Prop
  | field {o : InputObject} {f : InputField} {v raw : Json} :
      f ∈ o.fields → f.Sent v raw → Call schema (.type f.type, raw) (.object o, v)
  | element {element : FieldType} {hooks : Hooks} {v x : Json} :
      x ∈ Validate.elements v → x ≠ .null →
      Call schema (.type element, x) (.type (.list element hooks), v)
  | object {ty : FieldType} {name : String} {o : InputObject} {v : Json} :
      ty.reference? = some name → schema.find? name = some (.object o) →
      Call schema (.object o, v) (.type ty, v)

/-- How many calls may follow without the value getting smaller. -/
def Demand.rank : Demand → Nat
  | .object _ => 0
  | .type ty => ty.listDepth + 1

def Demand.hookFree : Demand → Bool
  | .object o => o.hookFree
  | .type ty => ty.hookFree

namespace Validate

/-- One turn of the recursion, where `walk` does what is called for. -/
def turn (schema : InputSchema) (context : Option Json)
    (walk : Demand → Json → FieldPath → Run Json) : Demand → Json → FieldPath → Run Json
  | .object o, v, path =>
    match v with
    | .obj _ => do
      let made ← o.fields.foldlM
        (fun made f => field (fun ty => walk (.type ty)) context v path f made) []
      return .obj made
    | other => .fail (.invalidShape path other.kind)
  | .type (.list element hooks), v, path => do
    let made ← (elements v).zipIdx.mapM fun
      | (.null, _) => pure .null
      | (raw, i) => do
        let x ← Run.hooks hooks ⟨.arr (elements v), raw, context⟩ (path.index i)
        walk (.type element) x (path.index i)
    return .arr made
  | .type (.named name _), v, path => value.reference schema (fun o => walk (.object o)) name v path
  | .type (.generic name _ _), v, path =>
    value.reference schema (fun o => walk (.object o)) name v path

/-- What becomes of an element, with its number, if there are no hooks. -/
def passing (walk : Json → FieldPath → Run Json) (path : FieldPath) : Json × Nat → Run Json
  | (.null, _) => pure .null
  | (x, i) => walk x (path.index i)

/-- The walk for a demand, at most `levels` objects deep. -/
def within (schema : InputSchema) (context : Option Json) (levels : Nat) :
    Demand → Json → FieldPath → Run Json
  | .object o => object schema context levels o
  | .type ty => value schema (object schema context levels) context ty

/-- The walk for a demand, as deep as the value is. -/
def walk (schema : InputSchema) (context : Option Json) (demand : Demand) (v : Json) :
    FieldPath → Run Json :=
  within schema context (v.depth + 1) demand v

/-- `walk` does what the recursion says. -/
def Solves (schema : InputSchema) (context : Option Json)
    (walk : Demand → Json → FieldPath → Run Json) : Prop :=
  ∀ demand, demand.hookFree = true → ∀ v path,
    walk demand v path = turn schema context walk demand v path

end Validate

/-! ## Lemmas -/

/-! ### Calls -/

theorem Json.sizeOf_lt_of_member? {v x : Json} {key : String} (h : v.member? key = some x) :
    sizeOf x < sizeOf v := by
  cases v with
  | obj members =>
    have hmem := List.sizeOf_lt_of_mem (Assoc.mem_of_find? h)
    simp only [Prod.mk.sizeOf_spec, Json.obj.sizeOf_spec] at hmem ⊢
    omega
  | _ => cases h

theorem Json.sizeOf_le_of_mem_elements {v x : Json} (h : x ∈ Validate.elements v) :
    sizeOf x ≤ sizeOf v := by
  cases v with
  | arr items =>
    have hmem : x ∈ items := h
    have hlt := List.sizeOf_lt_of_mem hmem
    simp only [Json.arr.sizeOf_spec]
    omega
  | _ => exact Nat.le_of_eq (congrArg sizeOf (List.mem_singleton.mp h))

section

variable {schema : InputSchema} {below : Demand × Json} {demand : Demand} {o : InputObject}
  {v : Json} {element ty : FieldType} {hooks : Hooks}

theorem call_object_iff : Call schema below (.object o, v) ↔
    ∃ f ∈ o.fields, below.1 = .type f.type ∧ f.Sent v below.2 := by
  constructor
  · intro h
    cases h with
    | @field _ f _ raw hf hsent => exact ⟨f, hf, rfl, hsent⟩
  · rintro ⟨f, hf, hdemand, hsent⟩
    obtain ⟨_, raw⟩ := below
    subst hdemand
    exact .field hf hsent

theorem call_list_iff : Call schema below (.type (.list element hooks), v) ↔
    below.1 = .type element ∧ below.2 ∈ Validate.elements v ∧ below.2 ≠ .null := by
  constructor
  · intro h
    cases h with
    | element hx hne => exact ⟨rfl, hx, hne⟩
    | object href _ => cases href
  · rintro ⟨hdemand, hx, hne⟩
    obtain ⟨_, x⟩ := below
    subst hdemand
    exact .element hx hne

/-- The value gets smaller, or it does not get larger and the rank gets smaller. -/
theorem Call.decreases (h : Call schema below (demand, v)) :
    sizeOf below.2 < sizeOf v ∨ sizeOf below.2 ≤ sizeOf v ∧ below.1.rank < demand.rank := by
  cases h with
  | field _ hsent =>
    left
    exact Json.sizeOf_lt_of_member? hsent.1
  | element hx _ =>
    right
    exact ⟨Json.sizeOf_le_of_mem_elements hx, Nat.lt_succ_self _⟩
  | object _ _ =>
    right
    exact ⟨Nat.le_refl _, Nat.succ_pos _⟩

/-- **There is no endless chain of calls**, however the objects of the schema refer to each other. -/
theorem call_wellFounded (schema : InputSchema) : WellFounded (Call schema) := by
  have hmeasure : WellFounded fun below above : Demand × Json =>
      Prod.Lex (· < ·) (· < ·) (sizeOf below.2, below.1.rank) (sizeOf above.2, above.1.rank) :=
    InvImage.wf _ (Prod.lex Nat.lt_wfRel Nat.lt_wfRel).wf
  apply Subrelation.wf _ hmeasure
  intro below above h
  rcases h.decreases with hlt | ⟨hle, hrank⟩
  · exact .left _ _ hlt
  · rcases Nat.lt_or_eq_of_le hle with hlt | heq
    · exact .left _ _ hlt
    · rw [heq]
      exact .right _ hrank

theorem Call.hookFree (hschema : schema.hookFree = true) (h : Call schema below (demand, v))
    (hdemand : demand.hookFree = true) : below.1.hookFree = true := by
  cases h with
  | field hf _ => exact (InputField.hookFree_iff.mp (List.all_eq_true.mp hdemand _ hf)).2
  | element _ _ => exact (FieldType.hookFree_list_iff.mp hdemand).2
  | object _ ho => exact schema.hookFree_of_find? hschema ho

/-- What is called for is no deeper, and an object is left behind at each field. -/
theorem Call.depth_le (h : Call schema below (demand, v)) : below.2.depth ≤ v.depth := by
  cases h with
  | field _ hsent => exact Nat.le_of_lt (Json.depth_lt_of_member? hsent.1)
  | element hx _ => exact Json.depth_le_of_mem_elements hx
  | object _ _ => exact Nat.le_refl _

theorem Call.depth_lt (h : Call schema below (.object o, v)) : below.2.depth < v.depth := by
  obtain ⟨f, -, -, hsent⟩ := call_object_iff.mp h
  exact Json.depth_lt_of_member? hsent.1

end

/-! ### Loops over the same items -/

theorem forall₂_zipIdx {α β : Type} {R : α → β → Prop} {l : List α} {m : List β}
    (h : List.Forall₂ R l m) (start : Nat) :
    List.Forall₂ (fun p q => R p.1 q.1 ∧ p.2 = q.2) (l.zipIdx start) (m.zipIdx start) := by
  induction h generalizing start with
  | nil => exact .nil
  | cons hab _ ih => exact .cons ⟨hab, rfl⟩ (ih (start + 1))

namespace Run

variable {α β γ : Type}

theorem mapM_congr {f : α → Run γ} {g : β → Run γ} {l : List α} {m : List β}
    (h : List.Forall₂ (fun a b => f a = g b) l m) : l.mapM f = m.mapM g := by
  induction h with
  | nil => rw [List.mapM_nil, List.mapM_nil]
  | cons hab _ ih => rw [List.mapM_cons, List.mapM_cons, hab, ih]

theorem foldlM_congr {f g : β → α → Run β} {l : List α} (h : ∀ a ∈ l, ∀ b, f b a = g b a) (b : β) :
    l.foldlM f b = l.foldlM g b := by
  induction l generalizing b with
  | nil => rfl
  | cons a rest ih =>
    rw [List.foldlM_cons, List.foldlM_cons, h a List.mem_cons_self]
    congr 1
    funext c
    exact ih (fun a ha => h a (List.mem_cons_of_mem _ ha)) c

end Run

/-! ### The recursion -/

namespace Validate

variable {schema : InputSchema} {context : Option Json} {o : InputObject} {v : Json}
  {path : FieldPath} {demand : Demand} {levels : Nat}

theorem object_eq_turn : object schema context (levels + 1) o v path =
    turn schema context (within schema context levels) (.object o) v path := by
  cases v <;> rfl

theorem value_eq_turn {ty : FieldType} :
    value schema (object schema context levels) context ty v path =
      turn schema context (within schema context levels) (.type ty) v path := by
  cases ty <;> rfl

/-- What has been sent for a field goes through its hooks and is then checked. -/
theorem field_of_sent {check : FieldType → Json → FieldPath → Run Json} {f : InputField}
    {raw : Json} (hsent : f.Sent v raw) (made : List (String × Json)) :
    field check context v path f made = (do
      let x ← Run.hooks f.hooks ⟨v, raw, context⟩ (path.field f.name)
      let w ← check f.type x (path.field f.name)
      return Assoc.insert f.targetName w made) := by
  unfold field
  rw [hsent.1]
  cases raw with
  | null => exact absurd rfl hsent.2
  | _ => rfl

theorem field_of_not_sent {check : FieldType → Json → FieldPath → Run Json} {f : InputField}
    (hno : ∀ raw, ¬ f.Sent v raw) (made : List (String × Json)) :
    field check context v path f made = pure made := by
  unfold field
  split
  · rfl
  · rfl
  · next raw hne hraw => exact absurd ⟨hraw, fun heq => hne (by rw [heq])⟩ (hno raw)

theorem passing_of_ne_null {walk : Json → FieldPath → Run Json} {x : Json} (h : x ≠ .null)
    (i : Nat) : passing walk path (x, i) = walk x (path.index i) := by
  cases x with
  | null => exact absurd rfl h
  | _ => rfl

/-- A field that has no hooks depends on what it has been sent. -/
theorem field_congr {check check' : FieldType → Json → FieldPath → Run Json} {f : InputField}
    {v' : Json} (hf : f.hookFree = true)
    (hsent : ∀ raw, f.Sent v raw → ∃ raw', f.Sent v' raw' ∧
      ∀ path, check f.type raw path = check' f.type raw' path)
    (hsent' : ∀ raw', f.Sent v' raw' → ∃ raw, f.Sent v raw) (made : List (String × Json)) :
    field check context v path f made = field check' context v' path f made := by
  by_cases h : ∃ raw, f.Sent v raw
  · obtain ⟨raw, hraw⟩ := h
    obtain ⟨raw', hraw', hcheck⟩ := hsent raw hraw
    rw [field_of_sent hraw, field_of_sent hraw', (InputField.hookFree_iff.mp hf).1,
      Run.hooks_none, Run.hooks_none, pure_bind, pure_bind, hcheck]
  · have hno : ∀ raw, ¬ f.Sent v raw := fun raw hraw => h ⟨raw, hraw⟩
    have hno' : ∀ raw', ¬ f.Sent v' raw' := fun raw' hraw' => h (hsent' raw' hraw')
    rw [field_of_not_sent hno, field_of_not_sent hno']

section

variable {walk walk' : Demand → Json → FieldPath → Run Json} {v' : Json}

theorem turn_object_congr (ho : o.hookFree = true) (hkind : v.kind = .object)
    (hkind' : v'.kind = .object)
    (hsent : ∀ f ∈ o.fields, ∀ raw, f.Sent v raw → ∃ raw', f.Sent v' raw' ∧
      ∀ path, walk (.type f.type) raw path = walk' (.type f.type) raw' path)
    (hsent' : ∀ f ∈ o.fields, ∀ raw', f.Sent v' raw' → ∃ raw, f.Sent v raw) :
    turn schema context walk (.object o) v path = turn schema context walk' (.object o) v' path := by
  have hturn : ∀ (walk : Demand → Json → FieldPath → Run Json) (v : Json), v.kind = .object →
      turn schema context walk (.object o) v path = (do
        let made ← o.fields.foldlM
          (fun made f => field (fun ty => walk (.type ty)) context v path f made) []
        return .obj made) := by
    intro walk v hkind
    cases v with
    | obj members => rfl
    | _ => cases hkind
  rw [hturn walk v hkind, hturn walk' v' hkind']
  congr 1
  apply Run.foldlM_congr
  intro f hf made
  exact field_congr (List.all_eq_true.mp ho f hf) (hsent f hf) (hsent' f hf) made

/-- Without hooks a list walks through all elements but null. -/
theorem turn_list {element : FieldType} :
    turn schema context walk (.type (.list element .none)) v path = (do
      let made ← (elements v).zipIdx.mapM (passing (walk (.type element)) path)
      return .arr made) := rfl

/-- Elements that are walked through alike make lists that are. -/
theorem turn_list_congr {element : FieldType}
    (h : List.Forall₂ (fun x x' => (x = .null ∧ x' = .null) ∨ x ≠ .null ∧ x' ≠ .null ∧
      ∀ path, walk (.type element) x path = walk' (.type element) x' path)
      (elements v) (elements v')) :
    turn schema context walk (.type (.list element .none)) v path =
      turn schema context walk' (.type (.list element .none)) v' path := by
  rw [turn_list, turn_list]
  congr 1
  apply Run.mapM_congr
  refine (forall₂_zipIdx h 0).imp ?_
  rintro ⟨x, i⟩ ⟨x', _⟩ ⟨⟨rfl, rfl⟩ | ⟨hx, hx', heq⟩, rfl⟩
  · rfl
  · rw [passing_of_ne_null hx, passing_of_ne_null hx', heq]

theorem turn_reference {ty : FieldType} {name : String} (hty : ty.reference? = some name) :
    turn schema context walk (.type ty) v path =
      value.reference schema (fun o => walk (.object o)) name v path := by
  cases ty with
  | list element hooks => cases hty
  | named n fileName =>
    cases hty
    rfl
  | generic n args fileName =>
    cases hty
    rfl

theorem turn_reference_congr {ty : FieldType} {name : String} (hty : ty.reference? = some name)
    (h : ∀ o, schema.find? name = some (.object o) →
      walk (.object o) v path = walk' (.object o) v' path)
    (hleaf : (∀ o, schema.find? name ≠ some (.object o)) → v = v') :
    turn schema context walk (.type ty) v path = turn schema context walk' (.type ty) v' path := by
  rw [turn_reference hty, turn_reference hty]
  unfold value.reference
  split
  · next o ho => exact h o ho
  · next hno => rw [hleaf hno]

end

/-- **The calls of `Call` are all there are**: a turn depends on what `walk` does there. -/
theorem turn_congr {walk walk' : Demand → Json → FieldPath → Run Json}
    (hdemand : demand.hookFree = true) (h : ∀ below, Call schema below (demand, v) →
      ∀ path, walk below.1 below.2 path = walk' below.1 below.2 path) :
    turn schema context walk demand v path = turn schema context walk' demand v path := by
  cases demand with
  | object o =>
    by_cases hkind : v.kind = .object
    · apply turn_object_congr hdemand hkind hkind
      · intro f hf raw hraw
        exact ⟨raw, hraw, h _ (.field hf hraw)⟩
      · intro f hf raw hraw
        exact ⟨raw, hraw⟩
    · cases v with
      | obj members => exact absurd rfl hkind
      | _ => rfl
  | type ty =>
    cases hty : ty.reference? with
    | none =>
      cases ty with
      | list element hooks =>
        obtain ⟨rfl, -⟩ := FieldType.hookFree_list_iff.mp hdemand
        apply turn_list_congr
        rw [List.forall₂_same]
        intro x hx
        by_cases hnull : x = .null
        · exact Or.inl ⟨hnull, hnull⟩
        · exact Or.inr ⟨hnull, hnull, h _ (.element hx hnull)⟩
      | _ => cases hty
    | some name =>
      apply turn_reference_congr hty
      · intro o ho
        exact h _ (.object hty ho) path
      · intro _
        rfl

/-- The number of levels makes no difference if there are enough for the depth of the value. -/
theorem within_eq (hschema : schema.hookFree = true) {levels' : Nat}
    (hdemand : demand.hookFree = true) (h : v.depth < levels) (h' : v.depth < levels') :
    within schema context levels demand v path = within schema context levels' demand v path := by
  suffices ∀ above : Demand × Json, above.1.hookFree = true → ∀ n m, above.2.depth < n →
      above.2.depth < m → ∀ path, within schema context n above.1 above.2 path =
        within schema context m above.1 above.2 path from
    this (demand, v) hdemand levels levels' h h' path
  intro above
  induction above using (call_wellFounded schema).induction with
  | h above ih =>
    obtain ⟨demand, v⟩ := above
    intro hdemand n m hn hm path
    cases demand with
    | object o =>
      obtain ⟨n, rfl⟩ := Nat.exists_eq_add_one_of_ne_zero (Nat.ne_zero_of_lt hn)
      obtain ⟨m, rfl⟩ := Nat.exists_eq_add_one_of_ne_zero (Nat.ne_zero_of_lt hm)
      rw [within, within, object_eq_turn, object_eq_turn]
      apply turn_congr hdemand
      intro below hcall
      have hlt := hcall.depth_lt
      exact ih below hcall (hcall.hookFree hschema hdemand) n m (by omega) (by omega)
    | type ty =>
      rw [within, within, value_eq_turn, value_eq_turn]
      apply turn_congr hdemand
      intro below hcall
      have hle := hcall.depth_le
      exact ih below hcall (hcall.hookFree hschema hdemand) n m (Nat.lt_of_le_of_lt hle hn)
        (Nat.lt_of_le_of_lt hle hm)

/-- The walk solves the recursion. -/
theorem walk_eq_turn (hschema : schema.hookFree = true) (hdemand : demand.hookFree = true) :
    walk schema context demand v path =
      turn schema context (walk schema context) demand v path := by
  have hwithin : walk schema context demand v path =
      turn schema context (within schema context (v.depth + 1)) demand v path := by
    cases demand with
    | object o =>
      have hmore : walk schema context (.object o) v path =
          within schema context (v.depth + 2) (.object o) v path :=
        within_eq hschema hdemand (Nat.lt_succ_self _) (by omega)
      rw [hmore, within, object_eq_turn]
    | type ty => exact value_eq_turn
  rw [hwithin]
  apply turn_congr hdemand
  intro below hcall
  have hle := hcall.depth_le
  exact fun path => within_eq hschema (hcall.hookFree hschema hdemand) (by omega)
    (Nat.lt_succ_self _)

/-- There is no other solution. -/
theorem eq_walk_of_solves {walk' : Demand → Json → FieldPath → Run Json}
    (hschema : schema.hookFree = true) (h : Solves schema context walk')
    (hdemand : demand.hookFree = true) :
    walk' demand v path = walk schema context demand v path := by
  suffices ∀ above : Demand × Json, above.1.hookFree = true → ∀ path,
      walk' above.1 above.2 path = walk schema context above.1 above.2 path from
    this (demand, v) hdemand path
  intro above
  induction above using (call_wellFounded schema).induction with
  | h above ih =>
    obtain ⟨demand, v⟩ := above
    intro hdemand path
    rw [h demand hdemand, walk_eq_turn hschema hdemand]
    apply turn_congr hdemand
    intro below hcall
    exact ih below hcall (hcall.hookFree hschema hdemand)

/-- The run of a validation is the walk, whose levels are never used up. -/
theorem object_eq_walk (hschema : schema.hookFree = true) (ho : o.hookFree = true) :
    object schema context (v.depth + hookLevels) o v path =
      walk schema context (.object o) v path := by
  have hlevels : v.depth < v.depth + hookLevels := Nat.lt_add_of_pos_right (by decide)
  have hdemand : (Demand.object o).hookFree = true := ho
  exact within_eq hschema hdemand hlevels (Nat.lt_succ_self _)

end Validate

/-- Without hooks a validation is done, or it comes to a misplaced value. -/
theorem Validator.done_or_misplaced {v : Validator} {o : InputObject}
    (hschema : InputSchema.hookFree v.schema = true) (ho : o.hookFree = true) (payload : Json)
    (context : Option Json) :
    (∃ w, (v.validate o payload context).outcome = .done w) ∨ ∃ path kind,
      (v.validate o payload context).outcome = .failed (.invalidShape path kind) := by
  have hdepth : payload.depth < payload.depth + hookLevels :=
    Nat.lt_add_of_pos_right (by decide)
  have hfinds : Validate.Finds v.schema (.object o) payload (.root o.escapedName)
      (Validate.object v.schema context (payload.depth + hookLevels) o payload
        (.root o.escapedName)) := Validate.finds_object hschema ho hdepth
  rcases hfinds with ⟨-, w, hw⟩ | ⟨e, ⟨steps, segments, x, -, rfl⟩, he⟩
  · exact Or.inl ⟨w, hw.outcome _ _⟩
  · exact Or.inr ⟨_, _, he.outcome _ _⟩

/-- **Without hooks a validation ends, whatever the payload.**  The recursion is well-founded: a
call through a field is about a smaller part of the value, one through a list level about no larger
value and a smaller type, and one to an object of the schema about the same value, and there are no
other calls.  So the recursion has one solution, and a validation does what it says. -/
theorem Validator.validate_ends {schema : InputSchema} (hschema : schema.hookFree = true)
    (context : Option Json) :
    WellFounded (Call schema) ∧
    (∀ below o v, Call schema below (.object o, v) → ∃ f ∈ o.fields,
      below.1 = .type f.type ∧ v.member? f.name = some below.2 ∧ sizeOf below.2 < sizeOf v) ∧
    (∀ below element hooks v, Call schema below (.type (.list element hooks), v) →
      below.1 = .type element ∧ below.2 ∈ Validate.elements v ∧ sizeOf below.2 ≤ sizeOf v ∧
        sizeOf element < sizeOf (FieldType.list element hooks)) ∧
    (∀ below ty name v, ty.reference? = some name → Call schema below (.type ty, v) →
      ∃ o, schema.find? name = some (.object o) ∧ below = (.object o, v)) ∧
    (∀ walk walk' demand v path, demand.hookFree = true →
      (∀ below, Call schema below (demand, v) →
        ∀ path, walk below.1 below.2 path = walk' below.1 below.2 path) →
      Validate.turn schema context walk demand v path =
        Validate.turn schema context walk' demand v path) ∧
    ∃ walk, Validate.Solves schema context walk ∧
      (∀ walk', Validate.Solves schema context walk' → ∀ demand, demand.hookFree = true →
        ∀ v path, walk' demand v path = walk demand v path) ∧
      ∀ (limit : Option Duration) (o : InputObject) (payload : Json), o.hookFree = true →
        Validator.validate ⟨schema, limit⟩ o payload context =
          (walk (.object o) payload (.root o.escapedName)).verdict limit o.escapedName ∧
        ((∃ w, (Validator.validate ⟨schema, limit⟩ o payload context).outcome = .done w) ∨
          ∃ path kind, (Validator.validate ⟨schema, limit⟩ o payload context).outcome =
            .failed (.invalidShape path kind)) := by
  refine ⟨call_wellFounded schema, ?field, ?element, ?object, ?calls, ?solution⟩
  case field =>
    intro below o v hcall
    obtain ⟨f, hf, hdemand, hsent⟩ := call_object_iff.mp hcall
    exact ⟨f, hf, hdemand, hsent.1, Json.sizeOf_lt_of_member? hsent.1⟩
  case element =>
    intro below element hooks v hcall
    obtain ⟨hdemand, hx, -⟩ := call_list_iff.mp hcall
    refine ⟨hdemand, hx, Json.sizeOf_le_of_mem_elements hx, ?_⟩
    simp only [FieldType.list.sizeOf_spec]
    omega
  case object =>
    intro below ty name v hty hcall
    cases hcall with
    | element _ _ => cases hty
    | object hty' ho =>
      cases hty.symm.trans hty'
      exact ⟨_, ho, rfl⟩
  case calls =>
    intro walk walk' demand v path hdemand h
    exact Validate.turn_congr hdemand h
  case solution =>
    refine ⟨Validate.walk schema context, ?_, ?_, ?_⟩
    · intro demand hdemand v path
      exact Validate.walk_eq_turn hschema hdemand
    · intro walk' hsolves demand hdemand v path
      exact Validate.eq_walk_of_solves hschema hsolves hdemand
    · intro limit o payload ho
      refine ⟨?_, done_or_misplaced hschema ho payload context⟩
      rw [validate, validateWithin, Validate.object_eq_walk hschema ho]

/-- The schema of one object that refers to itself. -/
def InputSchema.trees : InputSchema := Dict.empty.insert "Tree" (.object InputObject.tree)

/-- A chain of calls leads from the object of a tree to the same object, and still every validation
ends. -/
theorem Validator.validate_ends_tree :
    let schema := InputSchema.trees
    let payload : Json := .obj [("kids", .obj [("tag", .bool true)]), ("link", .obj [])]
    schema.hookFree = true ∧ InputObject.tree.hookFree = true ∧
    Relation.TransGen (Call schema) (.object InputObject.tree, .obj [])
      (.object InputObject.tree, payload) ∧
    WellFounded (Call schema) ∧
    ((∃ w, (Validator.validate ⟨schema, none⟩ InputObject.tree payload none).outcome = .done w) ∨
      ∃ path kind, (Validator.validate ⟨schema, none⟩ InputObject.tree payload none).outcome =
        .failed (.invalidShape path kind)) := by
  intro schema payload
  have hschema : schema.hookFree = true := by decide
  have ho : InputObject.tree.hookFree = true := by decide
  obtain ⟨hwellFounded, -, -, -, -, walk, -, -, hends⟩ := validate_ends hschema none
  have hfield : InputObject.tree.fields[1] ∈ InputObject.tree.fields := List.getElem_mem _
  have hlink : Call schema (.type (.named "Tree" none), .obj [])
      (.object InputObject.tree, payload) := .field hfield ⟨rfl, by simp⟩
  have hobject : Call schema (.object InputObject.tree, .obj [])
      (.type (.named "Tree" none), .obj []) := .object rfl rfl
  exact ⟨hschema, ho, .tail (.single hobject) hlink, hwellFounded, (hends none _ payload ho).2⟩

end EntityGraph
