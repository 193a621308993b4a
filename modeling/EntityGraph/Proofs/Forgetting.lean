import EntityGraph.Instantiation
import EntityGraph.Proofs.Retyping

/-!
# What names do not show

The escaped and the generic name of a type say nothing about the files its references come from
or the hooks of its lists.  `ty.forget f` drops the files and keeps `f` of the hooks; with
`f = id` it forgets files only, and `ty.bare` forgets hooks as well.

    (ty.forget f).escapedName = ty.escapedName                            (escapedName_forget)
    (ty.forget f).genericName = ty.genericName                            (genericName_forget)
    (ty.substitute b).forget f = (ty.forget f).substitute (b.forget f)    (forget_substitute)

The same holds of whole instantiations (`mapTypes_instanceOf`), so two references to one template
that agree up to what is forgotten give objects that agree up to it as well
(`mapTypes_instanceOf_congr`).
-/

namespace EntityGraph

namespace FieldType

/-- Induction over types, with the arguments of a reference as smaller types. -/
@[induction_eliminator]
theorem induct {motive : FieldType → Prop}
    (list : ∀ element hooks, motive element → motive (.list element hooks))
    (named : ∀ name fileName, motive (.named name fileName))
    (generic : ∀ name args fileName, (∀ a ∈ args, motive a) →
      motive (.generic name args fileName)) (ty : FieldType) : motive ty :=
  @FieldType.rec motive (fun args => ∀ a ∈ args, motive a) list named generic
    (by simp) (fun a rest ha hrest => by simpa using ⟨ha, hrest⟩) ty

/-! ## Algorithm -/

mutual

/-- The type without the files of its references, and with `f` of the hooks of its lists. -/
def forget (f : Hooks → Hooks) : FieldType → FieldType
  | .list element hooks => .list (element.forget f) (f hooks)
  | .named name _ => .named name none
  | .generic name args _ => .generic name (forgetAll f args) none

def forgetAll (f : Hooks → Hooks) : List FieldType → List FieldType
  | [] => []
  | a :: rest => a.forget f :: forgetAll f rest

end

/-- The type without files and hooks. -/
def bare (ty : FieldType) : FieldType := ty.forget fun _ => .none

end FieldType

def Reference.forget (f : Hooks → Hooks) (r : Reference) : Reference :=
  ⟨r.name, r.args.map (FieldType.forgetAll f), none⟩

def Bindings.forget (f : Hooks → Hooks) (b : Bindings) : Bindings :=
  fun name => (b name).map (·.forget f)

/-- The object that a reference to a template stands for, if the arguments are right in number. -/
def Object.instanceOf (template : Object) (r : Reference) (escaped : String) : Object :=
  { name := r.genericName
    registeredName := some escaped
    id := template.id
    deprecated := template.deprecated
    doc := some (template.instanceDoc r.genericName)
    fileName := template.fileName
    inherit := template.inherit
    generics := none
    fields := template.fields.mapValues fun _ => Field.instantiate (template.bindings r) escaped
    visibleFields := template.visibleFields }

/-! ## Lemmas -/

namespace FieldType

variable (f : Hooks → Hooks)

theorem forgetAll_eq_map (args : List FieldType) : forgetAll f args = args.map (·.forget f) := by
  induction args with
  | nil => rfl
  | cons a rest ih => rw [forgetAll, ih, List.map_cons]

theorem escapedName_forget (ty : FieldType) : (ty.forget f).escapedName = ty.escapedName := by
  induction ty with
  | list element hooks ih => rw [forget, escapedName, escapedName, ih]
  | named name fileName => rfl
  | generic name args fileName ih =>
    have hargs : escapedArgs (forgetAll f args) = escapedArgs args := by
      induction args with
      | nil => rfl
      | cons a rest ihrest =>
        rw [forgetAll, escapedArgs, escapedArgs, ih a (by simp),
          ihrest fun b hb => ih b (by simp [hb])]
    rw [forget, escapedName, escapedName, hargs]

theorem genericName_forget (ty : FieldType) : (ty.forget f).genericName = ty.genericName := by
  induction ty with
  | list element hooks ih => rw [forget, genericName, genericName, ih]
  | named name fileName => rfl
  | generic name args fileName ih =>
    have hargs : genericNames (forgetAll f args) = genericNames args := by
      induction args with
      | nil => rfl
      | cons a rest ihrest =>
        rw [forgetAll, genericNames, genericNames, ih a (by simp),
          ihrest fun b hb => ih b (by simp [hb])]
    rw [forget, genericName, genericName, hargs]

/-- Forgetting and substituting may be done in either order. -/
theorem forget_substitute (b : Bindings) (ty : FieldType) :
    (ty.substitute b).forget f = (ty.forget f).substitute (b.forget f) := by
  induction ty with
  | list element hooks ih => rw [substitute, forget, forget, substitute, ih]
  | named name fileName =>
    rw [substitute, forget, substitute, Bindings.forget]
    cases b name <;> rfl
  | generic name args fileName ih =>
    have hargs : forgetAll f (substituteAll b args) =
        substituteAll (b.forget f) (forgetAll f args) := by
      rw [substituteAll_eq_map, forgetAll_eq_map, forgetAll_eq_map, substituteAll_eq_map,
        List.map_map, List.map_map]
      exact List.map_congr_left ih
    rw [substitute, forget, forget, substitute, hargs]

theorem terminal_forget (ty : FieldType) : (ty.forget f).terminal = ty.terminal.forget f := by
  induction ty with
  | list element hooks ih => rw [forget, terminal, terminal, ih]
  | named name fileName => rfl
  | generic name args fileName ih => rfl

end FieldType

theorem Reference.forget_toType (f : Hooks → Hooks) (r : Reference) :
    (r.forget f).toType = r.toType.forget f := by
  cases r with
  | mk name args fileName => cases args <;> rfl

theorem Reference.forget_eq_iff {f : Hooks → Hooks} {r r' : Reference} :
    r.forget f = r'.forget f ↔ r.toType.forget f = r'.toType.forget f := by
  rw [← forget_toType, ← forget_toType]
  constructor
  · intro h
    rw [h]
  · intro h
    have hterminal := congrArg FieldType.terminal h
    rwa [FieldType.terminal_toType, FieldType.terminal_toType] at hterminal

/-- What is done to the types of a list of pairs is done to what a name is bound to. -/
theorem Bindings.ofPairs_map (φ : FieldType → FieldType) (l : List (String × FieldType))
    (name : String) : ofPairs (l.map fun p => (p.1, φ p.2)) name = (ofPairs l name).map φ := by
  induction l with
  | nil => rfl
  | cons p rest ih =>
    rw [List.map_cons, ofPairs, ofPairs, ih]
    cases ofPairs rest name with
    | some ty => rfl
    | none => by_cases h : p.1 = name <;> simp [h]

theorem Bindings.forget_ofPairs (f : Hooks → Hooks) (l : List (String × FieldType)) :
    (Bindings.ofPairs l).forget f = .ofPairs (l.map fun p => (p.1, p.2.forget f)) :=
  funext fun name => (ofPairs_map (·.forget f) l name).symm

/-! ## Instantiations -/

theorem Object.instantiate_ok_iff {t o : Object} {r : Reference} {escaped : String} :
    t.instantiate r escaped = .ok o ↔
      t.typeParameters.length = (r.args.getD []).length ∧ o = t.instanceOf r escaped := by
  rw [Object.instantiate]
  constructor
  · intro h
    split at h
    · cases h
    · next hlen => exact ⟨Classical.not_not.mp hlen, (Except.ok.inj h).symm⟩
  · rintro ⟨hlen, rfl⟩
    rw [if_neg (Classical.not_not.mpr hlen)]
    rfl

theorem Object.instantiate_of_length {t : Object} {r : Reference}
    (h : t.typeParameters.length = (r.args.getD []).length) (escaped : String) :
    t.instantiate r escaped = .ok (t.instanceOf r escaped) :=
  instantiate_ok_iff.mpr ⟨h, rfl⟩

section

variable (f : Hooks → Hooks)

theorem Reference.genericName_forget (r : Reference) :
    (r.forget f).genericName = r.genericName := by
  rw [genericName, genericName, forget_toType, FieldType.genericName_forget]

theorem Reference.escapedName_forget (r : Reference) :
    (r.forget f).escapedName = r.escapedName := by
  rw [escapedName, escapedName, forget_toType, FieldType.escapedName_forget]

theorem Reference.args_forget (r : Reference) :
    (r.forget f).args.getD [] = (r.args.getD []).map (·.forget f) := by
  unfold forget
  cases r.args with
  | none => rfl
  | some args => exact FieldType.forgetAll_eq_map f args

theorem Object.forget_bindings (t : Object) (r : Reference) :
    (t.bindings r).forget f = t.bindings (r.forget f) := by
  rw [bindings, Bindings.forget_ofPairs, bindings, Reference.args_forget, List.zip_map_right]
  rfl

theorem Field.mapTypes_instantiate (b : Bindings) (owner : String) (field : Field) :
    (field.instantiate b owner).mapTypes (·.forget f) =
      (field.mapTypes (·.forget f)).instantiate (b.forget f) owner := by
  simp only [instantiate, mapTypes, Option.map_map, Function.comp_def,
    FieldType.forget_substitute]

theorem Object.mapTypes_instanceOf (t : Object) (r : Reference) (escaped : String) :
    (t.instanceOf r escaped).mapTypes (·.forget f) =
      (t.mapTypes (·.forget f)).instanceOf (r.forget f) escaped := by
  have hfields : (t.fields.mapValues fun _ => Field.instantiate (t.bindings r) escaped).mapValues
      (fun _ => Field.mapTypes (·.forget f)) =
      (t.fields.mapValues fun _ => Field.mapTypes (·.forget f)).mapValues
        fun _ => Field.instantiate (t.bindings (r.forget f)) escaped := by
    apply Dict.ext
    simp only [Dict.mapValues, List.map_map, Function.comp_def, Field.mapTypes_instantiate,
      forget_bindings]
  simp only [mapTypes, instanceOf, Reference.genericName_forget, hfields]
  rfl

end

section

variable {f : Hooks → Hooks} {r r' : Reference} (he : r.forget f = r'.forget f)

include he

theorem Reference.name_eq_of_forget_eq : r.name = r'.name := by
  have hname := congrArg Reference.name he
  exact hname

theorem Reference.escapedName_eq_of_forget_eq : r.escapedName = r'.escapedName := by
  rw [← escapedName_forget f r, he, escapedName_forget]

theorem Reference.genericName_eq_of_forget_eq : r.genericName = r'.genericName := by
  rw [← genericName_forget f r, he, genericName_forget]

theorem Reference.length_args_eq_of_forget_eq :
    (r.args.getD []).length = (r'.args.getD []).length := by
  rw [← List.length_map (·.forget f), ← args_forget, he, args_forget, List.length_map]

/-- References that agree up to what is forgotten give instantiations that do. -/
theorem Object.mapTypes_instanceOf_congr (t : Object) (escaped : String) :
    (t.instanceOf r escaped).mapTypes (·.forget f) =
      (t.instanceOf r' escaped).mapTypes (·.forget f) := by
  rw [mapTypes_instanceOf, mapTypes_instanceOf, he]

end

end EntityGraph
