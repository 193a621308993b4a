import EntityGraph.Command.Basic
import EntityGraph.Proofs.Decoding
import EntityGraph.Proofs.HookFree

/-!
# Declarations are read as they were written

What documents can say of a graph or of a schema is all of it but hooks, defaults that are null, and
numbers that are not whole (`Graph.plain`, `Schema.plain`).  What is plain is read again from its
text, unless its brackets are nested too deep:

    g.plain → graph.Takes (Encode.graph g) g                                  (takes_graph)
    decode.Takes v a → v.depth ≤ 127 →
      decode.read (Command.render pretty v) = .ok a                           (Takes.read_render)

There is one lemma for each decoder; it follows the members of the record that the decoder reads, in
the order in which they are written.
-/

namespace EntityGraph

/-! ## Algorithm -/

def Json.isNull : Json → Bool
  | .null => true
  | _ => false

/-- Whether documents can have the value as a default. -/
def Json.isDefault (v : Json) : Bool := !v.isNull && v.exact

/-! What documents can say: no hooks, defaults that are not null, numbers that are whole. -/

def EnumMember.plain (m : EnumMember) : Bool := m.value.exact

def Enumeration.plain (e : Enumeration) : Bool := e.members.all (·.plain)

def Union.plain (u : Union) : Bool := u.types.all (·.hookFree)

def InputVariant.plain (v : InputVariant) : Bool := v.hookFree && v.defaultValue.all (·.isDefault)

def Field.plain (f : Field) : Bool := f.input.all (·.plain) && f.output.all (·.hookFree)

def Object.plain (o : Object) : Bool := o.fields.entries.all (·.2.plain)

def Node.plain : Node → Bool
  | .scalar _ => true
  | .enumeration e => e.plain
  | .union u => u.plain
  | .object o => o.plain
  | .list element hooks => hooks.absent && element.hookFree
  | .reference r => r.hookFree
  | .field f => f.plain

def Graph.plain (g : Graph) : Bool := g.entities.entries.all (·.2.plain)

def InputField.plain (f : InputField) : Bool := f.hookFree && f.defaultValue.all (·.isDefault)

def OutputField.plain (f : OutputField) : Bool :=
  f.hooks.absent && f.type.hookFree && f.param.all (·.hookFree)

def SchemaNode.plain {F : Type} (field : F → Bool) : SchemaNode F → Bool
  | .scalar _ => true
  | .enumeration e => e.plain
  | .union u => u.plain
  | .object o => o.fields.all field

def Schema.plain {F : Type} (field : F → Bool) (s : Schema F) : Bool :=
  s.entries.all (·.2.plain field)

/-! ## Lemmas -/

theorem Json.isDefault_iff {v : Json} : v.isDefault = true ↔ v ≠ .null ∧ v.exact = true := by
  cases v <;> simp [isDefault, isNull]

namespace Encode

theorem fieldTypes_eq (args : List FieldType) : fieldTypes args = args.map fieldType := by
  induction args with
  | nil => rfl
  | cons a rest ih => rw [fieldTypes, ih, List.map_cons]

theorem fieldType_toType (r : Reference) :
    fieldType r.toType = tagged "Reference" (referenceMembers r) := by
  obtain ⟨name, args, fileName⟩ := r
  cases args <;> rfl

theorem depth_obj_le {members : List (String × Json)} {room : Nat} :
    (Json.obj members).depth ≤ room + 1 ↔ ∀ p ∈ members, p.2.depth ≤ room := by
  rw [Json.depth, Nat.add_le_add_iff_right, Json.depthMembers_le_iff]

@[simp] theorem depth_str (s : String) : (Json.str s).depth = 0 := by simp [Json.depth]

@[simp] theorem depth_bool (b : Bool) : (Json.bool b).depth = 0 := by simp [Json.depth]

@[simp] theorem depth_id (n : UInt32) : (id n).depth = 0 := rfl

@[simp] theorem depth_index (n : UInt64) : (index n).depth = 0 := rfl

@[simp] theorem depth_text? (s : Option String) : (text? s).depth = 0 := by cases s <;> rfl

theorem depth_list (element : FieldType) (hooks : Hooks) :
    (fieldType (.list element hooks)).depth = (fieldType element).depth + 1 := by
  simp [fieldType, Json.depthMembers, Json.depth]

theorem depth_named (name : String) (fileName : Option String) :
    (fieldType (.named name fileName)).depth = 1 := by
  simp [fieldType, Json.depthMembers, Json.depth]

theorem depth_generic (name : String) (args : List FieldType) (fileName : Option String) :
    (fieldType (.generic name args fileName)).depth = Json.depthItems (args.map fieldType) + 2 := by
  simp [fieldType, fieldTypes_eq, Json.depthMembers, Json.depth]

theorem fieldType_ne_null (ty : FieldType) : fieldType ty ≠ .null := by
  cases ty <;> exact nofun

end Encode

namespace Decoder

open Record

/-! ### Types -/

theorem takes_referenceWith {argument : Decoder FieldType} {r : Reference}
    (h : ∀ args, r.args = some args → ∀ a ∈ args, argument.Takes (Encode.fieldType a) a) :
    (referenceWith argument).Takes (Encode.referenceMembers r) r := by
  have hargs : (orNull (sequence argument)).Takes
      (Encode.orNull (fun args => .arr (Encode.fieldTypes args)) r.args) r.args := by
    refine takes_orNull (fun args => by simp) fun args hr => ?_
    rw [Encode.fieldTypes_eq]
    exact takes_sequence (h args hr)
  obtain ⟨name, args, fileName⟩ := r
  refine .seq (.seq (.map _ ?_) ?_) ?_
  · exact takes_member rfl (takes_text _)
  · exact takes_member rfl hargs
  · exact takes_member rfl (takes_text? _)

theorem takes_listWith {α : Type} {list : FieldType → Hooks → α} {element : Decoder FieldType}
    {ty : FieldType} (h : element.Takes (Encode.fieldType ty) ty) :
    (listWith list element).Takes (.obj [("element", Encode.fieldType ty)]) (list ty .none) := by
  refine takes_decoder rfl (List.nodup_singleton _) (.map _ ?_) rfl
  exact takes_member rfl h

theorem takes_toType {fuel : Nat} {r : Reference}
    (h : ∀ args, r.args = some args → ∀ a ∈ args,
      (fieldTypeWithin fuel).Takes (Encode.fieldType a) a) :
    (fieldTypeWithin (fuel + 1)).Takes (Encode.fieldType r.toType) r.toType := by
  rw [Encode.fieldType_toType]
  have hnodup : List.Nodup ["name", "params", "file_name"] := by decide
  exact Tagged.takes_decoder rfl rfl
    (takes_decoder rfl hnodup (.map _ (takes_referenceWith h)) rfl)

/-- Types are nested no deeper than the brackets in their text. -/
theorem takes_fieldTypeWithin {ty : FieldType} (hty : ty.hookFree = true) {fuel : Nat}
    (hfuel : (Encode.fieldType ty).depth ≤ fuel) :
    (fieldTypeWithin fuel).Takes (Encode.fieldType ty) ty := by
  induction ty generalizing fuel with
  | list element hooks ih =>
    obtain ⟨rfl, helement⟩ := FieldType.hookFree_list_iff.mp hty
    rw [Encode.depth_list] at hfuel
    obtain ⟨fuel, rfl⟩ : ∃ k, fuel = k + 1 := ⟨fuel - 1, by omega⟩
    exact Tagged.takes_decoder rfl rfl (takes_listWith (ih helement (by omega)))
  | named name fileName =>
    rw [Encode.depth_named] at hfuel
    obtain ⟨fuel, rfl⟩ : ∃ k, fuel = k + 1 := ⟨fuel - 1, by omega⟩
    exact takes_toType (r := ⟨name, none, fileName⟩) nofun
  | generic name args fileName ih =>
    rw [Encode.depth_generic] at hfuel
    obtain ⟨fuel, rfl⟩ : ∃ k, fuel = k + 1 := ⟨fuel - 1, by omega⟩
    have hdepths : Json.depthItems (args.map Encode.fieldType) ≤ fuel := by omega
    refine takes_toType (r := ⟨name, some args, fileName⟩) fun args' hargs a ha => ?_
    cases hargs
    have hdepth := Json.depthItems_le_iff.mp hdepths _ (List.mem_map_of_mem ha)
    exact ih a ha (FieldType.hookFreeAll_iff.mp hty a ha) hdepth

theorem takes_fieldType {ty : FieldType} (hty : ty.hookFree = true) :
    fieldType.Takes (Encode.fieldType ty) ty :=
  ⟨(takes_fieldTypeWithin hty (Nat.le_refl _)).whole, fun r hroom =>
    (takes_fieldTypeWithin hty (Nat.le_succ_of_le hroom)).reads r hroom⟩

theorem takes_reference {r : Reference} (hr : r.hookFree = true) :
    reference.Takes (Encode.reference r) r := by
  have hargs : ∀ args, r.args = some args → ∀ a ∈ args, a.hookFree = true := by
    obtain ⟨name, args, fileName⟩ := r
    rintro args rfl
    exact FieldType.hookFreeAll_iff.mp hr
  refine takes_decoder rfl (by decide) ?_ rfl
  exact takes_referenceWith fun args h a ha => takes_fieldType (hargs args h a ha)

theorem takes_scalar (s : Scalar) : scalar.Takes (.obj (Encode.scalarMembers s)) s := by
  refine takes_decoder rfl (by decide) (.seq (.map _ ?_) ?_) rfl
  · exact takes_member rfl (takes_text _)
  · exact takes_member rfl (takes_text? _)

theorem takes_enumMember {m : EnumMember} (hm : m.plain = true) :
    enumMember.Takes (Encode.enumMember m) m := by
  refine takes_decoder rfl (by decide) (.seq (.seq (.seq (.map _ ?_) ?_) ?_) ?_) rfl
  · exact takes_member rfl (takes_text _)
  · exact takes_member rfl (takes_free hm)
  · exact takes_member rfl (takes_text? _)
  · exact takes_member rfl (takes_flag _)

theorem takes_enumeration {e : Enumeration} (he : e.plain = true) :
    enumeration.Takes (.obj (Encode.enumerationMembers e)) e := by
  refine takes_decoder rfl (by decide) (.seq (.seq (.map _ ?_) ?_) ?_) rfl
  · exact takes_member rfl (takes_text _)
  · exact takes_member rfl (takes_text? _)
  · exact takes_member rfl <| takes_sequence fun m hm =>
      takes_enumMember (List.all_eq_true.mp he m hm)

theorem takes_union {u : Union} (hu : u.plain = true) :
    union.Takes (.obj (Encode.unionMembers u)) u := by
  refine takes_decoder rfl (by decide) (.seq (.seq (.map _ ?_) ?_) ?_) rfl
  · exact takes_member rfl (takes_text _)
  · exact takes_member rfl (takes_text? _)
  · exact takes_member rfl <| takes_sequence fun r hr =>
      takes_reference (List.all_eq_true.mp hu r hr)

theorem takes_default {x : Option Json} (hx : x.all (·.isDefault) = true) :
    freeOrNull.Takes (x.getD .null) x :=
  takes_freeOrNull fun v hv => Json.isDefault_iff.mp (by simpa [hv] using hx)

theorem takes_inputVariant {v : InputVariant} (hv : v.plain = true) :
    inputVariant.Takes (Encode.inputVariant v) v := by
  obtain ⟨name, n, aliasName, deprecated, doc, type, defaultValue, fileName, hooks⟩ := v
  simp only [InputVariant.plain, InputVariant.hookFree, Bool.and_eq_true, Hooks.absent_iff] at hv
  obtain ⟨⟨rfl, htype⟩, hdefault⟩ := hv
  refine takes_decoder rfl (by decide)
    (.seq (.seq (.seq (.seq (.seq (.seq (.seq (.map _ ?_) ?_) ?_) ?_) ?_) ?_) ?_) ?_) rfl
  · exact takes_member rfl (takes_text _)
  · exact takes_member rfl (takes_id _)
  · exact takes_member rfl (takes_text? _)
  · exact takes_member rfl (takes_flag _)
  · exact takes_member rfl (takes_text? _)
  · exact takes_member rfl (takes_fieldType htype)
  · exact takes_member rfl (takes_default hdefault)
  · exact takes_member rfl (takes_text? _)

theorem takes_resolverMethod (m : ResolverMethod) :
    resolverMethod.Takes (Encode.resolverMethod m) m := by
  refine takes_decoder rfl (by decide) (.seq (.map _ ?_) ?_) rfl
  · exact takes_member rfl (takes_text _)
  · exact takes_member rfl (takes_text _)

theorem takes_resolverMethod? (m : Option ResolverMethod) :
    (orNull resolverMethod).Takes (Encode.orNull Encode.resolverMethod m) m :=
  takes_orNull nofun fun m _ => takes_resolverMethod m

theorem takes_fieldType? {ty : Option FieldType} (hty : ty.all (·.hookFree) = true) :
    (orNull fieldType).Takes (Encode.orNull Encode.fieldType ty) ty :=
  takes_orNull Encode.fieldType_ne_null fun a ha => takes_fieldType (by simpa [ha] using hty)

theorem takes_outputVariant {v : OutputVariant} (hv : v.hookFree = true) :
    outputVariant.Takes (Encode.outputVariant v) v := by
  obtain ⟨name, n, aliasName, deprecated, doc, type, method, param, fileName, hooks⟩ := v
  simp only [OutputVariant.hookFree, Bool.and_eq_true, Hooks.absent_iff] at hv
  obtain ⟨⟨rfl, htype⟩, hparam⟩ := hv
  refine takes_decoder rfl (by decide)
    (.seq (.seq (.seq (.seq (.seq (.seq (.seq (.seq (.map _ ?_) ?_) ?_) ?_) ?_) ?_) ?_) ?_) ?_) rfl
  · exact takes_member rfl (takes_text _)
  · exact takes_member rfl (takes_id _)
  · exact takes_member rfl (takes_text? _)
  · exact takes_member rfl (takes_flag _)
  · exact takes_member rfl (takes_text? _)
  · exact takes_member rfl (takes_fieldType htype)
  · exact takes_member rfl (takes_resolverMethod? _)
  · exact takes_member rfl (takes_fieldType? hparam)
  · exact takes_member rfl (takes_text? _)

theorem takes_field {f : Field} (hf : f.plain = true) :
    field.Takes (.obj (Encode.fieldMembers f)) f := by
  obtain ⟨hinput, houtput⟩ := Bool.and_eq_true_iff.mp hf
  refine takes_decoder rfl (by decide) (.seq (.seq (.seq (.seq (.map _ ?_) ?_) ?_) ?_) ?_) rfl
  · exact takes_member rfl (takes_text _)
  · exact takes_member rfl (takes_index _)
  · exact takes_member rfl (takes_text _)
  · exact takes_member rfl <| takes_orNull nofun fun v hv =>
      takes_inputVariant (by simpa [hv] using hinput)
  · exact takes_member rfl <| takes_orNull nofun fun v hv =>
      takes_outputVariant (by simpa [hv] using houtput)

theorem takes_visibleField (v : VisibleField) :
    visibleField.Takes (Encode.visibleField v) v := by
  refine takes_decoder rfl (by decide) (.seq (.seq (.map _ ?_) ?_) ?_) rfl
  · exact takes_member rfl (takes_text? _)
  · exact takes_member rfl (takes_index _)
  · exact takes_member rfl (takes_flag _)

theorem takes_texts? (l : Option (List String)) :
    (orNull (sequence text)).Takes (Encode.orNull Encode.texts l) l :=
  takes_orNull nofun fun _ _ => takes_sequence fun s _ => takes_text s

theorem takes_object {o : Object} (ho : o.plain = true) :
    object.Takes (.obj (Encode.objectMembers o)) o := by
  refine takes_decoder rfl (by decide)
    (.seq (.seq (.seq (.seq (.seq (.seq (.seq (.seq (.seq (.map _ ?_) ?_) ?_) ?_) ?_) ?_) ?_) ?_)
      ?_) ?_) rfl
  · exact takes_member rfl (takes_text _)
  · exact takes_member rfl (takes_text? _)
  · exact takes_member rfl (takes_id _)
  · exact takes_member rfl (takes_flag _)
  · exact takes_member rfl (takes_text? _)
  · exact takes_member rfl (takes_text? _)
  · exact takes_member rfl (takes_texts? _)
  · exact takes_member rfl (takes_texts? _)
  · exact takes_member rfl (takes_dict fun p hp => takes_field (List.all_eq_true.mp ho p hp))
  · exact takes_member rfl (takes_dict fun p _ => takes_visibleField p.2)

/-! ### Nodes and graphs -/

theorem takes_node {n : Node} (hn : n.plain = true) : node.Takes (Encode.node n) n := by
  cases n with
  | scalar s => exact Tagged.takes_decoder rfl rfl (takes_map _ (takes_scalar s))
  | enumeration e => exact Tagged.takes_decoder rfl rfl (takes_map _ (takes_enumeration hn))
  | union u => exact Tagged.takes_decoder rfl rfl (takes_map _ (takes_union hn))
  | object o => exact Tagged.takes_decoder rfl rfl (takes_map _ (takes_object hn))
  | list element hooks =>
    rw [Node.plain, Bool.and_eq_true, Hooks.absent_iff] at hn
    obtain ⟨rfl, helement⟩ := hn
    exact Tagged.takes_decoder rfl rfl (takes_listWith (takes_fieldType helement))
  | reference r => exact Tagged.takes_decoder rfl rfl (takes_map _ (takes_reference hn))
  | field f => exact Tagged.takes_decoder rfl rfl (takes_map _ (takes_field hn))

theorem takes_entities {g : Graph} (hg : g.plain = true) :
    entities.Takes (Encode.dict Encode.node g.entities) g := by
  have hdeclare (acc : Graph) (name : String) (n : Node)
      (hnew : name ∉ Assoc.keys acc.entities.entries) :
      ∃ acc', declare acc name n = .ok acc' ∧
        acc'.entities.entries = acc.entities.entries ++ [(name, n)] := by
    have hfree : ¬ acc.contains name = true := fun h => hnew (Dict.contains_iff.mp h)
    refine ⟨_, ?_, Dict.entries_insert_of_not_mem n hnew⟩
    rw [declare, Graph.insert_eq, if_neg hfree]
    rfl
  have hnodup : (Assoc.keys (Graph.empty.entities.entries ++ g.entities.entries)).Nodup :=
    g.entities.nodup
  obtain ⟨g', hfold, hentries⟩ := foldlM_of_nodup hdeclare hnodup
  have hg' : g' = g := congrArg Graph.mk (Dict.ext hentries)
  rw [hg'] at hfold
  exact takes_gather (fun p hp => takes_node (List.all_eq_true.mp hg p hp)) hfold

theorem takes_graph {g : Graph} (hg : g.plain = true) : graph.Takes (Encode.graph g) g :=
  takes_decoder rfl (by decide) (takes_member rfl (takes_entities hg)) rfl

/-! ### Schemas -/

theorem takes_objectSchema {F : Type} {name : String} {field : Decoder F} {encode : F → Json}
    {o : ObjectSchema F} (h : ∀ f ∈ o.fields, field.Takes (encode f) f) :
    (objectSchema name field).Takes (.obj (Encode.objectSchemaMembers encode o)) o := by
  have hnodup : List.Nodup ["name", "escaped_name", "id", "deprecated", "doc", "fields"] := by
    decide
  refine takes_decoder rfl hnodup (.seq (.seq (.seq (.seq (.seq (.map _ ?_) ?_) ?_) ?_) ?_) ?_) rfl
  · exact takes_member rfl (takes_text _)
  · exact takes_member rfl (takes_text _)
  · exact takes_member rfl (takes_id _)
  · exact takes_member rfl (takes_flag _)
  · exact takes_member rfl (takes_text? _)
  · exact takes_member rfl (takes_sequence h)

theorem takes_inputField {f : InputField} (hf : f.plain = true) :
    inputField.Takes (Encode.inputField f) f := by
  obtain ⟨name, targetName, aliasName, n, deprecated, required, doc, defaultValue, type, hooks⟩ := f
  simp only [InputField.plain, InputField.hookFree, Bool.and_eq_true, Hooks.absent_iff] at hf
  obtain ⟨⟨rfl, htype⟩, hdefault⟩ := hf
  refine takes_decoder rfl (by decide)
    (.seq (.seq (.seq (.seq (.seq (.seq (.seq (.seq (.map _ ?_) ?_) ?_) ?_) ?_) ?_) ?_) ?_) ?_) rfl
  · exact takes_member rfl (takes_text _)
  · exact takes_member rfl (takes_text _)
  · exact takes_member rfl (takes_text? _)
  · exact takes_member rfl (takes_id _)
  · exact takes_member rfl (takes_flag _)
  · exact takes_member rfl (takes_flag _)
  · exact takes_member rfl (takes_text? _)
  · exact takes_member rfl (takes_default hdefault)
  · exact takes_member rfl (takes_fieldType htype)

theorem takes_outputField {f : OutputField} (hf : f.plain = true) :
    outputField.Takes (Encode.outputField f) f := by
  obtain ⟨name, targetName, aliasName, n, deprecated, required, doc, method, param, type, hooks⟩ :=
    f
  simp only [OutputField.plain, Bool.and_eq_true, Hooks.absent_iff] at hf
  obtain ⟨⟨rfl, htype⟩, hparam⟩ := hf
  refine takes_decoder rfl (by decide)
    (.seq (.seq (.seq (.seq (.seq (.seq (.seq (.seq (.seq (.map _ ?_) ?_) ?_) ?_) ?_) ?_) ?_) ?_)
      ?_) ?_) rfl
  · exact takes_member rfl (takes_text _)
  · exact takes_member rfl (takes_text _)
  · exact takes_member rfl (takes_text? _)
  · exact takes_member rfl (takes_id _)
  · exact takes_member rfl (takes_flag _)
  · exact takes_member rfl (takes_flag _)
  · exact takes_member rfl (takes_text? _)
  · exact takes_member rfl (takes_resolverMethod? _)
  · exact takes_member rfl (takes_fieldType? hparam)
  · exact takes_member rfl (takes_fieldType htype)

section

variable {F : Type} {plain : F → Bool} {field : Decoder F} {encode : F → Json}

theorem takes_schemaNode {kind name : String}
    (hfield : ∀ {f}, plain f = true → field.Takes (encode f) f) {n : SchemaNode F}
    (hn : n.plain plain = true) :
    (schemaNode kind (objectSchema name field)).Takes (Encode.schemaNode encode n) n := by
  cases n with
  | scalar s => exact Tagged.takes_decoder rfl rfl (takes_map _ (takes_scalar s))
  | enumeration e => exact Tagged.takes_decoder rfl rfl (takes_map _ (takes_enumeration hn))
  | union u => exact Tagged.takes_decoder rfl rfl (takes_map _ (takes_union hn))
  | object o =>
    have ho : (objectSchema name field).Takes _ o :=
      takes_objectSchema fun f hf => hfield (List.all_eq_true.mp hn f hf)
    exact Tagged.takes_decoder rfl rfl (takes_map _ ho)

theorem takes_schema {kind name : String}
    (hfield : ∀ {f}, plain f = true → field.Takes (encode f) f) {s : Schema F}
    (hs : s.plain plain = true) :
    (dict (schemaNode kind (objectSchema name field))).Takes
      (Encode.dict (Encode.schemaNode encode) s) s :=
  takes_dict fun p hp => takes_schemaNode hfield (List.all_eq_true.mp hs p hp)

end

theorem takes_inputSchema {s : InputSchema} (hs : s.plain InputField.plain = true) :
    inputSchema.Takes (Encode.inputSchema s) s := takes_schema takes_inputField hs

theorem takes_outputSchema {s : OutputSchema} (hs : s.plain OutputField.plain = true) :
    outputSchema.Takes (Encode.outputSchema s) s := takes_schema takes_outputField hs

/-! ### Texts -/

/-- **Reading what has been written.**  Brackets may be nested 127 deep. -/
theorem Takes.read_render {α : Type} {decode : Decoder α} {v : Json} {a : α}
    (h : decode.Takes v a) (hdepth : v.depth ≤ 127) (pretty : Bool) :
    decode.read (Command.render pretty v) = .ok a := by
  have hdraft : Draft.ofText (Command.render pretty v) = ⟨v.draft, false⟩ := by
    cases pretty with
    | true => exact Draft.ofText_text Json.Layout.blank_pretty h.whole
    | false => exact Draft.ofText_text Json.Layout.blank_compact h.whole
  rw [Decoder.read, hdraft]
  show decode .document v.draft >>= _ = _
  rw [h.reads .document hdepth]
  rfl

end Decoder

end EntityGraph
