import EntityGraph.Proofs.Arranged
import EntityGraph.Proofs.HookFree
import EntityGraph.Proofs.Independence

/-!
# Nothing that is accepted is lost

What a field makes of a payload is stored under the field's target name, and a later field of the
same target name would overwrite it.  No object of the input schema has two fields of one target
name, if the graph keeps each declared field under its own name (`Object.Keyed`): then the target
name of a resolved field is the key that the object exposes it under, be the field its own,
inherited or that of an instantiation, and no key is exposed twice.

So the members of a result are those of the fields that have been sent, one for each and in their
order, and each is what the field comes to alone:

    members = (o.fields.filter (·.isSent payload)).map (its target name, its own value)
                                                                  (Validator.members_of_done)
-/

namespace EntityGraph

open Normalize

/-! ## Algorithm -/

/-- Each declared field stands under its own name. -/
def Object.Keyed (o : Object) : Prop := ∀ p ∈ o.fields.entries, p.2.name = p.1

instance (o : Object) : Decidable o.Keyed :=
  inferInstanceAs (Decidable (∀ p ∈ o.fields.entries, p.2.name = p.1))

/-- Whether the payload holds anything but null for the field. -/
def InputField.isSent (f : InputField) (payload : Json) : Bool :=
  match payload.member? f.name with
  | none | some .null => false
  | some _ => true

/-! ## Lemmas -/

/-! ### Fields under their own names -/

namespace Object

variable {o t : Object} {key : String} {field : Field}

theorem Keyed.name_eq (ho : o.Keyed) (hf : o.fields.find? key = some field) : field.name = key :=
  ho (key, field) (Dict.find?_eq_some_iff.mp hf)

theorem keyed_named (name : String) : (named name).Keyed := by
  intro p hp
  cases hp

theorem Keyed.withField (ho : o.Keyed) (field : Field) (optional : Bool) :
    (o.withField field optional).Keyed := by
  intro p hp
  rcases Assoc.mem_insert o.fields.nodup hp with rfl | ⟨hp, -⟩
  · rfl
  · exact ho p hp

theorem Keyed.instanceOf (ht : t.Keyed) (r : Reference) (escaped : String) :
    (t.instanceOf r escaped).Keyed := by
  intro p hp
  obtain ⟨q, hq, rfl⟩ := List.mem_map.mp hp
  exact ht q hq

end Object

/-! ### Target names -/

/-- A field that is settled keeps the name that it is exposed under. -/
theorem Resolution.Settles.name_eq {lookup : String → Option Node} {o : Object} {key : String}
    {v : VisibleField} {f : ResolvedField} (ho : o.Keyed)
    (hlookup : ∀ name owner, lookup name = some (.object owner) → owner.Keyed)
    (h : Settles lookup o key v (.ok f)) : f.field.name = f.key := by
  cases h with
  | own hfield => exact ho.name_eq hfield
  | inherited _ _ _ howner hfield => exact (hlookup _ _ howner).name_eq hfield

theorem Side.targetNames_sublist (fields : List ResolvedField) :
    ((fields.filterMap Side.input.shown).map (·.targetName)).Sublist
      (fields.map (·.field.name)) := by
  induction fields with
  | nil => exact .slnil
  | cons f rest ih =>
    cases hf : Side.input.shown f with
    | none =>
      rw [List.filterMap_cons_none hf]
      exact ih.cons f.field.name
    | some e =>
      have hname : e.targetName = f.field.name := by
        obtain ⟨v, -, rfl⟩ := Option.map_eq_some_iff.mp hf
        rfl
      rw [List.filterMap_cons_some hf, List.map_cons, List.map_cons, hname]
      exact ih.cons_cons f.field.name

namespace Normalize

variable {g : Graph} {h : List Visit} {st : State} {name : String} {o : Object}

/-- All objects that a run knows of keep their fields under their own names. -/
theorem keyed_lookup (hg : g.AllObjects Object.Keyed) (hrun : Run g h st)
    (ho : lookup g st name = some (.object o)) : o.Keyed := by
  have hinstances := forall_instances (Q := fun _ => True) hg (fun _ _ _ _ _ _ => trivial)
    (fun _ r escaped ht _ => ht.instanceOf r escaped) hrun
  exact forall_lookup hg hinstances ho

/-- **Target names are distinct** in every object of the input schema. -/
theorem nodup_targetNames (hg : g.AllObjects Object.Keyed) (hrun : Run g h st) {x : InputObject}
    (hx : st.result.input.find? name = some (.object x)) :
    (x.fields.map (·.targetName)).Nodup := by
  have hc := hrun.consistent
  obtain ⟨v, hv, -, o, resolved, reports, hnode, -, hres, hside⟩ :=
    (Side.find?_object_iff (s := .input) hc).mp hx
  have hown : o.Keyed := by
    rcases mem_worklist_iff.mp (hc.mem_worklist hv) with ⟨p, hp, hentry⟩ | ⟨p, hp, hentry⟩
    · rw [← hentry] at hnode
      have hobject := hg p hp
      rwa [show p.2 = .object o from hnode] at hobject
    · rw [← hentry] at hnode
      cases hnode
      have hmade : lookup g st p.1 = some (.object p.2.object) := by
        rw [lookup, Graph.find?_eq_none (hc.free p hp), Dict.find?_eq_some_iff.mpr hp]
        rfl
      exact keyed_lookup hg hrun hmade
  obtain ⟨outcomes, hall, rfl, -⟩ := Resolution.resolveAll_ok_iff.mp hres
  have hnames : ∀ f ∈ FieldOrder.arrange o (outcomes.filterMap Resolution.settled?),
      f.field.name = f.key := by
    intro f hf
    obtain ⟨p, -, hf⟩ :=
      (Resolution.mem_settled_iff hall).mp ((FieldOrder.arrange_perm o _).mem_iff.mp hf)
    exact hf.name_eq hown fun _ _ => keyed_lookup hg hrun
  have hkeys : ((outcomes.filterMap Resolution.settled?).map (·.key)).Nodup :=
    (Resolution.keys_settled hall).nodup o.visibleFields.nodup
  rw [Object.fields_of_side? hside]
  refine (Side.targetNames_sublist _).nodup ?_
  rw [List.map_congr_left hnames]
  exact (((FieldOrder.arrange_perm o _).map _).nodup_iff).mpr hkeys

end Normalize

/-! ### Members of a result -/

theorem InputField.isSent_iff {f : InputField} {payload : Json} :
    f.isSent payload = true ↔ ∃ raw, f.Sent payload raw := by
  unfold isSent Sent
  cases payload.member? f.name with
  | none => simp
  | some raw => cases raw <;> simp

namespace Validator

variable {v : Validator} {levels : Nat} {o : InputObject} {f : InputField}
  {sent : List (String × Json)} {payload raw w : Json} {context : Option Json}

/-- What an object is done with that has one field alone. -/
theorem answers_alone (h : (v.alone levels o (.obj sent) context f).outcome = .done w) :
    ∃ below made, w = .obj made ∧
      (Validate.field (Validate.value v.schema (Validate.object v.schema context below) context)
        context (.obj sent) (.root o.escapedName) f []).Answers made := by
  have hanswers := Run.answers_of_verdict h
  obtain ⟨below, -, -, rfl, -, -, -⟩ := Validate.answers_object hanswers
  rw [Validate.object] at hanswers
  obtain ⟨made, hmade, hw⟩ := Run.answers_bind hanswers
  rw [Run.answers_pure_iff] at hw
  refine ⟨below, made, hw, ?_⟩
  rw [InputObject.only, List.foldlM_cons] at hmade
  obtain ⟨single, hsingle, hmade⟩ := Run.answers_bind hmade
  rw [List.foldlM_nil, Run.answers_pure_iff] at hmade
  rwa [hmade]

theorem alone_of_sent (hsent : f.Sent (.obj sent) raw)
    (h : (v.alone levels o (.obj sent) context f).outcome = .done w) :
    ∃ x, w = .obj [(f.targetName, x)] := by
  obtain ⟨below, made, rfl, hmade⟩ := answers_alone h
  rw [Validate.field_of_sent hsent] at hmade
  obtain ⟨y, -, hmade⟩ := Run.answers_bind hmade
  obtain ⟨x, -, hmade⟩ := Run.answers_bind hmade
  rw [Run.answers_pure_iff] at hmade
  exact ⟨x, by rw [hmade]; rfl⟩

theorem alone_of_not_sent (hno : ∀ raw, ¬ f.Sent (.obj sent) raw)
    (h : (v.alone levels o (.obj sent) context f).outcome = .done w) : w = .obj [] := by
  obtain ⟨below, made, rfl, hmade⟩ := answers_alone h
  rw [Validate.field_of_not_sent hno, Run.answers_pure_iff] at hmade
  rw [hmade]

/-- Members that are given one for each field that is sent. -/
theorem forall₂_members {given : InputField → List (String × Json)}
    {R : InputField → String × Json → Prop} {fields : List InputField}
    (hsent : ∀ f ∈ fields, f.isSent payload = true → ∃ p, given f = [p] ∧ R f p)
    (hno : ∀ f ∈ fields, f.isSent payload = false → given f = []) :
    List.Forall₂ R (fields.filter (·.isSent payload)) (fields.flatMap given) := by
  induction fields with
  | nil => exact .nil
  | cons f rest ih =>
    have hrest := ih (fun e he => hsent e (List.mem_cons_of_mem _ he))
      fun e he => hno e (List.mem_cons_of_mem _ he)
    rw [List.flatMap_cons]
    by_cases hf : f.isSent payload = true
    · obtain ⟨p, hgiven, hp⟩ := hsent f List.mem_cons_self hf
      rw [List.filter_cons, if_pos hf, hgiven]
      exact .cons hp hrest
    · rw [List.filter_cons, if_neg hf, hno f List.mem_cons_self (by simpa using hf)]
      exact hrest

/-- If all target names are distinct, there is one member for each field that has been sent, and it
is the one that the field gives alone. -/
theorem members_of_done (hnodup : (o.fields.map (·.targetName)).Nodup)
    (hw : (v.validateWithin levels o payload context).outcome = .done w) :
    ∃ members, w = .obj members ∧
      List.Forall₂ (fun f p => p.1 = f.targetName ∧
          (v.alone levels o payload context f).outcome = .done (.obj [p]))
        (o.fields.filter (·.isSent payload)) members := by
  obtain ⟨below, sent, -, hlevels, rfl, -, -⟩ := Validate.answers_object (Run.answers_of_verdict hw)
  have hpos : 0 < levels := hlevels ▸ Nat.zero_lt_succ below
  obtain ⟨c, h⟩ := exists_inTurn v hpos o sent context
  obtain ⟨⟨hall, rfl⟩, -⟩ := (h.done_iff o.fields).mp hw
  have halone : ∀ f ∈ o.fields,
      (v.alone levels o (.obj sent) context f).outcome = .done (.obj (c f).given) := by
    intro f hf
    obtain ⟨hresult, hfits⟩ := h.of_done hw f hf
    exact h.alone_done_iff.mpr ⟨⟨_, hresult, rfl⟩, hfits⟩
  refine ⟨_, by rw [h.insertAll_given hall hnodup], forall₂_members ?sent ?no⟩
  case sent =>
    intro f hf hsent
    obtain ⟨raw, hraw⟩ := InputField.isSent_iff.mp hsent
    obtain ⟨x, hx⟩ := alone_of_sent hraw (halone f hf)
    have hgiven : (c f).given = [(f.targetName, x)] := Json.obj.inj hx
    refine ⟨_, hgiven, rfl, ?_⟩
    rw [halone f hf, hgiven]
  case no =>
    intro f hf hno
    have hnothing : ∀ raw, ¬ f.Sent (.obj sent) raw := by
      intro raw hraw
      rw [InputField.isSent_iff.mpr ⟨raw, hraw⟩] at hno
      cases hno
    exact Json.obj.inj (alone_of_not_sent hnothing (halone f hf))

end Validator

namespace Graph

/-- **Nothing that is accepted is lost.**  If each declared field stands under its own name, the
fields of every object of the input schema have distinct target names; and a result, with however
many levels it is reached, has one member for each field that has been sent, in the order of the
fields, which is what the field comes to alone. -/
theorem normalize_keeps_members {g : Graph} {n : Normalized} (hg : g.AllObjects Object.Keyed)
    (hn : g.normalize = .ok n) {name : String} {x : InputObject}
    (hx : n.input.find? name = some (.object x)) :
    (x.fields.map (·.targetName)).Nodup ∧
    ∀ limit levels payload context w,
      (Validator.validateWithin ⟨n.input, limit⟩ levels x payload context).outcome = .done w →
      ∃ members, w = .obj members ∧
        List.Forall₂ (fun f p => p.1 = f.targetName ∧
            (Validator.alone ⟨n.input, limit⟩ levels x payload context f).outcome =
              .done (.obj [p]))
          (x.fields.filter (·.isSent payload)) members := by
  obtain ⟨h, st, hrun, -, rfl⟩ := normalize_ok hn
  have hnodup := nodup_targetNames hg hrun hx
  exact ⟨hnodup, fun limit levels payload context w hw => Validator.members_of_done hnodup hw⟩

/-- A template of which callers send the items as `id` and the inherited `id` as `key`.  The items
are replaced by the whole payload. -/
def keyedPages : Graph :=
  let text : FieldType := .named "Text" none
  let sentAs (name : String) (hooks : Hooks) (f : Field) : Field :=
    { f with input := f.input.map fun v => { v with name, hooks } }
  let id := sentAs "key" .none (.both "Base" "id" 1 text)
  let items := sentAs "id" ⟨none, some (.parent (.str "whole"))⟩
    (.both "Page" "items" 0 (.list (.named "T" none) .none))
  let page := ((Object.named "Page").withField items false).withInheritedField "Base" "id" 1 false
  let user := (Object.named "User").withField
    (.both "User" "page" 0 (.generic "Page" [text] none)) false
  ⟨⟨[("Text", .scalar ⟨"Text", none⟩),
    ("Base", .object ((Object.named "Base").withField id false)),
    ("Page", .object { page with inherit := some ["Base"], generics := some ["T"] }),
    ("User", .object user)], by decide⟩⟩

/-- What callers may send of a page of texts. -/
def keyedPageInput : InputObject :=
  ⟨"Page<Text>", "Page_Text", 0, false, some "@Generic Page<Text>",
    [⟨"key", "id", none, 0, false, true, some "@inherit-from Base.id", none, .named "Text" none,
        .none⟩,
      ⟨"id", "items", none, 0, false, true, none, none, .list (.named "Text" none) .none,
        ⟨none, some (.parent (.str "whole"))⟩⟩]⟩

theorem normalize_keeps_members_keyedPages :
    let payload : Json := .obj [("id", .str ""), ("other", .null), ("key", .bool true)]
    let members := [("id", .bool true), ("items", .arr [payload])]
    ∃ n, keyedPages.AllObjects Object.Keyed ∧ keyedPages.normalize = .ok n ∧
      n.input.find? "Page_Text" = some (.object keyedPageInput) ∧
      (Validator.validate ⟨n.input, none⟩ keyedPageInput payload none).outcome =
        .done (.obj members) ∧
      (keyedPageInput.fields.map (·.targetName)).Nodup ∧
      List.Forall₂ (fun f p => p.1 = f.targetName ∧
          (Validator.alone ⟨n.input, none⟩ (payload.depth + hookLevels) keyedPageInput payload none
            f).outcome = .done (.obj [p]))
        (keyedPageInput.fields.filter (·.isSent payload)) members := by
  intro payload members
  have hkeyed : keyedPages.AllObjects Object.Keyed := by
    refine List.forall_mem_cons.mpr ⟨trivial, List.forall_mem_cons.mpr ⟨?base,
      List.forall_mem_cons.mpr ⟨?page, List.forall_mem_singleton.mpr ?user⟩⟩⟩
    case base => exact (Object.keyed_named "Base").withField _ false
    case page => exact (Object.keyed_named "Page").withField _ false
    case user => exact (Object.keyed_named "User").withField _ false
  obtain ⟨n, hn, hx, hw⟩ : ∃ n, keyedPages.normalize = .ok n ∧
      n.input.find? "Page_Text" = some (.object keyedPageInput) ∧
      (Validator.validate ⟨n.input, none⟩ keyedPageInput payload none).outcome =
        .done (.obj members) := ⟨_, rfl, rfl, rfl⟩
  obtain ⟨hnodup, hmembers⟩ := normalize_keeps_members hkeyed hn hx
  obtain ⟨made, hmade, hall⟩ := hmembers none _ payload none _ hw
  rw [← Json.obj.inj hmade] at hall
  exact ⟨n, hkeyed, hn, hx, hw, hnodup, hall⟩

end Graph

end EntityGraph
