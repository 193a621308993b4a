import EntityGraph.Proofs.Sides
import Mathlib.Data.List.Nodup

/-!
# What becomes of visible fields

Each visible field of an object is settled in one of three ways: the object declares it, or the
first of the ancestors searched that declares it provides it, or it is reported.

    resolve lookup o key v = .ok x ↔ Settles lookup o key v x                 (resolve_ok_iff)

The look at the time of the visit and the look at the result agree, so this is told by the result of
a normalization alone.  Nothing is lost of what is settled: each schema copies the declarations that
have a variant on its side, one field for each, and the diagnostics are the reports, entry by entry
and in the order of the visible fields.
-/

namespace EntityGraph

open Normalize

/-! ## Algorithm -/

namespace Resolution

/-- The names are those of objects that do not declare `key`. -/
def Silent (lookup : String → Option Node) (key : String) (names : List String) : Prop :=
  ∀ a ∈ names, ∃ other, lookup a = some (.object other) ∧ other.fields.find? key = none

/-- What a visible field comes to: a declaration with the ancestor that provides it, or a report
that names all that has been searched. -/
inductive Settles (lookup : String → Option Node) (o : Object) (key : String) (v : VisibleField) :
    Except Diagnostic ResolvedField → Prop
  | own {field : Field} : o.fields.find? key = some field →
      Settles lookup o key v (.ok ⟨key, field, !v.optional, none⟩)
  | inherited {passed later : List String} {name : String} {owner : Object} {field : Field} :
      o.fields.find? key = none →
      (v.origin.toList ++ o.ancestors).eraseDups = passed ++ name :: later →
      Silent lookup key passed → lookup name = some (.object owner) →
      owner.fields.find? key = some field →
      Settles lookup o key v (.ok ⟨key, field, !v.optional, some owner.name⟩)
  | unresolved : o.fields.find? key = none →
      Silent lookup key (v.origin.toList ++ o.ancestors).eraseDups →
      Settles lookup o key v
        (.error (.unresolvedField o.name key (v.origin.toList ++ o.ancestors).eraseDups o.location))

/-- The declaration, unless there is a report. -/
def settled? : Except Diagnostic ResolvedField → Option ResolvedField
  | .ok f => some f
  | .error _ => none

def report? : Except Diagnostic ResolvedField → Option Diagnostic
  | .ok _ => none
  | .error d => some d

end Resolution

/-- The documentation is the declared one, with a last line on the ancestor if there is one. -/
def ResolvedField.Annotates (f : ResolvedField) (own doc : Option String) : Prop :=
  match f.ancestor with
  | none => doc = own
  | some ancestor => doc ≠ own ∧
      doc = some (own.elim "" (· ++ "\n") ++ "@inherit-from " ++ ancestor ++ "." ++ f.key)

/-- A field of the input schema says what the declaration says of its input variant. -/
structure InputField.Copies (e : InputField) (f : ResolvedField) (v : InputVariant) : Prop where
  variant : f.field.input = some v
  name : e.name = v.name
  targetName : e.targetName = f.field.name
  aliasName : e.aliasName = v.aliasName
  id : e.id = v.id
  deprecated : e.deprecated = v.deprecated
  required : e.required = f.required
  doc : f.Annotates v.doc e.doc
  defaultValue : e.defaultValue = v.defaultValue
  type : e.type = v.type.concrete
  hooks : e.hooks = v.hooks

/-- A field of the output schema says what the declaration says of its output variant. -/
structure OutputField.Copies (e : OutputField) (f : ResolvedField) (v : OutputVariant) : Prop where
  variant : f.field.output = some v
  name : e.name = v.name
  targetName : e.targetName = f.field.name
  aliasName : e.aliasName = v.aliasName
  id : e.id = v.id
  deprecated : e.deprecated = v.deprecated
  required : e.required = f.required
  doc : f.Annotates v.doc e.doc
  method : e.method = v.method
  param : e.param = v.param.map (·.concrete)
  type : e.type = v.type.concrete
  hooks : e.hooks = v.hooks

namespace Side

def Copies : (s : Side) → ResolvedField → s.SchemaField → Prop
  | input, f, e => ∃ v, InputField.Copies e f v
  | output, f, e => ∃ v, OutputField.Copies e f v

/-- Those of the fields that have a variant on this side. -/
def select (s : Side) (fields : List ResolvedField) : List ResolvedField :=
  fields.filter fun f => s.declared f.field

/-- The fields that a schema has under a name, none if there is no object. -/
def fieldsOf (s : Side) (n : Normalized) (name : String) : List s.SchemaField :=
  (((s.schema n).find? name).bind (·.object?)).elim [] (·.fields)

end Side

/-- What a normalization makes of an entry: the outcomes of the visible fields of an object are all
that the two schemas show of it and all that is reported. -/
inductive Normalized.Settled (g : Graph) (n : Normalized) :
    String × Node → List Diagnostic → Prop
  | object {name : String} {o : Object} {outcomes : List (Except Diagnostic ResolvedField)} :
      o.isTemplate = false →
      List.Forall₂ (fun p x => Resolution.Settles (n.lookup g) o p.1 p.2 x)
        o.visibleFields.entries outcomes →
      (∀ s : Side, ∃ shown, shown.Perm (s.select (outcomes.filterMap Resolution.settled?)) ∧
        List.Forall₂ s.Copies shown (s.fieldsOf n name)) →
      Normalized.Settled g n (name, .object o) (outcomes.filterMap Resolution.report?)
  | template {name : String} {o : Object} : o.isTemplate = true →
      Normalized.Settled g n (name, .object o) []
  | other {name : String} {node : Node} : node.object? = none →
      Normalized.Settled g n (name, node) []

/-! ## Lemmas -/

namespace Resolution

variable {lookup : String → Option Node} {o : Object} {key : String} {v : VisibleField}
  {x : Except Diagnostic ResolvedField}

/-! ### One visible field -/

theorem silent_cons_iff {name : String} {names : List String} :
    Silent lookup key (name :: names) ↔
      (∃ other, lookup name = some (.object other) ∧ other.fields.find? key = none) ∧
        Silent lookup key names := List.forall_mem_cons

theorem search_none_iff {names : List String} :
    search lookup o key names = .ok none ↔ Silent lookup key names := by
  induction names with
  | nil => exact iff_of_true rfl (by simp [Silent])
  | cons name rest ih =>
    rw [silent_cons_iff]
    constructor
    · intro h
      obtain ⟨owner, hl⟩ := object_of_search h
      cases hf : owner.fields.find? key with
      | some field =>
        rw [search_cons_declared hl hf] at h
        cases h
      | none =>
        rw [search_cons_undeclared hl hf] at h
        exact ⟨⟨owner, hl, hf⟩, ih.mp h⟩
    · rintro ⟨⟨owner, hl, hf⟩, hrest⟩
      rw [search_cons_undeclared hl hf]
      exact ih.mpr hrest

theorem search_some_iff {names : List String} {field : Field} {ancestor : String} :
    search lookup o key names = .ok (some (field, ancestor)) ↔
      ∃ passed name later owner, names = passed ++ name :: later ∧ Silent lookup key passed ∧
        lookup name = some (.object owner) ∧ owner.fields.find? key = some field ∧
        owner.name = ancestor := by
  constructor
  · intro h
    induction names with
    | nil => cases h
    | cons name rest ih =>
      obtain ⟨owner, hl⟩ := object_of_search h
      cases hf : owner.fields.find? key with
      | some f =>
        rw [search_cons_declared hl hf] at h
        cases h
        exact ⟨[], name, rest, owner, rfl, by simp [Silent], hl, hf, rfl⟩
      | none =>
        rw [search_cons_undeclared hl hf] at h
        obtain ⟨passed, a, later, owner', hrest, hpassed, hfound⟩ := ih h
        refine ⟨name :: passed, a, later, owner', by rw [hrest]; rfl, ?_, hfound⟩
        exact silent_cons_iff.mpr ⟨⟨owner, hl, hf⟩, hpassed⟩
  · rintro ⟨passed, name, later, owner, rfl, hpassed, hl, hf, rfl⟩
    induction passed with
    | nil => exact search_cons_declared hl hf later
    | cons a passed ih =>
      obtain ⟨⟨other, hl', hf'⟩, hpassed⟩ := silent_cons_iff.mp hpassed
      rw [List.cons_append, search_cons_undeclared hl' hf']
      exact ih hpassed

/-- **What resolution finds is how the field is settled.** -/
theorem resolve_ok_iff : resolve lookup o key v = .ok x ↔ Settles lookup o key v x := by
  unfold resolve
  cases hf : o.fields.find? key with
  | some field =>
    constructor
    · intro h
      cases h
      exact .own hf
    · rintro (hown | ⟨hnone, -⟩ | hnone)
      · rw [hf] at hown
        cases hown
        rfl
      · rw [hf] at hnone
        cases hnone
      · rw [hf] at hnone
        cases hnone
  | none =>
    simp only [searchOrder]
    rw [Except.bind_eq_ok_iff]
    constructor
    · rintro ⟨found, hfound, h⟩
      cases found with
      | none =>
        cases h
        exact .unresolved hf (search_none_iff.mp hfound)
      | some p =>
        cases h
        obtain ⟨passed, name, later, owner, horder, hpassed, hl, hfield, hname⟩ :=
          search_some_iff.mp hfound
        rw [← hname]
        exact .inherited hf horder hpassed hl hfield
    · rintro (hown | ⟨-, horder, hpassed, hl, hfield⟩ | ⟨-, hsilent⟩)
      · rw [hf] at hown
        cases hown
      · exact ⟨_, search_some_iff.mpr ⟨_, _, _, _, horder, hpassed, hl, hfield, rfl⟩, rfl⟩
      · exact ⟨none, search_none_iff.mpr hsilent, rfl⟩

/-! ### All visible fields -/

/-- Resolution has an outcome for every visible field, and keeps all of them. -/
theorem resolveAll_ok_iff {vs : List (String × VisibleField)} {fields : List ResolvedField}
    {reports : List Diagnostic} : resolveAll lookup o vs = .ok (fields, reports) ↔
      ∃ outcomes, List.Forall₂ (fun p x => Settles lookup o p.1 p.2 x) vs outcomes ∧
        fields = outcomes.filterMap settled? ∧ reports = outcomes.filterMap report? := by
  induction vs generalizing fields reports with
  | nil =>
    constructor
    · intro h
      cases h
      exact ⟨[], .nil, rfl, rfl⟩
    · rintro ⟨outcomes, hall, rfl, rfl⟩
      cases hall
      rfl
  | cons p rest ih =>
    rw [resolveAll_cons_ok_iff]
    constructor
    · rintro ⟨one, fs, ds, hone, hrest, hx⟩
      obtain ⟨outcomes, hall, rfl, rfl⟩ := ih.mp hrest
      refine ⟨one :: outcomes, .cons (resolve_ok_iff.mp hone) hall, ?_⟩
      cases one <;> (cases hx; exact ⟨rfl, rfl⟩)
    · rintro ⟨outcomes, hall, rfl, rfl⟩
      cases hall with
      | @cons _ one _ outcomes hone hall =>
        refine ⟨one, _, _, resolve_ok_iff.mpr hone, ih.mpr ⟨outcomes, hall, rfl, rfl⟩, ?_⟩
        cases one <;> rfl

end Resolution

/-! ### What the schemas copy -/

/-- The line on the ancestor makes the documentation longer. -/
theorem ResolvedField.annotates_doc (f : ResolvedField) (own : Option String) :
    f.Annotates own (f.doc own) := by
  unfold Annotates doc source
  cases f.ancestor with
  | none => cases own <;> rfl
  | some ancestor =>
    cases own with
    | none =>
      refine ⟨by simp, ?_⟩
      simp [inheritMark, String.append_assoc]
    | some own =>
      have hlonger : own.length <
          (own ++ "\n" ++ inheritMark ++ " " ++ (ancestor ++ "." ++ f.key)).length := by
        have hmark : 0 < inheritMark.length := by decide
        simp only [String.length_append]
        omega
      refine ⟨fun heq => ?_, ?_⟩
      · exact Nat.ne_of_gt hlonger (congrArg String.length (Option.some.inj heq))
      · simp [inheritMark, String.append_assoc]

namespace Side

variable {s : Side} {g : Graph} {h : List Visit} {st : State} {name : String} {o : Object}

theorem copies_of_shown {f : ResolvedField} {e : s.SchemaField} (he : s.shown f = some e) :
    s.Copies f e := by
  cases s with
  | input =>
    obtain ⟨v, hv, rfl⟩ := Option.map_eq_some_iff.mp he
    exact ⟨v, hv, rfl, rfl, rfl, rfl, rfl, rfl, f.annotates_doc v.doc, rfl, rfl, rfl⟩
  | output =>
    obtain ⟨v, hv, rfl⟩ := Option.map_eq_some_iff.mp he
    exact ⟨v, hv, rfl, rfl, rfl, rfl, rfl, rfl, f.annotates_doc v.doc, rfl, rfl, rfl, rfl⟩

/-- The fields of a side are copies of those that have a variant there, in their order. -/
theorem copies_select (s : Side) (fields : List ResolvedField) :
    List.Forall₂ s.Copies (s.select fields) (fields.filterMap s.shown) :=
  forall₂_filter_filterMap (fun f _ => s.isSome_shown f) fun _ _ _ he => copies_of_shown he

/-- A schema has under the name of a visit what the visit came to. -/
theorem find?_schema_of_visit (hc : Consistent g h st) {v : Visit} (hv : v ∈ h) :
    (s.schema st.result).find? v.entry.name = s.ofReport v.report := by
  have hnodup : (h.map (·.entry.name)).Nodup := by
    have hnames := (hc.visited.sublist.map (·.name)).nodup (nodup_names_worklist hc.free)
    rwa [List.map_map] at hnames
  refine Option.ext fun x => ?_
  rw [find?_schema_iff hc]
  constructor
  · rintro ⟨v', hv', hname, hx⟩
    rwa [List.inj_on_of_nodup_map hnodup hv' hv hname] at hx
  · intro hx
    exact ⟨v, hv, rfl, hx⟩

/-- What a schema has of an object that has been visited. -/
theorem fieldsOf_visit (hc : Consistent g h st) {v : Visit} (hv : v ∈ h)
    {resolved : List ResolvedField} {reports : List Diagnostic}
    (hreport : v.report = objectReport v.entry.name o resolved reports) :
    s.fieldsOf st.result v.entry.name = (FieldOrder.arrange o resolved).filterMap s.shown := by
  rw [fieldsOf, find?_schema_of_visit hc hv, hreport, ofReport_objectReport]
  cases (FieldOrder.arrange o resolved).filterMap s.shown with
  | nil => rfl
  | cons e rest => rfl

end Side

namespace Normalize

variable {g : Graph} {h : List Visit} {st : State}

/-- **A visit settles its entry**, and what it settles the result still says. -/
theorem settled_visit (hc : Consistent g h st) {v : Visit} (hv : v ∈ h) :
    st.result.Settled g (v.entry.name, v.entry.node) v.report.diagnostics := by
  have hreport := hc.reported v hv
  cases hnode : v.entry.node with
  | object o =>
    rw [hnode] at hreport
    cases ho : o.isTemplate with
    | true =>
      rw [report_template ho] at hreport
      rw [← Except.ok.inj hreport]
      exact .template ho
    | false =>
      obtain ⟨resolved, reports, hres, hobject⟩ := (report_object_ok_iff ho).mp hreport
      obtain ⟨outcomes, hall, rfl, rfl⟩ := Resolution.resolveAll_ok_iff.mp hres
      rw [← lookup_result hc] at hall
      rw [hobject]
      refine .object ho hall fun s => ⟨_, (FieldOrder.arrange_perm o _).filter _, ?_⟩
      rw [Side.fieldsOf_visit hc hv hobject]
      exact s.copies_select _
  | scalar value =>
    rw [hnode] at hreport
    rw [← Except.ok.inj hreport]
    exact .other rfl
  | enumeration value =>
    rw [hnode] at hreport
    rw [← Except.ok.inj hreport]
    exact .other rfl
  | union value =>
    rw [hnode] at hreport
    rw [← Except.ok.inj hreport]
    exact .other rfl
  | _ => rw [hnode] at hreport; cases hreport

theorem settled_result (hc : Consistent g h st) (hcomplete : Complete g h st) :
    List.Forall₂ (st.result.Settled g) (st.result.entries g) (h.map (·.report.diagnostics)) := by
  rw [entries_result hc, ← hcomplete, List.map_map, List.forall₂_map_left_iff,
    List.forall₂_map_right_iff, List.forall₂_same]
  exact fun v hv => settled_visit hc hv

end Normalize

/-- **Every visible field is settled.**  When a normalization succeeds, each visible field of an
object that is no template is resolved to the object's own declaration or the first of its
ancestors, and then copied to the schemas that it has a variant for, or else it is reported once.
The reports stand in the order of the entries and of their visible fields. -/
theorem Graph.normalize_settled {g : Graph} {n : Normalized} (hn : g.normalize = .ok n) :
    ∃ reports, List.Forall₂ (n.Settled g) (n.entries g) reports ∧
      n.diagnostics = reports.flatten := by
  obtain ⟨h, st, hrun, hcomplete, rfl⟩ := Graph.normalize_ok hn
  have hc := hrun.consistent
  refine ⟨_, settled_result hc hcomplete, ?_⟩
  rw [State.result, hc.diagnostics, List.flatMap_def]

/-- An object that inherits from one ancestor twice and names the other one as an origin. -/
def Graph.albums : Graph :=
  let text : FieldType := .named "Text" none
  let record := (Object.named "Record").withField (.both "Record" "title" 0 text) false
  let medium := ((Object.named "Medium").withField (.both "Medium" "title" 0 text) false).withField
    (.both "Medium" "year" 1 text) true
  let medium := medium.withField (.both "Medium" "format" 1 text) true
  let album := ((Object.named "Album").withField (.both "Album" "artist" 0 text) false).withField
    { Field.bare "Album" "rating" 0 with output := some (.ofType "rating" text) } true
  let album := (album.withInheritedField "Medium" "format" 1 true).withInheritedField
    "Record" "title" 0 false
  let album := (album.withInheritedField "Medium" "year" 1 true).withInheritedField
    "Record" "label" 2 false
  ⟨⟨[("Text", .scalar ⟨"Text", none⟩), ("Record", .object record), ("Medium", .object medium),
    ("Album", .object { album with inherit := some ["Medium", "Record", "Medium"] })], by decide⟩⟩

theorem Graph.normalize_settled_albums : ∃ n, albums.normalize = .ok n ∧
    n.diagnostics =
      [.unresolvedField "Album" "label" ["Record", "Medium"] unknownLocation] ∧
    (Side.input.fieldsOf n "Album").map (fun e => (e.name, e.doc)) =
      [("title", some "@inherit-from Record.title"), ("format", some "@inherit-from Medium.format"),
        ("year", some "@inherit-from Medium.year"), ("artist", none)] ∧
    ∃ reports, List.Forall₂ (n.Settled albums) (n.entries albums) reports ∧
      n.diagnostics = reports.flatten :=
  ⟨_, rfl, rfl, rfl, normalize_settled rfl⟩

end EntityGraph
