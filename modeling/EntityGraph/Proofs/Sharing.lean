import EntityGraph.Proofs.Reach
import EntityGraph.Proofs.Sides

/-!
# What the uses of an instantiation share

An instantiation is found by the two names of a reference.  They show neither files nor the hooks
of lists, and may not tell an empty list of arguments from a blank name.  All uses share what was
made for the first of them, so they get just what they ask for if they ask for the same
(`serves_iff_askAlike`).

Without empty lists of arguments, a use gets what it asks for up to the hooks of lists
(`serves_of_uses`), and two uses ask for the same if the arguments have the same hooks wherever the
template mentions the parameter (`askAlike_iff_sameArguments`).
-/

namespace EntityGraph

open Normalize

/-! ## Algorithm -/

namespace FieldType

mutual

/-- The names of the references without arguments, which is where parameters stand. -/
def mentions : FieldType → List String
  | .list element _ => element.mentions
  | .named name _ => [name]
  | .generic _ args _ => mentionsAll args

def mentionsAll : List FieldType → List String
  | [] => []
  | a :: rest => a.mentions ++ mentionsAll rest

end

end FieldType

/-- The arguments for the parameters that the fields of the template mention are the same without
files and with `f` of the hooks of lists. -/
def Object.SameArguments (f : Hooks → Hooks) (t : Object) (r r' : Reference) : Prop :=
  ∀ p ∈ t.fields.entries, ∀ ty ∈ p.2.types, ∀ x ∈ ty.mentions,
    (t.bindings r).forget f x = (t.bindings r').forget f x

/-- `o` is the instantiation that `r` asks for. -/
def Graph.Asks (g : Graph) (r : Reference) (o : Object) : Prop :=
  ∃ t, g.find? r.name = some (.object t) ∧ t.instantiate r r.escapedName = .ok o

/-- What the references ask for is the same without files and with `f` of the hooks of lists. -/
def Graph.AskAlike (f : Hooks → Hooks) (g : Graph) (r r' : Reference) : Prop :=
  ∃ o o', g.Asks r o ∧ g.Asks r' o' ∧ o.Agree f o'

/-- The instantiation registered under the name of `r` and the one that `r` asks for are the same
without files and with `f` of the hooks of lists. -/
def Normalized.Serves (f : Hooks → Hooks) (g : Graph) (n : Normalized) (r : Reference) : Prop :=
  ∃ o made, g.Asks r o ∧
    n.specializations.find? (·.escapedName = r.escapedName) = some made ∧ made.Agree f o

/-- `r` is a use of what is registered under the name. -/
def Normalized.UsesOf (g : Graph) (n : Normalized) (name : String) (r : Reference) : Prop :=
  n.Uses g r ∧ r.escapedName = name

/-! ## Substitutions that agree -/

section

variable {f : Hooks → Hooks} {b b' : Bindings}

theorem FieldType.mentionsAll_eq_flatMap (args : List FieldType) :
    mentionsAll args = args.flatMap mentions := by
  induction args with
  | nil => rfl
  | cons a rest ih => rw [mentionsAll, ih, List.flatMap_cons]

theorem FieldType.substitute_forget_eq_iff (hdomain : ∀ x, b x = none ↔ b' x = none)
    (ty : FieldType) : (ty.substitute b).forget f = (ty.substitute b').forget f ↔
      ∀ x ∈ ty.mentions, b.forget f x = b'.forget f x := by
  induction ty with
  | list element hooks ih => simp only [substitute, forget, mentions, list.injEq, and_true, ih]
  | named name fileName =>
    have hname := hdomain name
    simp only [substitute, mentions, List.mem_singleton, forall_eq, Bindings.forget]
    cases hb : b name <;> cases hb' : b' name <;> simp [hb, hb'] at hname ⊢
  | generic name args fileName ih =>
    have hargs : forgetAll f (substituteAll b args) = forgetAll f (substituteAll b' args) ↔
        ∀ x ∈ mentionsAll args, b.forget f x = b'.forget f x := by
      rw [substituteAll_eq_map, substituteAll_eq_map, forgetAll_eq_map, forgetAll_eq_map,
        mentionsAll_eq_flatMap, List.map_map, List.map_map, List.map_inj_left,
        List.forall_mem_flatMap]
      exact forall₂_congr ih
    simp only [substitute, forget, mentions, generic.injEq, true_and, and_true, hargs]

theorem Bindings.ofPairs_eq_none_iff {l : List (String × FieldType)} {x : String} :
    ofPairs l x = none ↔ x ∉ l.map Prod.fst := by
  induction l with
  | nil => simp [ofPairs]
  | cons p rest ih =>
    rw [ofPairs, Option.or_eq_none_iff, ih, List.map_cons, List.mem_cons, not_or, and_comm]
    simp [eq_comm]

theorem Object.bindings_eq_none_iff {t : Object} {r : Reference} {x : String}
    (hlength : t.typeParameters.length = (r.args.getD []).length) :
    t.bindings r x = none ↔ x ∉ t.typeParameters := by
  rw [bindings, Bindings.ofPairs_eq_none_iff, List.map_fst_zip (Nat.le_of_eq hlength)]

/-- To change the types of a copy is to change those of the field in one go. -/
theorem Field.mapTypes_of_instantiate (φ : FieldType → FieldType) (b : Bindings) (owner : String)
    (field : Field) : (field.instantiate b owner).mapTypes φ =
      Field.mapTypes (fun ty => φ (ty.substitute b)) { field with owner } := by
  simp only [instantiate, mapTypes, Option.map_map, Function.comp_def]

theorem Field.mapTypes_instantiate_eq_iff {φ : FieldType → FieldType} {owner : String}
    {field : Field} :
    (field.instantiate b owner).mapTypes φ = (field.instantiate b' owner).mapTypes φ ↔
      ∀ ty ∈ field.types, φ (ty.substitute b) = φ (ty.substitute b') := by
  rw [mapTypes_of_instantiate, mapTypes_of_instantiate]
  exact mapTypes_eq_iff

/-- Two instantiations of a template agree if the arguments do where they are mentioned. -/
theorem Object.agree_instanceOf_iff {t : Object} {r r' : Reference} {escaped : String}
    (hlength : t.typeParameters.length = (r.args.getD []).length)
    (hlength' : t.typeParameters.length = (r'.args.getD []).length)
    (hname : r.genericName = r'.genericName) :
    (t.instanceOf r escaped).Agree f (t.instanceOf r' escaped) ↔ t.SameArguments f r r' := by
  have hdomain : ∀ x, t.bindings r x = none ↔ t.bindings r' x = none := fun x =>
    (bindings_eq_none_iff hlength).trans (bindings_eq_none_iff hlength').symm
  simp only [Agree, mapTypes, instanceOf, hname, mk.injEq, true_and, and_true, Dict.mapValues,
    List.map_map, Dict.mk.injEq, List.map_inj_left, Function.comp_apply, Prod.mk.injEq,
    Field.mapTypes_instantiate_eq_iff, FieldType.substitute_forget_eq_iff hdomain, SameArguments]

end

/-! ## The uses of one instantiation -/

theorem Graph.Asks.unique {g : Graph} {r : Reference} {o o' : Object} (h : g.Asks r o)
    (h' : g.Asks r o') : o = o' := by
  obtain ⟨t, ht, ho⟩ := h
  obtain ⟨t', ht', ho'⟩ := h'
  rw [ht] at ht'
  cases ht'
  rw [ho] at ho'
  exact Except.ok.inj ho'

namespace Normalize

variable {g : Graph} {h : List Visit} {st : State} {name : String} {r r' : Reference}
  {f : Hooks → Hooks} (hc : Consistent g h st) (hcomplete : Complete g h st)

include hc hcomplete

/-- What is registered was made for a use, just as that asked for it. -/
theorem exists_asked (hr : st.result.UsesOf g name r) : ∃ r' made, st.result.UsesOf g name r' ∧
    g.Asks r' made ∧ st.result.specializations.find? (·.escapedName = name) = some made := by
  obtain ⟨hr, rfl⟩ := hr
  obtain ⟨-, i, hi, -⟩ := granted_of_uses hc hcomplete hr
  obtain ⟨v, hv, q, hq, hmade⟩ := hc.made _ (Dict.find?_eq_some_iff.mp hi)
  obtain ⟨t, ht, hinst⟩ := hmade.made
  have hname : q.reference.escapedName = r.escapedName := hmade.name.symm
  have huse : st.result.Uses g q.reference :=
    (uses_result_iff hc hcomplete).mpr ⟨v, hv, q, hq, rfl⟩
  refine ⟨q.reference, i.object, ⟨huse, hname⟩, ⟨t, ht, by rw [hname, hinst]⟩, ?_⟩
  rw [find?_specializations hc, hi, Option.map_some]

/-- The uses of a name get what they ask for exactly if they ask for the same. -/
theorem serves_iff_askAlike (name : String) :
    (∀ r, st.result.UsesOf g name r → st.result.Serves f g r) ↔
      ∀ r r', st.result.UsesOf g name r → st.result.UsesOf g name r' → g.AskAlike f r r' := by
  constructor
  · intro hserves r r' hr hr'
    obtain ⟨o, made, hasks, hmade, hagree⟩ := hserves r hr
    obtain ⟨o', made', hasks', hmade', hagree'⟩ := hserves r' hr'
    rw [hr'.2, ← hr.2, hmade] at hmade'
    cases hmade'
    exact ⟨o, o', hasks, hasks', hagree.symm.trans hagree'⟩
  · intro halike r hr
    obtain ⟨r₀, made, hr₀, hasks₀, hmade⟩ := exists_asked hc hcomplete hr
    obtain ⟨o₀, o, hasks, hasks', hagree⟩ := halike r₀ r hr₀ hr
    rw [hasks.unique hasks₀] at hagree
    exact ⟨o, made, hasks', by rw [hr.2, hmade], hagree⟩

variable (hr : st.result.UsesOf g name r) (hfull : r.toType.Full)

include hr hfull

/-- A use gets what it asks for, but for the hooks of lists. -/
theorem serves_of_uses : st.result.Serves (fun _ => .none) g r := by
  obtain ⟨i, t, hi, ht, hlength, halike⟩ :=
    hc.exists_alike (granted_of_uses hc hcomplete hr.1) hfull
  have hasks : g.Asks r (t.instanceOf r r.escapedName) :=
    ⟨t, ht, Object.instantiate_of_length hlength _⟩
  refine ⟨_, i.object, hasks, ?_, halike.symm⟩
  rw [find?_specializations hc, hi, Option.map_some]

/-- Uses of one name, one of them without empty lists of arguments, differ in hooks at most. -/
theorem forget_eq_of_uses (hr' : st.result.UsesOf g name r') :
    r.forget (fun _ => .none) = r'.forget fun _ => .none := by
  have he : r.escapedName = r'.escapedName := hr.2.trans hr'.2.symm
  obtain ⟨-, i, hi, hname⟩ := granted_of_uses hc hcomplete hr.1
  obtain ⟨-, i', hi', hname'⟩ := granted_of_uses hc hcomplete hr'.1
  rw [← he, hi] at hi'
  cases hi'
  exact forget_eq_of_names_eq hfull he (hname.symm.trans hname')

/-- Uses of one name ask for the same if their arguments agree where they are mentioned. -/
theorem askAlike_iff_sameArguments (hr' : st.result.UsesOf g name r') : g.AskAlike f r r' ↔
    ∀ t, g.find? r.name = some (.object t) → t.SameArguments f r r' := by
  obtain ⟨-, t, -, ht, hlength, -⟩ := hc.exists_alike (granted_of_uses hc hcomplete hr.1) hfull
  have hforget := forget_eq_of_uses hc hcomplete hr hfull hr'
  have hlength' := hlength.trans (Reference.length_args_eq_of_forget_eq hforget)
  have hgeneric := Reference.genericName_eq_of_forget_eq hforget
  have hasks : g.Asks r (t.instanceOf r name) :=
    ⟨t, ht, by rw [hr.2, Object.instantiate_of_length hlength]⟩
  have hasks' : g.Asks r' (t.instanceOf r' name) :=
    ⟨t, by rw [← Reference.name_eq_of_forget_eq hforget, ht],
      by rw [hr'.2, Object.instantiate_of_length hlength']⟩
  have hiff := @Object.agree_instanceOf_iff f t r r' name hlength hlength' hgeneric
  constructor
  · rintro ⟨o, o', ho, ho', hagree⟩ t' ht'
    rw [ht] at ht'
    cases ht'
    rw [ho.unique hasks, ho'.unique hasks'] at hagree
    exact hiff.mp hagree
  · intro hsame
    exact ⟨_, _, hasks, hasks', hiff.mpr (hsame t ht)⟩

end Normalize

/-- **What the uses of an instantiation get.**  Those of one name get just what they ask for exactly
if they ask for the same.  A use without empty lists of arguments gets what it asks for up to the
hooks of lists, and asks for the same as another exactly if the arguments have the same hooks
wherever the template mentions the parameter. -/
theorem Graph.normalize_serves {g : Graph} {n : Normalized} (hn : g.normalize = .ok n) :
    n.Traced g ∧ ∀ name,
      ((∀ r, n.UsesOf g name r → n.Serves id g r) ↔
        ∀ r r', n.UsesOf g name r → n.UsesOf g name r' → g.AskAlike id r r') ∧
      ∀ r, n.UsesOf g name r → r.toType.Full → n.Serves (fun _ => .none) g r ∧
        ∀ r', n.UsesOf g name r' → (g.AskAlike id r r' ↔
          ∀ t, g.find? r.name = some (.object t) → t.SameArguments id r r') := by
  obtain ⟨h, st, hrun, hcomplete, rfl⟩ := normalize_ok hn
  have hc := hrun.consistent
  refine ⟨traced_result hc hcomplete, fun name => ⟨serves_iff_askAlike hc hcomplete name, ?_⟩⟩
  intro r hr hfull
  refine ⟨serves_of_uses hc hcomplete hr hfull, fun r' hr' => ?_⟩
  exact askAlike_iff_sameArguments hc hcomplete hr hfull hr'

/-! ## Uses that do not get what they ask for -/

/-- What is registered for one reference does not serve another with other arguments. -/
theorem Normalized.not_serves {g : Graph} {n : Normalized} {t : Object} {r r' : Reference}
    {f : Hooks → Hooks} (ht : g.find? r'.name = some (.object t))
    (hmade : n.specializations.find? (·.escapedName = r'.escapedName) =
      some (t.instanceOf r r'.escapedName))
    (hlength : t.typeParameters.length = (r.args.getD []).length)
    (hlength' : t.typeParameters.length = (r'.args.getD []).length)
    (hname : r.genericName = r'.genericName) (hdiffer : ¬ t.SameArguments f r r') :
    ¬ n.Serves f g r' := by
  rintro ⟨o, made, ⟨t', ht', ho⟩, hmade', hagree⟩
  rw [ht] at ht'
  cases ht'
  rw [hmade] at hmade'
  cases hmade'
  rw [(Object.instantiate_ok_iff.mp ho).2] at hagree
  exact hdiffer ((Object.agree_instanceOf_iff hlength hlength' hname).mp hagree)

namespace Graph

/-- A template whose one field has the type of its first parameter. -/
def holder (name : String) (parameters : List String) (parameter : String) : Object :=
  { (Object.named name).withField (.both name "first" 0 (.named parameter none)) false with
    generics := some parameters }

/-- An object with two fields that use templates. -/
def twoUses (r r' : Reference) : Object :=
  ((Object.named "User").withField (.both "User" "one" 0 r.toType) false).withField
    (.both "User" "two" 1 r'.toType) false

def refusing : Hooks := ⟨some ⟨.null, fun _ => .error "refused"⟩, none⟩

/-- A page of a list with the given hooks. -/
def pageOf (hooks : Hooks) : Reference :=
  ⟨"Page", some [.list (.named "Item" none) hooks], none⟩

/-- Two uses of one instantiation, of which only the second has hooks. -/
def checkedPages : Graph :=
  ⟨⟨[("Item", .scalar ⟨"Item", none⟩), ("Page", .object (holder "Page" ["T"] "T")),
    ("User", .object (twoUses (pageOf .none) (pageOf refusing)))], by decide⟩⟩

def pairOf (a b : FieldType) : Reference := ⟨"Pair", some [a, b], none⟩

def blank : FieldType := .generic "_" [.named "" none] none

def blankEmpty : FieldType := .generic "_" [] none

/-- Two uses of different instantiations whose names are the same, because the arguments have a
blank name in one place and an empty list of arguments in the other. -/
def blankPairs : Graph :=
  ⟨⟨[("_", .object (holder "_" ["X"] "X")), ("Pair", .object (holder "Pair" ["A", "B"] "A")),
    ("User", .object (twoUses (pairOf blank blankEmpty) (pairOf blankEmpty blank)))],
    by decide⟩⟩

theorem uses_second {g : Graph} {n : Normalized} {r r' : Reference} {args : List FieldType}
    (ho : g.find? "User" = some (.object (twoUses r r'))) (hargs : r'.args = some args) :
    n.Uses g r' := by
  have hvisible : ("two", ⟨none, 1, false⟩) ∈ (twoUses r r').visibleFields.entries :=
    List.mem_cons_of_mem _ List.mem_cons_self
  refine Normalized.uses_of_own ho rfl hvisible rfl List.mem_cons_self ?_
  unfold FieldType.applied?
  show r'.toType.terminal.args.map (fun _ => r'.toType.terminal) = some r'
  rw [FieldType.terminal_toType, hargs, Option.map_some]

theorem argument_of_sameArguments {name parameter : String} {parameters : List String}
    {f : Hooks → Hooks} {r r' : Reference}
    (h : (holder name parameters parameter).SameArguments f r r') :
    ((holder name parameters parameter).bindings r).forget f parameter =
      ((holder name parameters parameter).bindings r').forget f parameter :=
  h _ List.mem_cons_self _ List.mem_cons_self _ List.mem_cons_self

/-- Hooks are lost if another use of the instantiation came first, and with empty lists of arguments
even another instantiation is taken for the one that is asked for. -/
theorem uses_not_served :
    (∃ n, checkedPages.normalize = .ok n ∧ n.Uses checkedPages (pageOf refusing) ∧
      ¬ n.Serves id checkedPages (pageOf refusing)) ∧
    ∃ n, blankPairs.normalize = .ok n ∧ n.Uses blankPairs (pairOf blankEmpty blank) ∧
      ¬ n.Serves (fun _ => .none) blankPairs (pairOf blankEmpty blank) := by
  constructor
  · refine ⟨_, rfl, uses_second rfl rfl, ?_⟩
    refine Normalized.not_serves (r := pageOf .none) rfl rfl rfl rfl rfl fun hsame => ?_
    cases argument_of_sameArguments hsame
  · refine ⟨_, rfl, uses_second rfl rfl, ?_⟩
    refine Normalized.not_serves (r := pairOf blank blankEmpty) rfl rfl rfl rfl rfl fun hsame => ?_
    cases argument_of_sameArguments hsame

theorem normalize_serves_checkedPages : ∃ n, checkedPages.normalize = .ok n ∧
    n.Serves (fun _ => .none) checkedPages (pageOf refusing) := by
  refine ⟨_, rfl, ?_⟩
  exact (((normalize_serves rfl).2 "Page__Item").2 _ ⟨uses_second rfl rfl, rfl⟩ (by decide)).1

end Graph

end EntityGraph
