import EntityGraph.Hook.Standard
import EntityGraph.Proofs.Courses
import EntityGraph.Proofs.Drafts
import Mathlib.Algebra.BigOperators.Group.List.Basic
import Mathlib.Algebra.GroupWithZero.Nat

/-!
# Fields are validated one by one

A field sees the payload as it was sent, and nothing of what has been made of other fields.  So to
validate a payload against an object is to validate the same payload against the object with each of
its fields alone, one after the other in the order of the fields:

    all fields are done with alone       the members that they give are inserted one after the other
    one of them is not                   the first that is not decides what becomes of the whole

and each hook is started with what it is given when its field stands alone
(`fields_independent`).  If all target names are distinct, the fields may be in any order.  All this
holds for any number of levels, if there is one for the object itself.

What may come between is time.  With a limit, the whole may be out of time where each field alone is
not, because a hook that waits takes from the time of those after it.  So there should be no limit,
or all hooks answer at once, or the whole is in time after all (`Validator.InTime`).
-/

namespace EntityGraph

/-! ## Algorithm -/

/-- The object with one field alone. -/
def InputObject.only (o : InputObject) (f : InputField) : InputObject := { o with fields := [f] }

/-- What becomes of the payload if the object has the one field alone. -/
def Validator.alone (v : Validator) (levels : Nat) (o : InputObject) (payload : Json)
    (context : Option Json) (f : InputField) : Verdict Json :=
  v.validateWithin levels (o.only f) payload context

namespace Course

/-- The members that a field gives; none if its course comes to no value. -/
def given (c : Course (List (String × Json))) : List (String × Json) :=
  match c.result with
  | .ok made => made
  | .error _ => []

/-- The course of fields, where `made` has been gathered before. -/
def gather (made : List (String × Json)) :
    List (Course (List (String × Json))) → Course (List (String × Json))
  | [] => .done made
  | c :: rest => c.bind fun single => gather (Assoc.insertAll made single) rest

/-- The course through an object whose fields have the given courses. -/
def object (fields : List (Course (List (String × Json)))) : Course Json :=
  (gather [] fields).bind fun made => .done (.obj made)

/-- What becomes of a run by the course, if there is time for it. -/
def verdict {α : Type} (c : Course α) (limit : Option Duration) (entity : String) : Verdict α :=
  ⟨c.calls,
    match c.result with
    | .ok a => .done a
    | .error (.rejected e) => .failed e
    | .error .overdue =>
      match limit with
      | some limit => .failed (.timedOut entity limit)
      | none => .unfinished⟩

end Course

/-- There is that much time within the limit. -/
def WithinLimit (limit : Option Duration) (time : Nat) : Prop :=
  Progress.Allows ⟨limit.map Duration.millis, []⟩ time

/-- Time plays no part: there is no limit, or all transforms answer at once, or the limit is kept.
-/
def Validator.InTime (v : Validator) (levels : Nat) (o : InputObject) (payload : Json)
    (context : Option Json) : Prop :=
  v.limit = none ∨ (InputSchema.Prompt v.schema ∧ o.Prompt) ∨
    ∀ limit, (v.validateWithin levels o payload context).outcome ≠
      .failed (.timedOut o.escapedName limit)

/-- The fields have courses of their own, and a walk through the object takes them one after the
other, whichever fields the object has. -/
structure Validator.InTurn (v : Validator) (levels : Nat) (o : InputObject) (payload : Json)
    (context : Option Json) (c : InputField → Course (List (String × Json))) : Prop where
  takes : ∀ fields, (Validate.object v.schema context levels { o with fields } payload
    (.root o.escapedName)).Takes (.object (fields.map c))
  /-- A field gives the member of its target name or none. -/
  keys : ∀ f made, (c f).result = .ok made → (Assoc.keys made).Sublist [f.targetName]
  prompt : InputSchema.Prompt v.schema → ∀ f : InputField, f.Prompt → (c f).time = 0

/-! ## Lemmas -/

theorem Assoc.insertAll_append {α : Type} (base l m : List (String × α)) :
    insertAll base (l ++ m) = insertAll (insertAll base l) m := by
  induction l generalizing base with
  | nil => rfl
  | cons p rest ih => exact ih (insert p.1 p.2 base)

/-! ### Verdicts -/

theorem WithinLimit.mono {limit : Option Duration} {time time' : Nat} (h : WithinLimit limit time)
    (hle : time' ≤ time) : WithinLimit limit time' := by
  intro left hleft
  have htime : time ≤ left := h left hleft
  omega

namespace Run.Takes

variable {α : Type} {x : Run α} {c : Course α} {limit : Option Duration} {entity : String} {a : α}

theorem answers (h : x.Takes c) (hc : c.result = .ok a) : x.Answers a := by
  refine ⟨⟨none, []⟩, c.after ⟨none, []⟩, ?_⟩
  rw [h.inTime _ (by rintro left ⟨⟩), Course.finish, hc]

theorem verdict_eq (h : x.Takes c) (hfits : WithinLimit limit c.time) :
    x.verdict limit entity = c.verdict limit entity := by
  unfold Run.verdict Course.verdict
  rw [h.inTime _ hfits]
  unfold Course.finish
  cases c.result with
  | ok a => simp [Course.after]
  | error e =>
    cases e with
    | rejected e => simp [Course.after]
    | overdue => cases limit <;> simp [Course.after]

theorem timedOut (h : x.Takes c) (hlate : ¬ WithinLimit limit c.time) :
    ∃ l, (x.verdict limit entity).outcome = .failed (.timedOut entity l) := by
  obtain ⟨q, hq⟩ := h.overdue _ hlate
  cases limit with
  | none => exact absurd (by rintro left ⟨⟩) hlate
  | some l =>
    refine ⟨l, ?_⟩
    unfold Run.verdict
    rw [hq]

theorem done_iff (h : x.Takes c) :
    (x.verdict limit entity).outcome = .done a ↔ c.result = .ok a ∧ WithinLimit limit c.time := by
  by_cases hfits : WithinLimit limit c.time
  · rw [h.verdict_eq hfits]
    unfold Course.verdict
    cases hc : c.result with
    | ok b => simp [hfits]
    | error e =>
      cases e with
      | rejected e => simp
      | overdue => cases limit <;> simp
  · obtain ⟨l, hl⟩ : ∃ l, (x.verdict limit entity).outcome = .failed (.timedOut entity l) :=
      h.timedOut hfits
    rw [hl]
    simp [hfits]

end Run.Takes

/-! ### Courses of fields -/

namespace Course

variable {α β : Type}

theorem bind_of_ok {d : Course α} {next : α → Course β} {a : α} (h : d.result = .ok a) :
    d.bind next = ⟨d.calls ++ (next a).calls, d.time + (next a).time, (next a).result⟩ := by
  rw [bind, h]

theorem bind_of_error {d : Course α} {next : α → Course β} {e : Halt}
    (h : d.result = .error e) : d.bind next = ⟨d.calls, d.time, .error e⟩ := by
  rw [bind, h]

theorem time_le_bind (d : Course α) (next : α → Course β) : d.time ≤ (d.bind next).time := by
  cases h : d.result with
  | ok a =>
    rw [bind_of_ok h]
    exact Nat.le_add_right _ _
  | error e => exact Nat.le_of_eq (by rw [bind_of_error h])

theorem given_eq {d : Course (List (String × Json))} {made : List (String × Json)}
    (h : d.result = .ok made) : d.given = made := by
  rw [given, h]

section

variable {c : InputField → Course (List (String × Json))} {fields pre post : List InputField}
  {f : InputField}

/-- Fields that all come to something, and then the others. -/
theorem gather_append (h : ∀ f ∈ fields, (c f).result = .ok (c f).given)
    (made : List (String × Json)) (rest : List (Course (List (String × Json)))) :
    gather made (fields.map c ++ rest) =
      bind ⟨fields.flatMap fun f => (c f).calls, (fields.map fun f => (c f).time).sum,
        .ok (Assoc.insertAll made (fields.flatMap fun f => (c f).given))⟩
        fun made => gather made rest := by
  induction fields generalizing made with
  | nil => simp [bind, Assoc.insertAll]
  | cons f fields ih =>
    have hf := h f List.mem_cons_self
    have hfields := ih (fun e he => h e (List.mem_cons_of_mem _ he))
      (Assoc.insertAll made (c f).given)
    rw [List.map_cons, List.cons_append, gather, bind_of_ok hf, hfields]
    simp [bind, Assoc.insertAll_append, Nat.add_assoc]

theorem object_of_ok (h : ∀ f ∈ fields, (c f).result = .ok (c f).given) :
    object (fields.map c) =
      ⟨fields.flatMap fun f => (c f).calls, (fields.map fun f => (c f).time).sum,
        .ok (.obj (Assoc.insertAll [] (fields.flatMap fun f => (c f).given)))⟩ := by
  have hgather := gather_append h [] []
  rw [List.append_nil] at hgather
  rw [object, hgather]
  simp [bind, gather, done]

/-- The first field that comes to nothing is where the course ends. -/
theorem object_of_error (hpre : ∀ e ∈ pre, (c e).result = .ok (c e).given) {e : Halt}
    (hf : (c f).result = .error e) :
    object ((pre ++ f :: post).map c) = ⟨(pre ++ [f]).flatMap fun e => (c e).calls,
      ((pre ++ [f]).map fun e => (c e).time).sum, .error e⟩ := by
  rw [object, List.map_append, gather_append hpre, List.map_cons]
  simp [gather, bind, hf]

/-- The course of a field that comes after others takes part of the time of them all. -/
theorem le_time_object (hpre : ∀ e ∈ pre, (c e).result = .ok (c e).given) :
    (c f).time ≤ (object ((pre ++ f :: post).map c)).time := by
  rw [object, List.map_append, gather_append hpre, List.map_cons]
  refine Nat.le_trans ?_ (time_le_bind _ _)
  rw [bind_of_ok rfl, gather]
  exact Nat.le_trans (time_le_bind _ _) (Nat.le_add_left _ _)

/-- All fields come to something, or there is a first one that does not. -/
theorem ok_or_error (c : InputField → Course (List (String × Json)))
    (fields : List InputField) :
    (∀ f ∈ fields, (c f).result = .ok (c f).given) ∨
      ∃ pre f post e, fields = pre ++ f :: post ∧
        (∀ e ∈ pre, (c e).result = .ok (c e).given) ∧ (c f).result = .error e := by
  induction fields with
  | nil => exact Or.inl (by simp)
  | cons f rest ih =>
    cases hf : (c f).result with
    | error e => exact Or.inr ⟨[], f, rest, e, rfl, by simp, hf⟩
    | ok made =>
      have hgiven : (c f).result = .ok (c f).given := by rw [given_eq hf, hf]
      rcases ih with hall | ⟨pre, f', post, e, rfl, hpre, hf'⟩
      · exact Or.inl (List.forall_mem_cons.mpr ⟨hgiven, hall⟩)
      · exact Or.inr ⟨f :: pre, f', post, e, rfl, List.forall_mem_cons.mpr ⟨hgiven, hpre⟩, hf'⟩

theorem time_object_eq_zero (h : ∀ f ∈ fields, (c f).time = 0) :
    (object (fields.map c)).time = 0 := by
  have hsum : ∀ l : List InputField, (∀ f ∈ l, f ∈ fields) →
      (l.map fun f => (c f).time).sum = 0 := by
    intro l hl
    apply List.sum_eq_zero
    intro time htime
    obtain ⟨f, hf, rfl⟩ := List.mem_map.mp htime
    exact h f (hl f hf)
  rcases ok_or_error c fields with hall | ⟨pre, f, post, e, rfl, hpre, hf⟩
  · rw [object_of_ok hall]
    exact hsum fields fun f hf => hf
  · rw [object_of_error hpre hf]
    apply hsum
    intro e he
    rw [List.append_cons]
    exact List.mem_append_left _ he

/-- The course comes to an object exactly if each field comes to something. -/
theorem object_ok_iff {w : Json} : (object (fields.map c)).result = .ok w ↔
    (∀ f ∈ fields, (c f).result = .ok (c f).given) ∧
      w = .obj (Assoc.insertAll [] (fields.flatMap fun f => (c f).given)) := by
  rcases ok_or_error c fields with hall | ⟨pre, f, post, e, rfl, hpre, hf⟩
  · rw [object_of_ok hall]
    constructor
    · intro h
      exact ⟨hall, (Except.ok.inj h).symm⟩
    · rintro ⟨-, rfl⟩
      rfl
  · rw [object_of_error hpre hf]
    constructor
    · intro h
      cases h
    · rintro ⟨hall, -⟩
      have hgiven := hall f (by simp)
      rw [hf] at hgiven
      cases hgiven

end

end Course

/-! ### The fields of an object -/

namespace Validate

variable {schema : InputSchema} {context : Option Json} {path : FieldPath} {v : Json}
  {check : FieldType → Json → FieldPath → Run Json}

/-- What a field gives does not depend on what has been made of other fields. -/
theorem field_eq_insertAll (f : InputField) (made : List (String × Json)) :
    field check context v path f made = (do
      let single ← field check context v path f []
      return Assoc.insertAll made single) := by
  by_cases hsent : ∃ raw, f.Sent v raw
  · obtain ⟨raw, hraw⟩ := hsent
    rw [field_of_sent hraw, field_of_sent hraw]
    simp only [bind_assoc, pure_bind]
    rfl
  · have hno : ∀ raw, ¬ f.Sent v raw := fun raw hraw => hsent ⟨raw, hraw⟩
    rw [field_of_not_sent hno, field_of_not_sent hno, pure_bind]
    rfl

/-- The fields of an object take their courses one after the other. -/
theorem takes_fields {c : InputField → Course (List (String × Json))}
    (hc : ∀ f, (field check context v path f []).Takes (c f)) (fields : List InputField)
    (made : List (String × Json)) :
    (fields.foldlM (fun made f => field check context v path f made) made).Takes
      (.gather made (fields.map c)) := by
  induction fields generalizing made with
  | nil => exact .pure made
  | cons f rest ih =>
    rw [List.foldlM_cons, field_eq_insertAll, bind_assoc]
    refine (hc f).bind fun single _ => ?_
    rw [pure_bind]
    exact ih (Assoc.insertAll made single)

end Validate

namespace Validator

variable {v : Validator} {levels : Nat} {o : InputObject} {payload : Json} {context : Option Json}

theorem exists_inTurn (v : Validator) (hlevels : 0 < levels) (o : InputObject)
    (sent : List (String × Json)) (context : Option Json) :
    ∃ c, v.InTurn levels o (.obj sent) context c := by
  obtain ⟨below, rfl⟩ := Nat.exists_eq_add_one.mpr hlevels
  have hsteady : ∀ f : InputField, ∃ c, (Validate.field (Validate.value v.schema
      (Validate.object v.schema context below) context) context (.obj sent)
      (.root o.escapedName) f []).Takes c ∧
      (InputSchema.Prompt v.schema ∧ f.Prompt → c.time = 0) := by
    intro f
    apply Validate.steady_field (fun h => h.2)
    intro x path
    refine Validate.steady_value (fun name o' ho' x path => ?_) (fun h => h.2.2) x path
    exact Validate.steady_object (fun h => h.1) (fun h => h.1 name o' ho') x path
  choose c hc hprompt using hsteady
  refine ⟨c, fun fields => ?_, fun f made hmade => ?_, fun hschema f hf => hprompt f ⟨hschema, hf⟩⟩
  · rw [Validate.object]
    exact (Validate.takes_fields hc fields []).bind fun made _ => .pure _
  · have hgathered := Validate.answers_field .nil ((hc f).answers hmade)
    exact hgathered.sublist

namespace InTurn

variable {c : InputField → Course (List (String × Json))} {f : InputField}
  {fields : List InputField} {w : Json}

/-- What becomes of the object if it has the given fields, in time or not. -/
theorem done_iff (h : v.InTurn levels o payload context c) (fields : List InputField) :
    (v.validateWithin levels { o with fields } payload context).outcome = .done w ↔
      ((∀ f ∈ fields, (c f).result = .ok (c f).given) ∧
        w = .obj (Assoc.insertAll [] (fields.flatMap fun f => (c f).given))) ∧
      WithinLimit v.limit (Course.object (fields.map c)).time := by
  rw [← Course.object_ok_iff]
  exact (h.takes fields).done_iff

/-- Alone, a field gives the object of its own member. -/
theorem object_only (h : v.InTurn levels o payload context c) (f : InputField) :
    Course.object ([f].map c) = ⟨(c f).calls, (c f).time, (c f).result.map .obj⟩ := by
  cases hf : (c f).result with
  | ok made =>
    have hgiven : ∀ e ∈ [f], (c e).result = .ok (c e).given := by
      intro e he
      rw [List.mem_singleton.mp he, Course.given_eq hf, hf]
    have hnodup : (Assoc.keys made).Nodup := (h.keys f made hf).nodup (List.nodup_singleton _)
    have hmade : Assoc.insertAll [] made = made := Assoc.insertAll_of_nodup hnodup
    rw [Course.object_of_ok hgiven]
    simp [Course.given_eq hf, hmade, Except.map]
  | error e =>
    have hpre : ∀ e ∈ ([] : List InputField), (c e).result = .ok (c e).given := by simp
    have hcourse : Course.object (([] ++ f :: []).map c) = _ := Course.object_of_error hpre hf
    rw [List.nil_append] at hcourse
    rw [hcourse]
    simp [Except.map]

theorem takes_only (h : v.InTurn levels o payload context c) (f : InputField) :
    (Validate.object v.schema context levels (o.only f) payload
      (.root o.escapedName)).Takes ⟨(c f).calls, (c f).time, (c f).result.map .obj⟩ := by
  rw [← h.object_only f]
  exact h.takes [f]

theorem alone_done_iff (h : v.InTurn levels o payload context c) :
    (v.alone levels o payload context f).outcome = .done w ↔
      (∃ made, (c f).result = .ok made ∧ w = .obj made) ∧ WithinLimit v.limit (c f).time := by
  have hdone : (v.alone levels o payload context f).outcome = .done w ↔
      (c f).result.map .obj = .ok w ∧ WithinLimit v.limit (c f).time := (h.takes_only f).done_iff
  rw [hdone]
  cases (c f).result with
  | ok made => simp [Except.map, eq_comm]
  | error e => simp [Except.map]

theorem alone_of_withinLimit (h : v.InTurn levels o payload context c)
    (hfits : WithinLimit v.limit (c f).time) : v.alone levels o payload context f =
      Course.verdict ⟨(c f).calls, (c f).time, (c f).result.map .obj⟩ v.limit o.escapedName :=
  (h.takes_only f).verdict_eq hfits

/-- Alone, a field is done if it is on time and comes to something. -/
theorem exists_alone_done_iff (h : v.InTurn levels o payload context c) :
    (∃ w, (v.alone levels o payload context f).outcome = .done w) ↔
      (c f).result = .ok (c f).given ∧ WithinLimit v.limit (c f).time := by
  constructor
  · rintro ⟨w, hw⟩
    obtain ⟨⟨made, hmade, -⟩, hfits⟩ := h.alone_done_iff.mp hw
    rw [Course.given_eq hmade]
    exact ⟨hmade, hfits⟩
  · rintro ⟨hgiven, hfits⟩
    exact ⟨_, h.alone_done_iff.mpr ⟨⟨_, hgiven, rfl⟩, hfits⟩⟩

theorem calls_of_done (h : v.InTurn levels o payload context c)
    (hf : ∃ w, (v.alone levels o payload context f).outcome = .done w) :
    (v.alone levels o payload context f).calls = (c f).calls := by
  obtain ⟨-, hfits⟩ := h.exists_alone_done_iff.mp hf
  rw [h.alone_of_withinLimit hfits]
  rfl

/-- If time plays no part, the course of the object is taken to its end. -/
theorem withinLimit (h : v.InTurn levels o payload context c)
    (hv : v.InTime levels o payload context) :
    WithinLimit v.limit (Course.object (o.fields.map c)).time := by
  rcases hv with hnone | ⟨hschema, ho⟩ | hkept
  · rw [hnone]
    rintro left ⟨⟩
  · have htime : (Course.object (o.fields.map c)).time = 0 :=
      Course.time_object_eq_zero fun f hf => h.prompt hschema f (ho f hf)
    intro left _
    omega
  · by_contra hlate
    obtain ⟨limit, hlimit⟩ : ∃ limit, (v.validateWithin levels o payload context).outcome =
        .failed (.timedOut o.escapedName limit) := (h.takes o.fields).timedOut hlate
    exact hkept limit hlimit

theorem whole_eq (h : v.InTurn levels o payload context c)
    (hv : v.InTime levels o payload context) :
    v.validateWithin levels o payload context =
      (Course.object (o.fields.map c)).verdict v.limit o.escapedName :=
  (h.takes o.fields).verdict_eq (h.withinLimit hv)

/-- Each field of an object that is done has its time and comes to something. -/
theorem of_done (h : v.InTurn levels o payload context c)
    (hw : (v.validateWithin levels o payload context).outcome = .done w) :
    ∀ f ∈ o.fields, (c f).result = .ok (c f).given ∧ WithinLimit v.limit (c f).time := by
  obtain ⟨⟨hall, -⟩, hfits⟩ := (h.done_iff o.fields).mp hw
  intro f hf
  refine ⟨hall f hf, ?_⟩
  obtain ⟨pre, post, hfields⟩ := List.append_of_mem hf
  have hpre : ∀ e ∈ pre, (c e).result = .ok (c e).given := by
    intro e he
    apply hall
    rw [hfields]
    exact List.mem_append_left _ he
  rw [hfields] at hfits
  exact WithinLimit.mono hfits (Course.le_time_object hpre)

/-- An object all of whose fields are done with alone. -/
theorem whole_of_done (h : v.InTurn levels o payload context c)
    (hv : v.InTime levels o payload context)
    (hall : ∀ f ∈ o.fields, ∃ w, (v.alone levels o payload context f).outcome = .done w) :
    v.validateWithin levels o payload context =
      ⟨o.fields.flatMap fun f => (v.alone levels o payload context f).calls,
        .done (.obj (Assoc.insertAll [] (o.fields.flatMap fun f => (c f).given)))⟩ := by
  have hgiven : ∀ f ∈ o.fields, (c f).result = .ok (c f).given := fun f hf =>
    (h.exists_alone_done_iff.mp (hall f hf)).1
  have hcalls : ∀ f ∈ o.fields, (v.alone levels o payload context f).calls = (c f).calls :=
    fun f hf => h.calls_of_done (hall f hf)
  rw [h.whole_eq hv, Course.object_of_ok hgiven, List.flatMap_congr hcalls]
  rfl

/-- An object whose first field that is not done with alone is `f`. -/
theorem whole_of_not_done (h : v.InTurn levels o payload context c)
    (hv : v.InTime levels o payload context)
    {pre post : List InputField} (hfields : o.fields = pre ++ f :: post)
    (hpre : ∀ e ∈ pre, ∃ w, (v.alone levels o payload context e).outcome = .done w)
    (hf : ∀ w, (v.alone levels o payload context f).outcome ≠ .done w) :
    v.validateWithin levels o payload context =
      ⟨(pre ++ [f]).flatMap fun e => (v.alone levels o payload context e).calls,
        (v.alone levels o payload context f).outcome⟩ := by
  have hgiven : ∀ e ∈ pre, (c e).result = .ok (c e).given := fun e he =>
    (h.exists_alone_done_iff.mp (hpre e he)).1
  have hfits : WithinLimit v.limit (c f).time := by
    have hall := h.withinLimit hv
    rw [hfields] at hall
    exact WithinLimit.mono hall (Course.le_time_object hgiven)
  have hcalls : ∀ e ∈ pre ++ [f], (v.alone levels o payload context e).calls = (c e).calls := by
    intro e he
    rcases List.mem_append.mp he with he | he
    · exact h.calls_of_done (hpre e he)
    · rw [List.mem_singleton.mp he, h.alone_of_withinLimit hfits]
      rfl
  obtain ⟨e, he⟩ : ∃ e, (c f).result = .error e := by
    cases hresult : (c f).result with
    | error e => exact ⟨e, rfl⟩
    | ok made => exact absurd (h.alone_done_iff.mpr ⟨⟨made, hresult, rfl⟩, hfits⟩) (hf _)
  rw [h.whole_eq hv, hfields, Course.object_of_error hgiven he, List.flatMap_congr hcalls,
    h.alone_of_withinLimit hfits, he]
  cases e <;> rfl

/-- Whether an object is done does not depend on the order of its fields. -/
theorem exists_done_iff_of_perm (h : v.InTurn levels o payload context c)
    (hperm : fields.Perm o.fields) :
    (∃ w, (v.validateWithin levels { o with fields } payload context).outcome = .done w) ↔
      ∃ w, (v.validateWithin levels o payload context).outcome = .done w := by
  have hdone : ∀ l : List InputField,
      (∃ w, (v.validateWithin levels { o with fields := l } payload context).outcome =
          .done w) ↔
        (∀ f ∈ l, (c f).result = .ok (c f).given) ∧
          WithinLimit v.limit (l.map fun f => (c f).time).sum := by
    intro l
    simp only [h.done_iff]
    constructor
    · rintro ⟨w, ⟨hall, -⟩, hfits⟩
      rw [Course.object_of_ok hall] at hfits
      exact ⟨hall, hfits⟩
    · rintro ⟨hall, hfits⟩
      refine ⟨_, ⟨hall, rfl⟩, ?_⟩
      rw [Course.object_of_ok hall]
      exact hfits
  have hsum : (fields.map fun f => (c f).time).sum = (o.fields.map fun f => (c f).time).sum :=
    (hperm.map _).sum_eq
  have hmem : (∀ f ∈ fields, (c f).result = .ok (c f).given) ↔
      ∀ f ∈ o.fields, (c f).result = .ok (c f).given := by
    simp only [hperm.mem_iff]
  rw [hdone fields, hsum, hmem]
  exact (hdone o.fields).symm

/-- Fields with distinct target names give their members side by side. -/
theorem insertAll_given (h : v.InTurn levels o payload context c)
    (hall : ∀ f ∈ fields, (c f).result = .ok (c f).given)
    (hnodup : (fields.map (·.targetName)).Nodup) :
    Assoc.insertAll [] (fields.flatMap fun f => (c f).given) =
      fields.flatMap fun f => (c f).given := by
  have hsublist : (Assoc.keys (fields.flatMap fun f => (c f).given)).Sublist
      (fields.map (·.targetName)) := by
    clear hnodup
    induction fields with
    | nil => exact List.nil_sublist _
    | cons f rest ih =>
      rw [List.flatMap_cons, Assoc.keys_append, List.map_cons]
      have hf := h.keys f _ (hall f List.mem_cons_self)
      have hrest := ih fun e he => hall e (List.mem_cons_of_mem _ he)
      exact hf.append hrest
  exact Assoc.insertAll_of_nodup (hsublist.nodup hnodup)

/-- In another order, the fields of an object that is done give the same members. -/
theorem perm_of_done (h : v.InTurn levels o payload context c) (hperm : fields.Perm o.fields)
    (hnodup : (o.fields.map (·.targetName)).Nodup)
    (hw : (v.validateWithin levels o payload context).outcome = .done w) :
    ∃ made made', w = .obj made ∧
      (v.validateWithin levels { o with fields } payload context).outcome = .done (.obj made') ∧
      made'.Perm made := by
  obtain ⟨w', hw'⟩ := (h.exists_done_iff_of_perm hperm).mpr ⟨w, hw⟩
  obtain ⟨⟨hall, rfl⟩, -⟩ := (h.done_iff o.fields).mp hw
  obtain ⟨⟨hall', rfl⟩, -⟩ := (h.done_iff fields).mp hw'
  refine ⟨_, _, rfl, hw', ?_⟩
  have hnodup' : (fields.map (·.targetName)).Nodup := (hperm.map _).nodup_iff.mpr hnodup
  rw [h.insertAll_given hall hnodup, h.insertAll_given hall' hnodup']
  exact hperm.flatMap_right _

end InTurn

/-- **Fields are validated one by one**, with any number of levels.  A payload is done with if each
field alone is, and then the members that the fields give are inserted one after the other; else it
fails as the first field does that fails alone.  Each hook is started with what it is given when its
field stands alone.  If all target names are distinct, the order of the fields makes no difference
but for the order of the members. -/
theorem fields_independent (v : Validator) {levels : Nat} (hlevels : 0 < levels) (o : InputObject)
    (sent : List (String × Json)) (context : Option Json) :
    (∀ f w, (v.alone levels o (.obj sent) context f).outcome = .done w →
      ∃ made, w = .obj made ∧ (Assoc.keys made).Sublist [f.targetName]) ∧
    (v.InTime levels o (.obj sent) context →
      ((∃ w, (v.validateWithin levels o (.obj sent) context).outcome = .done w) ↔
        ∀ f ∈ o.fields, ∃ w, (v.alone levels o (.obj sent) context f).outcome = .done w) ∧
      (∀ made : InputField → List (String × Json),
        (∀ f ∈ o.fields,
          (v.alone levels o (.obj sent) context f).outcome = .done (.obj (made f))) →
        v.validateWithin levels o (.obj sent) context =
          ⟨o.fields.flatMap fun f => (v.alone levels o (.obj sent) context f).calls,
            .done (.obj (Assoc.insertAll [] (o.fields.flatMap made)))⟩) ∧
      ∀ pre f post, o.fields = pre ++ f :: post →
        (∀ e ∈ pre, ∃ w, (v.alone levels o (.obj sent) context e).outcome = .done w) →
        (∀ w, (v.alone levels o (.obj sent) context f).outcome ≠ .done w) →
        v.validateWithin levels o (.obj sent) context =
          ⟨(pre ++ [f]).flatMap fun e => (v.alone levels o (.obj sent) context e).calls,
            (v.alone levels o (.obj sent) context f).outcome⟩) ∧
    ∀ fields, fields.Perm o.fields → (o.fields.map (·.targetName)).Nodup →
      ((∃ w, (v.validateWithin levels { o with fields } (.obj sent) context).outcome = .done w) ↔
        ∃ w, (v.validateWithin levels o (.obj sent) context).outcome = .done w) ∧
      ∀ w, (v.validateWithin levels o (.obj sent) context).outcome = .done w →
        ∃ made made', w = .obj made ∧
          (v.validateWithin levels { o with fields } (.obj sent) context).outcome =
            .done (.obj made') ∧
          made'.Perm made := by
  obtain ⟨c, h⟩ := exists_inTurn v hlevels o sent context
  refine ⟨?single, fun hv => ⟨⟨?each, ?all⟩, ?done, ?failed⟩, ?perm⟩
  case single =>
    intro f w hw
    obtain ⟨⟨made, hmade, rfl⟩, -⟩ := h.alone_done_iff.mp hw
    exact ⟨made, rfl, h.keys f made hmade⟩
  case each =>
    rintro ⟨w, hw⟩ f hf
    exact h.exists_alone_done_iff.mpr (h.of_done hw f hf)
  case all =>
    intro hall
    rw [h.whole_of_done hv hall]
    exact ⟨_, rfl⟩
  case done =>
    intro made hmade
    have hgiven : ∀ f ∈ o.fields, (c f).given = made f := by
      intro f hf
      obtain ⟨⟨made', hresult, heq⟩, -⟩ := h.alone_done_iff.mp (hmade f hf)
      rw [Course.given_eq hresult, Json.obj.inj heq]
    rw [h.whole_of_done hv fun f hf => ⟨_, hmade f hf⟩, List.flatMap_congr hgiven]
  case failed =>
    intro pre f post hfields hpre hf
    exact h.whole_of_not_done hv hfields hpre hf
  case perm =>
    intro fields hperm hnodup
    exact ⟨h.exists_done_iff_of_perm hperm, fun w hw => h.perm_of_done hperm hnodup hw⟩

end Validator

/-- An object with two fields, each of which gives the member that the other one is sent for.  The
first one gives the whole payload, and the second one passes nothing but truth values. -/
def InputObject.crossed : InputObject :=
  let field (name targetName : String) (hooks : Hooks) : InputField :=
    ⟨name, targetName, none, 0, false, false, none, none, .named "Any" none, hooks⟩
  ⟨"Crossed", "Crossed", 0, false, none,
    [field "left" "right" ⟨none, some (.parent (.str "whole"))⟩,
      field "right" "left" ⟨some (.ofKind (.str "flag") .boolean), none⟩]⟩

/-- The first field sees the payload as it was sent, though the second one has its target name for a
name.  The order of the two makes no difference, and a payload that the second one does not pass
fails as that field does alone. -/
theorem Validator.fields_independent_crossed :
    let v : Validator := ⟨Dict.empty, some (.ofMillis 1)⟩
    let o := InputObject.crossed
    let sent := [("right", .bool true), ("left", .str "")]
    let bad := [("right", .str ""), ("left", .bool true)]
    let levels := (Json.obj sent).depth + hookLevels
    0 < levels ∧ v.InTime levels o (.obj sent) none ∧ v.InTime levels o (.obj bad) none ∧
    (o.fields.map (·.targetName)).Nodup ∧
    v.validate o (.obj sent) none =
      ⟨[.transform (.parent (.str "whole")) ⟨.obj sent, .str "", none⟩,
        .assertion (.ofKind (.str "flag") .boolean) (.bool true)],
        .done (.obj [("right", .obj sent), ("left", .bool true)])⟩ ∧
    (v.validate o (.obj bad) none).outcome =
      .failed (.assertionFailed ⟨"Crossed", [.field "right"]⟩ "expected boolean") ∧
    ∃ made', (v.validate { o with fields := o.fields.reverse } (.obj sent) none).outcome =
      .done (.obj made') ∧ made'.Perm [("right", .obj sent), ("left", .bool true)] := by
  intro v o sent bad levels
  have hlevels : 0 < levels := Nat.lt_add_left _ (by decide)
  have hprompt : InputSchema.Prompt v.schema ∧ o.Prompt := by
    constructor
    · intro name o' ho'
      cases ho'
    · intro f hf
      rcases List.mem_pair.mp hf with rfl | rfl
      · refine ⟨fun t ht => ?_, trivial⟩
        cases ht
        exact fun input => ⟨_, rfl⟩
      · refine ⟨fun t ht => ?_, trivial⟩
        cases ht
  have hsent : v.InTime levels o (.obj sent) none := Or.inr (Or.inl hprompt)
  have hbad : v.InTime levels o (.obj bad) none := Or.inr (Or.inl hprompt)
  have hnodup : (o.fields.map (·.targetName)).Nodup := by decide
  obtain ⟨-, hgood, hperm⟩ := fields_independent v hlevels o sent none
  obtain ⟨-, hwhole, -⟩ := hgood hsent
  obtain ⟨-, -, hfailed⟩ := (fields_independent v hlevels o bad none).2.1 hbad
  let made : InputField → List (String × Json) := fun f =>
    if f.name = "left" then [("right", .obj sent)] else [("left", .bool true)]
  have hmade : ∀ f ∈ o.fields,
      (v.alone levels o (.obj sent) none f).outcome = .done (.obj (made f)) := by
    intro f hf
    rcases List.mem_pair.mp hf with rfl | rfl <;> rfl
  have hdone := hwhole made hmade
  have hleft : ∀ e ∈ [o.fields[0]],
      ∃ w, (v.alone levels o (.obj bad) none e).outcome = .done w := by
    intro e he
    rw [List.mem_singleton.mp he]
    exact ⟨_, rfl⟩
  have hright : ∀ w, (v.alone levels o (.obj bad) none o.fields[1]).outcome ≠ .done w := by
    intro w hw
    cases hw
  have hbadOutcome := congrArg Verdict.outcome
    (hfailed [o.fields[0]] o.fields[1] [] rfl hleft hright)
  refine ⟨hlevels, hsent, hbad, hnodup, hdone, hbadOutcome, ?_⟩
  obtain ⟨-, hreverse⟩ := hperm o.fields.reverse (List.reverse_perm _) hnodup
  obtain ⟨m, made', hm, hmade', hsame⟩ := hreverse _ (congrArg Verdict.outcome hdone)
  cases hm
  exact ⟨made', hmade', hsame⟩

end EntityGraph
