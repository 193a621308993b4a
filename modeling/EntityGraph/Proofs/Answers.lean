import EntityGraph.Validate.Basic
import Mathlib.Data.List.Forall2

/-!
# What a run may answer

A run answers with a value, or it halts.  `x.Answers a` says that `x` answers with `a` at some
point, whatever has been started before and however much time is left.  Each part of validation is
described by what it may answer:

    a list       an array of what the elements have become, null for null   (answers_value_list)
    a reference  what the walk through the object answers, if the schema has
                 one of that name, and else the value itself               (answers_value_reference)
    an object    an object of what its fields have gathered                 (answers_object)

What has been gathered has one member for each target name that a field has been sent for, in the
order of the fields, and of several fields with one target name the last one that has been sent
counts (`Gathered`).
-/

namespace EntityGraph

/-! ## Algorithm -/

/-- The run answers with the value, at some point. -/
def Run.Answers {α : Type} (x : Run α) (a : α) : Prop := ∃ p q, x p = .ok a q

/-- The name of a reference; a list is none. -/
def FieldType.reference? : FieldType → Option String
  | .list .. => none
  | .named name _ => some name
  | .generic name _ _ => some name

/-- The payload holds `raw` for the field. -/
def InputField.Sent (f : InputField) (payload raw : Json) : Prop :=
  payload.member? f.name = some raw ∧ raw ≠ .null

/-- `f` is the last of the fields with its target name for which the payload holds anything. -/
def LastSent (fields : List InputField) (payload : Json) (f : InputField) (raw : Json) : Prop :=
  ∃ pre post, fields = pre ++ f :: post ∧ f.Sent payload raw ∧
    ∀ e ∈ post, e.targetName = f.targetName → ∀ r, ¬ e.Sent payload r

/-- The members that fields have gathered from a payload, where `R` is what a field makes of what it
has been sent. -/
structure Gathered (R : InputField → Json → Json → Prop) (payload : Json)
    (fields : List InputField) (made : List (String × Json)) : Prop where
  nodup : (Assoc.keys made).Nodup
  sublist : (Assoc.keys made).Sublist (fields.map (·.targetName))
  members : ∀ p ∈ made, ∃ f raw, LastSent fields payload f raw ∧ f.targetName = p.1 ∧ R f raw p.2

namespace Validate

/-- What becomes of an element of a list. -/
def ElementAnswers (schema : InputSchema) (nested : InputObject → Json → FieldPath → Run Json)
    (context : Option Json) (element : FieldType) (hooks : Hooks) (parent : List Json)
    (path : FieldPath) (raw w : Json) : Prop :=
  (raw = .null ∧ w = .null) ∨ raw ≠ .null ∧ ∃ i y,
    (Run.hooks hooks ⟨.arr parent, raw, context⟩ (path.index i)).Answers y ∧
      (value schema nested context element y (path.index i)).Answers w

/-- What becomes of a field that has been sent. -/
def FieldAnswers (check : FieldType → Json → FieldPath → Run Json) (context : Option Json)
    (payload : Json) (path : FieldPath) (f : InputField) (raw w : Json) : Prop :=
  ∃ y, (Run.hooks f.hooks ⟨payload, raw, context⟩ (path.field f.name)).Answers y ∧
    (check f.type y (path.field f.name)).Answers w

end Validate

/-! ## Lemmas -/

theorem exists_getElem?_of_forall₂ {α β : Type} {R : α → β → Prop} {l : List α} {m : List β}
    (h : List.Forall₂ R l m) {i : Nat} {b : β} (hb : m[i]? = some b) :
    ∃ a, l[i]? = some a ∧ R a b := by
  induction h generalizing i with
  | nil => simp at hb
  | @cons a b' l m hab _ ih =>
    cases i with
    | zero => exact ⟨a, by simp, by simpa [← Option.some.inj hb] using hab⟩
    | succ i => simpa using ih (by simpa using hb)

namespace Run

variable {α β : Type}

theorem answers_pure_iff {a b : α} : (pure a : Run α).Answers b ↔ b = a := by
  constructor
  · rintro ⟨p, q, h⟩
    cases h
    rfl
  · rintro rfl
    exact ⟨⟨none, []⟩, _, rfl⟩

theorem answers_bind {x : Run α} {f : α → Run β} {b : β} (h : (x >>= f).Answers b) :
    ∃ a, x.Answers a ∧ (f a).Answers b := by
  obtain ⟨p, q, h⟩ := h
  change EStateM.bind x f p = .ok b q at h
  unfold EStateM.bind at h
  split at h
  · next a r hx => exact ⟨a, ⟨p, r, hx⟩, ⟨r, q, h⟩⟩
  · cases h

theorem not_answers_throw {e : Halt} {a : α} : ¬ (throw e : Run α).Answers a := by
  rintro ⟨p, q, h⟩
  cases h

theorem answers_mapM {f : α → Run β} {l : List α} {out : List β} (h : (l.mapM f).Answers out) :
    List.Forall₂ (fun a b => (f a).Answers b) l out := by
  induction l generalizing out with
  | nil =>
    rw [List.mapM_nil, answers_pure_iff] at h
    subst h
    exact .nil
  | cons a rest ih =>
    rw [List.mapM_cons] at h
    obtain ⟨b, hb, h⟩ := answers_bind h
    obtain ⟨bs, hbs, h⟩ := answers_bind h
    rw [answers_pure_iff] at h
    subst h
    exact .cons hb (ih hbs)

/-- What holds at the start and is kept by each step holds of what a fold answers. -/
theorem answers_foldlM {f : β → α → Run β} {l : List α} {start out : β}
    (motive : List α → β → Prop) (hstart : motive [] start)
    (hstep : ∀ pre a acc acc', motive pre acc → (f acc a).Answers acc' → motive (pre ++ [a]) acc')
    (h : (l.foldlM f start).Answers out) : motive l out := by
  suffices ∀ pre acc, motive pre acc → (l.foldlM f acc).Answers out → motive (pre ++ l) out from
    this [] start hstart h
  clear h
  induction l with
  | nil =>
    intro pre acc hacc h
    rw [List.foldlM_nil, answers_pure_iff] at h
    rwa [List.append_nil, h]
  | cons a rest ih =>
    intro pre acc hacc h
    rw [List.foldlM_cons] at h
    obtain ⟨acc', hone, h⟩ := answers_bind h
    have hrest := ih (pre ++ [a]) acc' (hstep pre a acc acc' hacc hone) h
    rwa [List.append_assoc] at hrest

theorem hooks_none (input : TransformInput) (path : FieldPath) :
    hooks .none input path = pure input.value := rfl

/-- What a validation is done with is what the run has answered. -/
theorem answers_of_verdict {limit : Option Duration} {entity : String} {x : Run α} {a : α}
    (h : (x.verdict limit entity).outcome = .done a) : x.Answers a := by
  unfold verdict at h
  split at h
  · next b p hx =>
    cases h
    exact ⟨_, p, hx⟩
  · cases h
  · cases limit <;> cases h

end Run

/-! ## What has been gathered -/

section

variable {fields : List InputField} {payload raw raw' : Json} {f f' e : InputField}

theorem LastSent.mem (h : LastSent fields payload f raw) : f ∈ fields := by
  obtain ⟨pre, post, rfl, -⟩ := h
  simp

theorem LastSent.sent (h : LastSent fields payload f raw) : f.Sent payload raw := by
  obtain ⟨pre, post, -, hsent, -⟩ := h
  exact hsent

theorem LastSent.concat (h : LastSent fields payload f raw)
    (he : e.targetName = f.targetName → ∀ r, ¬ e.Sent payload r) :
    LastSent (fields ++ [e]) payload f raw := by
  obtain ⟨pre, post, rfl, hsent, hpost⟩ := h
  refine ⟨pre, post ++ [e], by simp, hsent, fun e' he' => ?_⟩
  rcases List.mem_append.mp he' with he' | he'
  · exact hpost e' he'
  · rw [List.mem_singleton.mp he']
    exact he

theorem lastSent_concat_self (hsent : e.Sent payload raw) :
    LastSent (fields ++ [e]) payload e raw :=
  ⟨fields, [], rfl, hsent, by simp⟩

/-- There is one last field for a target name. -/
theorem LastSent.unique (h : LastSent fields payload f raw) (h' : LastSent fields payload f' raw')
    (hname : f'.targetName = f.targetName) : f' = f ∧ raw' = raw := by
  obtain ⟨pre, post, rfl, hsent, hpost⟩ := h
  obtain ⟨pre', post', heq, hsent', hpost'⟩ := h'
  have hf : f' = f := by
    rcases List.append_eq_append_iff.mp heq with ⟨mid, hpre, hcons⟩ | ⟨mid, hpre, hcons⟩
    · cases mid with
      | nil => exact (List.cons.inj hcons).1.symm
      | cons x mid =>
        -- then `f'` stands behind `f`
        have hmem : f' ∈ post := by
          rw [(List.cons.inj hcons).2]
          simp
        exact absurd hsent' (hpost f' hmem hname raw')
    · cases mid with
      | nil => exact (List.cons.inj hcons).1
      | cons x mid =>
        have hmem : f ∈ post' := by
          rw [(List.cons.inj hcons).2]
          simp
        exact absurd hsent (hpost' f hmem hname.symm raw)
  subst hf
  refine ⟨rfl, ?_⟩
  have hraw := hsent.1.symm.trans hsent'.1
  exact (Option.some.inj hraw).symm

end

theorem Assoc.sublist_keys_insert {α : Type} {key : String} {value : α} {l : List (String × α)}
    {names : List String} (h : (keys l).Sublist names) :
    (keys (insert key value l)).Sublist (names ++ [key]) := by
  by_cases hk : key ∈ keys l
  · rw [keys_insert_of_mem hk]
    exact h.trans (List.sublist_append_left _ _)
  · rw [keys_insert_of_not_mem hk]
    exact h.append_right [key]

namespace Gathered

variable {R : InputField → Json → Json → Prop} {payload raw w : Json}
  {fields : List InputField} {made : List (String × Json)} {f e : InputField}

theorem nil : Gathered R payload [] [] := ⟨by simp, by simp, by simp⟩

/-- A field that has not been sent adds nothing. -/
theorem skip (h : Gathered R payload fields made) (he : ∀ r, ¬ e.Sent payload r) :
    Gathered R payload (fields ++ [e]) made := by
  refine ⟨h.nodup, ?_, fun p hp => ?_⟩
  · rw [List.map_append]
    exact h.sublist.trans (List.sublist_append_left _ _)
  · obtain ⟨f, r, hlast, hf⟩ := h.members p hp
    exact ⟨f, r, hlast.concat fun _ => he, hf⟩

/-- A field that has been sent sets the member of its target name. -/
theorem add (h : Gathered R payload fields made) (hsent : e.Sent payload raw) (hr : R e raw w) :
    Gathered R payload (fields ++ [e]) (Assoc.insert e.targetName w made) := by
  refine ⟨Assoc.nodup_keys_insert h.nodup, ?_, fun p hp => ?_⟩
  · rw [List.map_append]
    exact Assoc.sublist_keys_insert h.sublist
  · rcases Assoc.mem_insert h.nodup hp with rfl | ⟨hp, hne⟩
    · exact ⟨e, raw, lastSent_concat_self hsent, rfl, hr⟩
    · obtain ⟨f, r, hlast, hname, hr⟩ := h.members p hp
      refine ⟨f, r, hlast.concat fun heq => absurd ?_ hne, hname, hr⟩
      rw [← hname, heq]

/-- A member is what the last field of its name has made. -/
theorem of_lastSent (h : Gathered R payload fields made) (hlast : LastSent fields payload f raw)
    (hw : Assoc.find? f.targetName made = some w) : R f raw w := by
  obtain ⟨f', raw', hlast', hname, hr⟩ := h.members _ (Assoc.mem_of_find? hw)
  obtain ⟨rfl, rfl⟩ := hlast.unique hlast' hname
  exact hr

end Gathered

/-! ## The parts of validation -/

namespace Validate

variable {schema : InputSchema} {nested : InputObject → Json → FieldPath → Run Json}
  {context : Option Json} {element ty : FieldType} {hooks : Hooks} {v w payload : Json}
  {path : FieldPath} {name : String}

theorem answers_value_list
    (h : (value schema nested context (.list element hooks) v path).Answers w) :
    ∃ items, w = .arr items ∧ List.Forall₂
      (ElementAnswers schema nested context element hooks (elements v) path) (elements v)
        items := by
  unfold value at h
  obtain ⟨items, hitems, h⟩ := Run.answers_bind h
  rw [Run.answers_pure_iff] at h
  refine ⟨items, h, ?_⟩
  have hall : List.Forall₂ (ElementAnswers schema nested context element hooks (elements v) path)
      ((elements v).zipIdx.map Prod.fst) items := by
    rw [List.forall₂_map_left_iff]
    refine (Run.answers_mapM hitems).imp fun p x hx => ?_
    obtain ⟨raw, i⟩ := p
    cases raw with
    | null => exact Or.inl ⟨rfl, Run.answers_pure_iff.mp hx⟩
    | _ =>
      obtain ⟨y, hy, hx⟩ := Run.answers_bind hx
      exact Or.inr ⟨by simp, i, y, hy, hx⟩
  rwa [List.zipIdx_map_fst] at hall

theorem answers_value_reference (hty : ty.reference? = some name)
    (h : (value schema nested context ty v path).Answers w) :
    (∃ o, schema.find? name = some (.object o) ∧ (nested o v path).Answers w) ∨
      (∀ o, schema.find? name ≠ some (.object o)) ∧ w = v := by
  have hreference : (value.reference schema nested name v path).Answers w := by
    cases ty with
    | list element hooks => cases hty
    | named n fileName => cases hty; exact h
    | generic n args fileName => cases hty; exact h
  unfold value.reference at hreference
  split at hreference
  · next o ho => exact Or.inl ⟨o, ho, hreference⟩
  · next hno => exact Or.inr ⟨hno, Run.answers_pure_iff.mp hreference⟩

theorem answers_field {check : FieldType → Json → FieldPath → Run Json} {f : InputField}
    {made made' : List (String × Json)} {fields : List InputField}
    (hmade : Gathered (FieldAnswers check context payload path) payload fields made)
    (h : (field check context payload path f made).Answers made') :
    Gathered (FieldAnswers check context payload path) payload (fields ++ [f]) made' := by
  unfold field at h
  split at h
  · next hnone =>
    rw [Run.answers_pure_iff] at h
    subst h
    refine hmade.skip ?_
    rintro r ⟨hr, -⟩
    rw [hnone] at hr
    cases hr
  · next hnull =>
    rw [Run.answers_pure_iff] at h
    subst h
    refine hmade.skip ?_
    rintro r ⟨hr, hne⟩
    rw [hnull] at hr
    exact hne (Option.some.inj hr).symm
  · next raw hnotNull hraw =>
    obtain ⟨y, hy, h⟩ := Run.answers_bind h
    obtain ⟨w, hw, h⟩ := Run.answers_bind h
    rw [Run.answers_pure_iff] at h
    subst h
    exact hmade.add ⟨hraw, fun heq => hnotNull (by rw [heq])⟩ ⟨y, hy, hw⟩

theorem answers_object {levels : Nat} {o : InputObject}
    (h : (object schema context levels o payload path).Answers w) :
    ∃ levels' sent made, levels = levels' + 1 ∧ payload = .obj sent ∧ w = .obj made ∧
      Gathered (FieldAnswers (value schema (object schema context levels') context) context payload
        path) payload o.fields made := by
  cases levels with
  | zero => exact absurd h Run.not_answers_throw
  | succ levels =>
    cases payload with
    | obj sent =>
      unfold object at h
      obtain ⟨made, hmade, h⟩ := Run.answers_bind h
      rw [Run.answers_pure_iff] at h
      refine ⟨levels, sent, made, rfl, rfl, h, ?_⟩
      exact Run.answers_foldlM (Gathered _ (.obj sent)) .nil
        (fun pre f acc acc' hacc hone => answers_field hacc hone) hmade
    | _ => exact absurd h Run.not_answers_throw

end Validate

end EntityGraph
