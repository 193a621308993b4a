import EntityGraph.Proofs.Termination

/-!
# The course of a run

What a run does is settled before it starts: which hooks it starts one after the other, how much time
it takes and what it comes to.  Only whether there is time for all of it depends on how far the run
has come (`Run.Takes`):

    x p = c.finish p               if the time that is left is enough for the course `c` of `x`
    x p = .error .overdue q        if it is not

One run after another takes one course after the other (`Takes.bind`), so every walk of the validator
has a course (`steady_object`).  If all transforms answer at once, it takes no time.
-/

namespace EntityGraph

/-! ## Algorithm -/

/-- The hooks that a run starts, the milliseconds that it takes, and what it comes to. -/
structure Course (α : Type) where
  calls : List HookCall
  time : Nat
  result : Except Halt α

namespace Course

variable {α β : Type}

/-- A course and then, if it comes to a value, the next one. -/
def bind (c : Course α) (next : α → Course β) : Course β :=
  match c.result with
  | .ok a => ⟨c.calls ++ (next a).calls, c.time + (next a).time, (next a).result⟩
  | .error e => ⟨c.calls, c.time, .error e⟩

/-- The course that comes to a value at once. -/
def done (a : α) : Course α := ⟨[], 0, .ok a⟩

/-- How far a run has come from `p` on by the course. -/
def after (c : Course α) (p : Progress) : Progress :=
  ⟨p.left.map (· - c.time), c.calls.reverse ++ p.started⟩

/-- What a run comes to from `p` on by the course. -/
def finish (c : Course α) (p : Progress) : EStateM.Result Halt Progress α :=
  match c.result with
  | .ok a => .ok a (c.after p)
  | .error e => .error e (c.after p)

end Course

/-- There is that much time left. -/
def Progress.Allows (p : Progress) (time : Nat) : Prop := ∀ left, p.left = some left → time ≤ left

/-- The run takes the course, or as much of it as there is time for. -/
structure Run.Takes {α : Type} (x : Run α) (c : Course α) : Prop where
  inTime : ∀ p, p.Allows c.time → x p = c.finish p
  overdue : ∀ p, ¬ p.Allows c.time → ∃ q, x p = .error .overdue q

/-- The transform answers at once. -/
def Transform.Prompt (t : Transform) : Prop := ∀ input, ∃ result, t.run input = .after 0 result

def Hooks.Prompt (h : Hooks) : Prop := ∀ t, h.transform = some t → t.Prompt

/-- The transforms of all lists of the type answer at once. -/
def FieldType.Prompt : FieldType → Prop
  | .list element hooks => hooks.Prompt ∧ element.Prompt
  | .named .. => True
  | .generic .. => True

def InputField.Prompt (f : InputField) : Prop := f.hooks.Prompt ∧ f.type.Prompt

def InputObject.Prompt (o : InputObject) : Prop := ∀ f ∈ o.fields, f.Prompt

def InputSchema.Prompt (schema : InputSchema) : Prop :=
  ∀ name o, schema.find? name = some (.object o) → InputObject.Prompt o

/-- The run has a course, which takes no time under the condition. -/
def Run.Steady {α : Type} (x : Run α) (prompt : Prop) : Prop :=
  ∃ c, x.Takes c ∧ (prompt → c.time = 0)

/-! ## Lemmas -/

namespace Run

variable {α β : Type} {x : Run α} {f : α → Run β} {prompt : Prop}

namespace Takes

variable {c : Course α}

/-- A course that takes no time is taken in any case. -/
theorem at_once (hx : ∀ p, x p = c.finish p) (htime : c.time = 0) : x.Takes c := by
  refine ⟨fun p _ => hx p, fun p hlate => absurd ?_ hlate⟩
  intro left _
  omega

theorem pure (a : α) : (Pure.pure a : Run α).Takes (.done a) := by
  apply at_once _ rfl
  rintro ⟨_ | left, started⟩ <;> rfl

theorem throw (e : Halt) : (MonadExcept.throw e : Run α).Takes ⟨[], 0, .error e⟩ := by
  apply at_once _ rfl
  rintro ⟨_ | left, started⟩ <;> rfl

theorem start (call : HookCall) : (Run.start call).Takes ⟨[call], 0, .ok ()⟩ := by
  apply at_once _ rfl
  rintro ⟨_ | left, started⟩ <;> rfl

theorem wait (milliseconds : Nat) : (Run.wait milliseconds).Takes ⟨[], milliseconds, .ok ()⟩ := by
  have hwait : ∀ left started, Run.wait milliseconds ⟨some left, started⟩ =
      if left < milliseconds then .error .overdue ⟨some left, started⟩
      else .ok () ⟨some (left - milliseconds), started⟩ := by
    intro left started
    show (if left < milliseconds then MonadExcept.throw Halt.overdue
      else set (⟨some (left - milliseconds), started⟩ : Progress) : Run Unit) _ = _
    split <;> rfl
  constructor
  · rintro ⟨_ | left, started⟩ hallows
    · rfl
    · have hle : milliseconds ≤ left := hallows left rfl
      rw [hwait, if_neg (by omega)]
      rfl
  · rintro ⟨_ | left, started⟩ hlate
    · exact absurd (fun left hleft => by cases hleft) hlate
    · have hlt : left < milliseconds := by
        by_contra hle
        apply hlate
        rintro left' ⟨⟩
        show milliseconds ≤ left
        omega
      rw [hwait, if_pos hlt]
      exact ⟨_, rfl⟩

theorem finish_after {c : Course α} {d : Course β} (p : Progress) : d.finish (c.after p) =
    (⟨c.calls ++ d.calls, c.time + d.time, d.result⟩ : Course β).finish p := by
  have hafter : d.after (c.after p) =
      (⟨c.calls ++ d.calls, c.time + d.time, d.result⟩ : Course β).after p := by
    obtain ⟨_ | left, started⟩ := p
    · simp [Course.after]
    · simp [Course.after, Nat.sub_sub]
  unfold Course.finish
  rw [hafter]

theorem allows_after {c : Course α} {p : Progress} (hp : p.Allows c.time) (time : Nat) :
    (c.after p).Allows time ↔ p.Allows (c.time + time) := by
  obtain ⟨left, started⟩ := p
  cases left with
  | none =>
    constructor
    · rintro _ _ ⟨⟩
    · rintro _ _ ⟨⟩
  | some left =>
    have hle : c.time ≤ left := hp left rfl
    constructor
    · rintro h _ ⟨⟩
      have hrest : time ≤ left - c.time := h _ rfl
      omega
    · rintro h _ ⟨⟩
      show time ≤ left - c.time
      have hall : c.time + time ≤ left := h left rfl
      omega

/-- **One run after the other takes one course after the other.** -/
theorem bind {next : α → Course β} (hx : x.Takes c)
    (hf : ∀ a, c.result = .ok a → (f a).Takes (next a)) : (x >>= f).Takes (c.bind next) := by
  have hbind : ∀ p, (x >>= f) p = EStateM.bind x f p := fun p => rfl
  obtain ⟨calls, time, result⟩ := c
  cases result with
  | error e =>
    constructor
    · intro p hallows
      rw [hbind, EStateM.bind, hx.inTime p hallows]
      rfl
    · intro p hlate
      obtain ⟨q, hq⟩ := hx.overdue p hlate
      rw [hbind, EStateM.bind, hq]
      exact ⟨q, rfl⟩
  | ok a =>
    have hnext := hf a rfl
    have hok : ∀ p, p.Allows time → (x >>= f) p = f a (Course.after ⟨calls, time, .ok a⟩ p) := by
      intro p hallows
      rw [hbind, EStateM.bind, hx.inTime p hallows]
      rfl
    constructor
    · intro p hallows
      have hfirst : p.Allows time := by
        intro left hleft
        have hle : time + (next a).time ≤ left := hallows left hleft
        omega
      rw [hok p hfirst, hnext.inTime _ ((allows_after hfirst _).mpr hallows), finish_after]
      rfl
    · intro p hlate
      by_cases hfirst : p.Allows time
      · rw [hok p hfirst]
        apply hnext.overdue
        intro hallows
        exact hlate ((allows_after hfirst _).mp hallows)
      · obtain ⟨q, hq⟩ := hx.overdue p hfirst
        rw [hbind, EStateM.bind, hq]
        exact ⟨q, rfl⟩

end Takes

namespace Steady

theorem pure (a : α) : (Pure.pure a : Run α).Steady prompt := ⟨_, .pure a, fun _ => rfl⟩

theorem throw (e : Halt) : (MonadExcept.throw e : Run α).Steady prompt :=
  ⟨_, .throw e, fun _ => rfl⟩

theorem bind (hx : x.Steady prompt) (hf : ∀ a, (f a).Steady prompt) :
    (x >>= f).Steady prompt := by
  obtain ⟨c, hc, htime⟩ := hx
  choose next hnext hnextTime using hf
  refine ⟨c.bind next, hc.bind fun a _ => hnext a, fun hprompt => ?_⟩
  unfold Course.bind
  cases c.result with
  | error e => exact htime hprompt
  | ok a =>
    show c.time + (next a).time = 0
    rw [htime hprompt, hnextTime a hprompt]

theorem mapM {l : List α} (hf : ∀ a, (f a).Steady prompt) : (l.mapM f).Steady prompt := by
  induction l with
  | nil =>
    rw [List.mapM_nil]
    exact pure []
  | cons a rest ih =>
    rw [List.mapM_cons]
    exact (hf a).bind fun b => ih.bind fun bs => pure _

theorem foldlM {f : β → α → Run β} {l : List α} (hf : ∀ a ∈ l, ∀ b, (f b a).Steady prompt)
    (start : β) : (l.foldlM f start).Steady prompt := by
  induction l generalizing start with
  | nil =>
    rw [List.foldlM_nil]
    exact pure start
  | cons a rest ih =>
    rw [List.foldlM_cons]
    refine (hf a List.mem_cons_self start).bind fun b => ?_
    exact ih (fun a ha => hf a (List.mem_cons_of_mem _ ha)) b

/-! ### Hooks -/

theorem check (hook : Assertion) (value : Json) (path : FieldPath) :
    (Run.check hook value path).Steady prompt := by
  unfold Run.check
  refine bind ⟨_, .start _, fun _ => rfl⟩ fun _ => ?_
  split
  · exact pure ()
  · exact throw _

theorem transform {hook : Transform} (hprompt : prompt → hook.Prompt) (input : TransformInput)
    (path : FieldPath) : (Run.transform hook input path).Steady prompt := by
  unfold Run.transform
  refine bind ⟨_, .start _, fun _ => rfl⟩ fun _ => ?_
  split
  · next ms result hrun =>
    refine bind ⟨_, .wait ms, fun h => ?_⟩ fun _ => ?_
    · obtain ⟨result', hresult⟩ := hprompt h input
      cases hrun.symm.trans hresult
      rfl
    · split
      · exact pure _
      · exact throw _
  · exact throw _

theorem hooks {h : Hooks} (hprompt : prompt → h.Prompt) (input : TransformInput)
    (path : FieldPath) : (Run.hooks h input path).Steady prompt := by
  obtain ⟨assertion, transform⟩ := h
  have hanswer : (match transform with
      | some hook => Run.transform hook input path
      | none => Pure.pure input.value : Run Json).Steady prompt := by
    cases transform with
    | none => exact pure _
    | some hook => exact Steady.transform (fun h => hprompt h hook rfl) input path
  cases assertion with
  | none => cases transform <;> exact hanswer
  | some hook =>
    have hboth := (check hook input.value path).bind fun _ => hanswer
    cases transform <;> exact hboth

end Steady

end Run

/-! ### The walk -/

namespace Validate

variable {schema : InputSchema} {context : Option Json} {path : FieldPath} {prompt : Prop}

theorem steady_reference {nested : InputObject → Json → FieldPath → Run Json} {name : String}
    {v : Json} (hnested : ∀ o, schema.find? name = some (.object o) →
      (nested o v path).Steady prompt) :
    (value.reference schema nested name v path).Steady prompt := by
  unfold value.reference
  split
  · next o ho => exact hnested o ho
  · exact .pure v

theorem steady_value {nested : InputObject → Json → FieldPath → Run Json}
    (hnested : ∀ name o, schema.find? name = some (.object o) → ∀ v path,
      (nested o v path).Steady prompt) {ty : FieldType} (hty : prompt → ty.Prompt) (v : Json)
    (path : FieldPath) : (value schema nested context ty v path).Steady prompt := by
  induction ty generalizing v path with
  | list element hooks ih =>
    rw [value]
    refine .bind (.mapM ?_) fun made => .pure _
    rintro ⟨raw, i⟩
    cases raw with
    | null => exact .pure _
    | _ =>
      refine .bind (.hooks (fun h => (hty h).1) _ _) fun x => ?_
      exact ih (fun h => (hty h).2) x _
  | named name fileName => exact steady_reference fun o ho => hnested name o ho v path
  | generic name args fileName => exact steady_reference fun o ho => hnested name o ho v path

theorem steady_field {check : FieldType → Json → FieldPath → Run Json} {payload : Json}
    {f : InputField} (hf : prompt → f.Prompt)
    (hcheck : ∀ v path, (check f.type v path).Steady prompt) (made : List (String × Json)) :
    (field check context payload path f made).Steady prompt := by
  by_cases hsent : ∃ raw, f.Sent payload raw
  · obtain ⟨raw, hraw⟩ := hsent
    rw [field_of_sent hraw]
    refine .bind (.hooks (fun h => (hf h).1) _ _) fun x => ?_
    exact .bind (hcheck x _) fun w => .pure _
  · have hno : ∀ raw, ¬ f.Sent payload raw := fun raw hraw => hsent ⟨raw, hraw⟩
    rw [field_of_not_sent hno]
    exact .pure made

/-- **Every walk through an object has a course.**  It takes no time if all transforms answer at
once. -/
theorem steady_object (hschema : prompt → schema.Prompt) {levels : Nat} {o : InputObject}
    (ho : prompt → o.Prompt) (payload : Json) (path : FieldPath) :
    (object schema context levels o payload path).Steady prompt := by
  induction levels generalizing o payload path with
  | zero => exact .throw _
  | succ levels ih =>
    cases payload with
    | obj sent =>
      rw [object]
      refine .bind (.foldlM ?_ _) fun made => .pure _
      intro f hf made
      have hprompt : prompt → f.Prompt := fun h => ho h f hf
      refine steady_field hprompt (fun v path => ?_) made
      refine steady_value (fun name o' ho' => ?_) (fun h => (hprompt h).2) v path
      exact ih fun h => hschema h name o' ho'
    | _ => exact .throw _

end Validate

end EntityGraph
