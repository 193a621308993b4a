import EntityGraph.Proofs.Answers
import EntityGraph.Proofs.HookFree

/-!
# Runs without hooks

Where there are no hooks a run starts nothing and takes no time, so it comes to the same whatever
has been started before and however much time is left: it returns a value or halts with an error.
`x.Splits P Q` says that `P` holds and `x` returns, or that `x` halts with an error that `Q` holds
of.  A loop halts at the first of its steps that halts:

    (∀ i a, l[i]? = some a → (f a).Splits (P i a) (Q i a)) →
      (l.mapM f).Splits (∀ i a, l[i]? = some a → P i a) (FirstAt l P Q)           (splits_mapM)
-/

namespace EntityGraph

/-! ## Algorithm -/

namespace Run

variable {α : Type}

/-- The run returns the value and leaves no trace. -/
def Returns (x : Run α) (a : α) : Prop := ∀ p, x p = .ok a p

/-- The run halts and leaves no trace. -/
def Halts (x : Run α) (e : Halt) : Prop := ∀ p, x p = .error e p

/-- The run returns, and `P` holds, or it halts with an error that `Q` holds of. -/
def Splits (x : Run α) (P : Prop) (Q : Halt → Prop) : Prop :=
  (P ∧ ∃ a, x.Returns a) ∨ ∃ e, Q e ∧ x.Halts e

/-- `Q` holds of an item of the list and of the error, and `P` of all items before it. -/
def FirstAt (l : List α) (P : Nat → α → Prop) (Q : Nat → α → Halt → Prop) (e : Halt) : Prop :=
  ∃ i a, l[i]? = some a ∧ Q i a e ∧ ∀ j b, j < i → l[j]? = some b → P j b

end Run

def InputObject.hookFree (o : InputObject) : Bool := o.fields.all (·.hookFree)

/-- Whether no object of the schema carries a hook. -/
def InputSchema.hookFree (schema : InputSchema) : Bool :=
  schema.entries.all fun p => p.2.object?.all InputObject.hookFree

/-! ## Lemmas -/

namespace Run

variable {α β : Type} {x : Run α} {f : α → Run β} {a : α} {b : β} {e : Halt} {P P' : Prop}
  {Q Q' : Halt → Prop}

theorem returns_pure (a : α) : (pure a : Run α).Returns a := fun _ => rfl

theorem halts_fail (e : ValidationError) : (fail e : Run α).Halts (.rejected e) := fun _ => rfl

theorem Returns.bind (hx : x.Returns a) (hf : (f a).Returns b) : (x >>= f).Returns b := by
  intro p
  change EStateM.bind x f p = _
  rw [EStateM.bind, hx p]
  exact hf p

theorem Returns.bind_halts (hx : x.Returns a) (hf : (f a).Halts e) : (x >>= f).Halts e := by
  intro p
  change EStateM.bind x f p = _
  rw [EStateM.bind, hx p]
  exact hf p

theorem Halts.bind (hx : x.Halts e) (f : α → Run β) : (x >>= f).Halts e := by
  intro p
  change EStateM.bind x f p = _
  rw [EStateM.bind, hx p]

namespace Splits

theorem pure (a : α) (hP : P) : (Pure.pure a : Run α).Splits P Q := Or.inl ⟨hP, a, returns_pure a⟩

theorem fail {err : ValidationError} (hQ : Q (.rejected err)) : (Run.fail err : Run α).Splits P Q :=
  Or.inr ⟨_, hQ, halts_fail err⟩

theorem imp (h : x.Splits P Q) (hP : P → P') (hQ : ∀ e, Q e → Q' e) : x.Splits P' Q' := by
  rcases h with ⟨hp, hx⟩ | ⟨e, hq, hx⟩
  · exact Or.inl ⟨hP hp, hx⟩
  · exact Or.inr ⟨e, hQ e hq, hx⟩

/-- What comes after a run does not matter if it always returns. -/
theorem andThen (h : x.Splits P Q) (hf : ∀ a, ∃ b, (f a).Returns b) : (x >>= f).Splits P Q := by
  rcases h with ⟨hp, a, hx⟩ | ⟨e, hq, hx⟩
  · obtain ⟨b, hb⟩ := hf a
    exact Or.inl ⟨hp, b, hx.bind hb⟩
  · exact Or.inr ⟨e, hq, hx.bind f⟩

end Splits

/-! ### Loops -/

section

variable {l : List α} {P : Nat → α → Prop} {Q : Nat → α → Halt → Prop}

theorem firstAt_head {e : Halt} (h : Q 0 a e) : FirstAt (a :: l) P Q e :=
  ⟨0, a, rfl, h, fun j _ hj => absurd hj (Nat.not_lt_zero j)⟩

theorem firstAt_tail {e : Halt} (hP : P 0 a)
    (h : FirstAt l (fun i => P (i + 1)) (fun i => Q (i + 1)) e) : FirstAt (a :: l) P Q e := by
  obtain ⟨i, b, hb, hQ, hbefore⟩ := h
  refine ⟨i + 1, b, hb, hQ, fun j c hj hc => ?_⟩
  cases j with
  | zero =>
    cases hc
    exact hP
  | succ j => exact hbefore j c (Nat.lt_of_succ_lt_succ hj) hc

theorem forall_cons (hP : P 0 a) (h : ∀ i b, l[i]? = some b → P (i + 1) b) :
    ∀ i b, (a :: l)[i]? = some b → P i b := by
  intro i b hb
  cases i with
  | zero =>
    cases hb
    exact hP
  | succ i => exact h i b hb

/-- A loop comes to its tail if the run of its head returns. -/
theorem Splits.cons {γ : Type} {x : Run γ} {f : γ → Run β} (hx : x.Splits (P 0 a) (Q 0 a))
    (hf : ∀ c, (f c).Splits (∀ i b, l[i]? = some b → P (i + 1) b)
      (FirstAt l (fun i => P (i + 1)) fun i => Q (i + 1))) :
    (x >>= f).Splits (∀ i b, (a :: l)[i]? = some b → P i b) (FirstAt (a :: l) P Q) := by
  rcases hx with ⟨hP, c, hc⟩ | ⟨e, hQ, he⟩
  · rcases hf c with ⟨hall, b, hb⟩ | ⟨e, hfirst, he⟩
    · exact Or.inl ⟨forall_cons hP hall, b, hc.bind hb⟩
    · exact Or.inr ⟨e, firstAt_tail hP hfirst, hc.bind_halts he⟩
  · exact Or.inr ⟨e, firstAt_head hQ, he.bind f⟩

theorem splits_mapM {f : α → Run β} (h : ∀ i a, l[i]? = some a → (f a).Splits (P i a) (Q i a)) :
    (l.mapM f).Splits (∀ i a, l[i]? = some a → P i a) (FirstAt l P Q) := by
  induction l generalizing P Q with
  | nil =>
    rw [List.mapM_nil]
    exact .pure [] fun i a ha => by simp at ha
  | cons a rest ih =>
    rw [List.mapM_cons]
    refine .cons (h 0 a rfl) fun b => ?_
    exact (ih fun i b hb => h (i + 1) b hb).andThen fun bs => ⟨_, returns_pure _⟩

theorem splits_foldlM {f : β → α → Run β}
    (h : ∀ i a, l[i]? = some a → ∀ acc, (f acc a).Splits (P i a) (Q i a)) (start : β) :
    (l.foldlM f start).Splits (∀ i a, l[i]? = some a → P i a) (FirstAt l P Q) := by
  induction l generalizing P Q start with
  | nil =>
    rw [List.foldlM_nil]
    exact .pure start fun i a ha => by simp at ha
  | cons a rest ih =>
    rw [List.foldlM_cons]
    exact .cons (h 0 a rfl start) fun acc => ih (fun i b hb => h (i + 1) b hb) acc

end

/-! ### Verdicts -/

theorem Returns.outcome (h : x.Returns a) (limit : Option Duration) (entity : String) :
    (x.verdict limit entity).outcome = .done a := by
  unfold verdict
  rw [h]

theorem Halts.outcome {err : ValidationError} (h : x.Halts (.rejected err))
    (limit : Option Duration) (entity : String) :
    (x.verdict limit entity).outcome = .failed err := by
  unfold verdict
  rw [h]

end Run

/-! ### Objects without hooks -/

theorem InputField.hookFree_iff {f : InputField} :
    f.hookFree = true ↔ f.hooks = .none ∧ f.type.hookFree = true := by
  rw [hookFree, Bool.and_eq_true, Hooks.absent_iff]

theorem InputSchema.hookFree_of_find? {schema : InputSchema} (h : schema.hookFree = true)
    {name : String} {o : InputObject} (ho : schema.find? name = some (.object o)) :
    o.hookFree = true := by
  have hentry := List.all_eq_true.mp h _ (Dict.find?_eq_some_iff.mp ho)
  exact hentry

end EntityGraph
