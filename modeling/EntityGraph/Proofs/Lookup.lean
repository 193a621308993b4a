import EntityGraph.Normalize.FieldOrder

/-!
# What the resolution of fields depends on

Resolution sees a graph through a function that looks names up.  A success stays as it is when
more names are known (`resolveAll_mono`), and nothing changes if the names of the search orders
mean the same (`resolveAll_congr`).

The search is described without its recursion by two relations: `FirstDeclares` says which
declaration it comes to, `ObjectsUpTo` that nothing but objects stands on the way there.

    (∃ x, search lookup o key names = .ok x) ↔ ObjectsUpTo lookup key names   (search_isOk_iff)
    resolve lookup o key v = .ok (.ok f) → Provides lookup o key v f.field    (provides_of_resolve)
-/

namespace EntityGraph

theorem Except.bind_eq_ok_iff {ε α β : Type} {x : Except ε α} {f : α → Except ε β} {b : β} :
    (x >>= f) = .ok b ↔ ∃ a, x = .ok a ∧ f a = .ok b := by
  cases x with
  | error e =>
    constructor
    · intro h; cases h
    · rintro ⟨a, h, -⟩; cases h
  | ok a =>
    constructor
    · intro h; exact ⟨a, rfl, h⟩
    · rintro ⟨a', h, hb⟩; cases h; exact hb

theorem Except.bind_eq_error_iff {ε α β : Type} {x : Except ε α} {f : α → Except ε β} {e : ε} :
    (x >>= f) = .error e ↔ x = .error e ∨ ∃ a, x = .ok a ∧ f a = .error e := by
  cases x with
  | error e' =>
    constructor
    · intro h; cases h; exact Or.inl rfl
    · rintro (h | ⟨a, h, -⟩)
      · cases h; rfl
      · cases h
  | ok a =>
    constructor
    · intro h; exact Or.inr ⟨a, rfl, h⟩
    · rintro (h | ⟨a', h, he⟩)
      · cases h
      · cases h; exact he

namespace Resolution

variable {lookup lookup' : String → Option Node} {o : Object} {key name : String}

/-! ## Algorithm -/

/-- The second function knows all that the first one knows. -/
def Extends (lookup lookup' : String → Option Node) : Prop :=
  ∀ name node, lookup name = some node → lookup' name = some node

/-- The name is that of an object, which declares `field` under `key`. -/
def Declares (lookup : String → Option Node) (name key : String) (field : Field) : Prop :=
  ∃ owner, lookup name = some (.object owner) ∧ owner.fields.find? key = some field

/-- `field` is the declaration of the first of the names that declares `key`. -/
def FirstDeclares (lookup : String → Option Node) (key : String) (names : List String)
    (field : Field) : Prop :=
  ∃ pre name post, names = pre ++ name :: post ∧ (∀ a ∈ pre, ∀ f, ¬ Declares lookup a key f) ∧
    Declares lookup name key field

/-- Each of the names is that of an object, up to and including the first that declares `key`. -/
def ObjectsUpTo (lookup : String → Option Node) (key : String) (names : List String) : Prop :=
  ∀ pre name post, names = pre ++ name :: post → (∀ a ∈ pre, ∀ f, ¬ Declares lookup a key f) →
    ∃ owner, lookup name = some (.object owner)

/-- `field` is the declaration of a visible field: the object's own, or else the first one along
the search order. -/
def Provides (lookup : String → Option Node) (o : Object) (key : String) (v : VisibleField)
    (field : Field) : Prop :=
  o.fields.find? key = some field ∨
    o.fields.find? key = none ∧ FirstDeclares lookup key (searchOrder o v) field

/-! ## One step of the search -/

theorem search_cons_declared {owner : Object} (hl : lookup name = some (.object owner))
    {field : Field} (hf : owner.fields.find? key = some field) (rest : List String) :
    search lookup o key (name :: rest) = .ok (some (field, owner.name)) := by
  rw [search, hl]
  simp only [hf]

theorem search_cons_undeclared {owner : Object} (hl : lookup name = some (.object owner))
    (hf : owner.fields.find? key = none) (rest : List String) :
    search lookup o key (name :: rest) = search lookup o key rest := by
  rw [search, hl]
  simp only [hf]

/-- A search gets past a name only if it is that of an object. -/
theorem object_of_search {rest : List String} {x : Option (Field × String)}
    (h : search lookup o key (name :: rest) = .ok x) :
    ∃ owner, lookup name = some (.object owner) := by
  unfold search at h
  cases hl : lookup name with
  | none => rw [hl] at h; cases h
  | some node =>
    rw [hl] at h
    cases node with
    | object owner => exact ⟨owner, rfl⟩
    | _ => cases h

/-! ## More names -/

theorem search_mono (hext : Extends lookup lookup') {names : List String}
    {x : Option (Field × String)} (h : search lookup o key names = .ok x) :
    search lookup' o key names = .ok x := by
  induction names with
  | nil => exact h
  | cons name rest ih =>
    obtain ⟨owner, hl⟩ := object_of_search h
    have hl' := hext name _ hl
    cases hf : owner.fields.find? key with
    | some field => rwa [search_cons_declared hl hf, ← search_cons_declared hl' hf rest] at h
    | none =>
      rw [search_cons_undeclared hl hf] at h
      rw [search_cons_undeclared hl' hf]
      exact ih h

theorem resolve_mono (hext : Extends lookup lookup') {v : VisibleField}
    {x : Except Diagnostic ResolvedField} (h : resolve lookup o key v = .ok x) :
    resolve lookup' o key v = .ok x := by
  unfold resolve at h ⊢
  cases hf : o.fields.find? key with
  | some field => simpa [hf] using h
  | none =>
    rw [hf] at h
    obtain ⟨y, hy, hx⟩ := Except.bind_eq_ok_iff.mp h
    exact Except.bind_eq_ok_iff.mpr ⟨y, search_mono hext hy, hx⟩

/-! ## The same names -/

theorem search_congr {names : List String} (h : ∀ name ∈ names, lookup name = lookup' name) :
    search lookup o key names = search lookup' o key names := by
  induction names with
  | nil => rfl
  | cons name rest ih =>
    rw [search, search, h name (by simp), ih fun a ha => h a (by simp [ha])]

theorem resolve_congr {v : VisibleField}
    (h : ∀ name ∈ searchOrder o v, lookup name = lookup' name) :
    resolve lookup o key v = resolve lookup' o key v := by
  rw [resolve, resolve, search_congr h]

/-! ## Where the search ends -/

theorem not_declares_of_find?_eq_none {owner : Object} (hl : lookup name = some (.object owner))
    (hf : owner.fields.find? key = none) (f : Field) : ¬ Declares lookup name key f := by
  rintro ⟨owner', hl', hf'⟩
  rw [hl] at hl'
  cases hl'
  rw [hf] at hf'
  cases hf'

theorem objectsUpTo_cons_iff {names : List String} : ObjectsUpTo lookup key (name :: names) ↔
    (∃ owner, lookup name = some (.object owner)) ∧
      ((∀ f, ¬ Declares lookup name key f) → ObjectsUpTo lookup key names) := by
  constructor
  · intro h
    refine ⟨h [] name names rfl (by simp), fun hno pre a post hpost hpre => ?_⟩
    refine h (name :: pre) a post (by rw [hpost]; rfl) fun b hb => ?_
    rcases List.mem_cons.mp hb with rfl | hb
    · exact hno
    · exact hpre b hb
  · rintro ⟨hname, hrest⟩ pre a post hpost hpre
    cases pre with
    | nil =>
      cases hpost
      exact hname
    | cons b pre =>
      cases hpost
      exact hrest (hpre _ (by simp)) pre a post rfl fun c hc => hpre c (by simp [hc])

theorem firstDeclares_cons_iff {names : List String} {field : Field} :
    FirstDeclares lookup key (name :: names) field ↔ Declares lookup name key field ∨
      (∀ f, ¬ Declares lookup name key f) ∧ FirstDeclares lookup key names field := by
  constructor
  · rintro ⟨pre, a, post, hpost, hpre, ha⟩
    cases pre with
    | nil =>
      cases hpost
      exact Or.inl ha
    | cons b pre =>
      cases hpost
      exact Or.inr ⟨hpre _ (by simp), pre, a, post, rfl, fun c hc => hpre c (by simp [hc]), ha⟩
  · rintro (h | ⟨hno, pre, a, post, rfl, hpre, ha⟩)
    · exact ⟨[], name, names, rfl, by simp, h⟩
    · refine ⟨name :: pre, a, post, rfl, fun b hb => ?_, ha⟩
      rcases List.mem_cons.mp hb with rfl | hb
      · exact hno
      · exact hpre b hb

theorem search_isOk_iff {names : List String} :
    (∃ x, search lookup o key names = .ok x) ↔ ObjectsUpTo lookup key names := by
  induction names with
  | nil => exact ⟨fun _ pre name post h => by simp at h, fun _ => ⟨none, rfl⟩⟩
  | cons name rest ih =>
    rw [objectsUpTo_cons_iff]
    constructor
    · rintro ⟨x, h⟩
      obtain ⟨owner, hl⟩ := object_of_search h
      refine ⟨⟨owner, hl⟩, fun hno => ih.mp ?_⟩
      cases hf : owner.fields.find? key with
      | some field => exact absurd ⟨owner, hl, hf⟩ (hno field)
      | none => exact ⟨x, by rwa [search_cons_undeclared hl hf] at h⟩
    · rintro ⟨⟨owner, hl⟩, hrest⟩
      cases hf : owner.fields.find? key with
      | some field => exact ⟨_, search_cons_declared hl hf rest⟩
      | none =>
        rw [search_cons_undeclared hl hf]
        exact ih.mpr (hrest (not_declares_of_find?_eq_none hl hf))

/-- A search that succeeds has found the first declaration, or there is none. -/
theorem search_eq_some_iff {names : List String} {x : Option (Field × String)}
    (h : search lookup o key names = .ok x) {field : Field} :
    (∃ ancestor, x = some (field, ancestor)) ↔ FirstDeclares lookup key names field := by
  induction names with
  | nil =>
    cases h
    simp [FirstDeclares]
  | cons name rest ih =>
    rw [firstDeclares_cons_iff]
    obtain ⟨owner, hl⟩ := object_of_search h
    cases hf : owner.fields.find? key with
    | some f =>
      rw [search_cons_declared hl hf] at h
      cases h
      have hdecl : Declares lookup name key f := ⟨owner, hl, hf⟩
      constructor
      · rintro ⟨ancestor, hx⟩
        cases hx
        exact Or.inl hdecl
      · rintro (⟨owner', hl', hf'⟩ | ⟨hno, -⟩)
        · rw [hl] at hl'
          cases hl'
          rw [hf] at hf'
          cases hf'
          exact ⟨owner.name, rfl⟩
        · exact absurd hdecl (hno f)
    | none =>
      rw [search_cons_undeclared hl hf] at h
      have hno := not_declares_of_find?_eq_none hl hf
      rw [ih h]
      exact ⟨fun hd => Or.inr ⟨hno, hd⟩, fun hd => hd.elim (fun hd => absurd hd (hno _)) And.right⟩

theorem resolve_isOk_iff {v : VisibleField} : (∃ x, resolve lookup o key v = .ok x) ↔
    (o.fields.find? key = none → ObjectsUpTo lookup key (searchOrder o v)) := by
  unfold resolve
  cases hf : o.fields.find? key with
  | some field => simp
  | none =>
    rw [← search_isOk_iff (o := o)]
    simp only [forall_const]
    constructor
    · rintro ⟨x, h⟩
      obtain ⟨y, hy, -⟩ := Except.bind_eq_ok_iff.mp h
      exact ⟨y, hy⟩
    · rintro ⟨y, hy⟩
      cases y with
      | none => exact ⟨_, Except.bind_eq_ok_iff.mpr ⟨none, hy, rfl⟩⟩
      | some p => exact ⟨_, Except.bind_eq_ok_iff.mpr ⟨some p, hy, rfl⟩⟩

theorem provides_of_resolve {v : VisibleField} {f : ResolvedField}
    (h : resolve lookup o key v = .ok (.ok f)) : Provides lookup o key v f.field := by
  unfold resolve at h
  cases hf : o.fields.find? key with
  | some field =>
    simp only [hf, Except.ok.injEq] at h
    subst h
    exact Or.inl hf
  | none =>
    rw [hf] at h
    obtain ⟨y, hy, h⟩ := Except.bind_eq_ok_iff.mp h
    cases y with
    | none => cases h
    | some p =>
      cases h
      exact Or.inr ⟨hf, (search_eq_some_iff hy).mp ⟨p.2, rfl⟩⟩

theorem resolve_of_provides {v : VisibleField} {x : Except Diagnostic ResolvedField}
    {field : Field} (h : resolve lookup o key v = .ok x) (hp : Provides lookup o key v field) :
    ∃ f, x = .ok f ∧ f.field = field := by
  unfold resolve at h
  rcases hp with hf | ⟨hf, hfirst⟩
  · simp only [hf, Except.ok.injEq] at h
    exact ⟨_, h.symm, rfl⟩
  · rw [hf] at h
    obtain ⟨y, hy, h⟩ := Except.bind_eq_ok_iff.mp h
    obtain ⟨ancestor, rfl⟩ := (search_eq_some_iff hy).mpr hfirst
    cases h
    exact ⟨_, rfl, rfl⟩

/-! ## All visible fields -/

theorem resolveAll_cons_ok_iff {v : VisibleField} {rest : List (String × VisibleField)}
    {fields : List ResolvedField} {reports : List Diagnostic} :
    resolveAll lookup o ((key, v) :: rest) = .ok (fields, reports) ↔
      ∃ one fs ds, resolve lookup o key v = .ok one ∧ resolveAll lookup o rest = .ok (fs, ds) ∧
        (fields, reports) = match one with
          | .ok field => (field :: fs, ds)
          | .error report => (fs, report :: ds) := by
  rw [resolveAll]
  constructor
  · intro h
    obtain ⟨one, hone, h⟩ := Except.bind_eq_ok_iff.mp h
    obtain ⟨⟨fs, ds⟩, hrest, h⟩ := Except.bind_eq_ok_iff.mp h
    refine ⟨one, fs, ds, hone, hrest, ?_⟩
    cases one <;> exact (Except.ok.inj h).symm
  · rintro ⟨one, fs, ds, hone, hrest, h⟩
    refine Except.bind_eq_ok_iff.mpr ⟨one, hone, Except.bind_eq_ok_iff.mpr ⟨(fs, ds), hrest, ?_⟩⟩
    cases one <;> exact congrArg Except.ok h.symm

theorem resolveAll_mono (hext : Extends lookup lookup') {vs : List (String × VisibleField)}
    {x : List ResolvedField × List Diagnostic} (h : resolveAll lookup o vs = .ok x) :
    resolveAll lookup' o vs = .ok x := by
  obtain ⟨fields, reports⟩ := x
  induction vs generalizing fields reports with
  | nil => exact h
  | cons p rest ih =>
    obtain ⟨one, fs, ds, hone, hrest, hx⟩ := resolveAll_cons_ok_iff.mp h
    exact resolveAll_cons_ok_iff.mpr ⟨one, fs, ds, resolve_mono hext hone, ih fs ds hrest, hx⟩

theorem resolveAll_congr {vs : List (String × VisibleField)}
    (h : ∀ p ∈ vs, ∀ name ∈ searchOrder o p.2, lookup name = lookup' name) :
    resolveAll lookup o vs = resolveAll lookup' o vs := by
  induction vs with
  | nil => rfl
  | cons p rest ih =>
    rw [resolveAll, resolveAll, resolve_congr (h p (by simp)), ih fun q hq => h q (by simp [hq])]

theorem resolveAll_isOk_iff {vs : List (String × VisibleField)} :
    (∃ x, resolveAll lookup o vs = .ok x) ↔ ∀ p ∈ vs, ∃ y, resolve lookup o p.1 p.2 = .ok y := by
  induction vs with
  | nil => exact ⟨by simp, fun _ => ⟨_, rfl⟩⟩
  | cons p rest ih =>
    constructor
    · rintro ⟨⟨fields, reports⟩, h⟩
      obtain ⟨one, fs, ds, hone, hrest, -⟩ := resolveAll_cons_ok_iff.mp h
      intro q hq
      rcases List.mem_cons.mp hq with rfl | hq
      · exact ⟨one, hone⟩
      · exact ih.mp ⟨_, hrest⟩ q hq
    · intro h
      obtain ⟨one, hone⟩ := h p (by simp)
      obtain ⟨⟨fs, ds⟩, hrest⟩ := ih.mpr fun q hq => h q (by simp [hq])
      exact ⟨_, resolveAll_cons_ok_iff.mpr ⟨one, fs, ds, hone, hrest, rfl⟩⟩

theorem mem_resolveAll {vs : List (String × VisibleField)} {fields : List ResolvedField}
    {reports : List Diagnostic} (h : resolveAll lookup o vs = .ok (fields, reports))
    {f : ResolvedField} : f ∈ fields ↔ ∃ p ∈ vs, resolve lookup o p.1 p.2 = .ok (.ok f) := by
  induction vs generalizing fields reports with
  | nil => cases h; simp
  | cons p rest ih =>
    obtain ⟨one, fs, ds, hone, hrest, hx⟩ := resolveAll_cons_ok_iff.mp h
    have hfs := ih hrest
    cases one with
    | ok field =>
      cases hx
      simp [hone, hfs, eq_comm]
    | error report =>
      cases hx
      simp [hone, hfs]

end Resolution

end EntityGraph
