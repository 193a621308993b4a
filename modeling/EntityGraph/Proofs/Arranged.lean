import EntityGraph.Proofs.Settled

/-!
# The order of what is shown

In an object that inherits, the fields of a later ancestor in the inherit list come first and those
of no ancestor in it last; of the fields of one owner, and of owners outside the list, a lower index
comes first, and then what is exposed first.  Without ancestors the order is that of the visible
fields.  `Object.Precedes` is this order.

    (arrange o resolved).Pairwise o.Precedes                                  (pairwise_arrange)

An order by keys that are all different is strict and total, so it says of any two fields which one
comes first, and it says the same on both sides.
-/

namespace EntityGraph

open Normalize

/-! ## Algorithm -/

namespace Object

/-- The first place of a name in the inherit list, or `-1`. -/
def rankOf (o : Object) (owner : String) : Int :=
  if owner ∈ o.ancestors then o.ancestors.idxOf owner else -1

/-- The place of a key among the visible fields. -/
def placeOf (o : Object) (key : String) : Nat := o.visibleFields.keys.idxOf key

/-- The order in which the fields of an object are shown. -/
inductive Precedes (o : Object) (a b : ResolvedField) : Prop
  | exposed : o.ancestors = [] → o.placeOf a.key < o.placeOf b.key → Precedes o a b
  | rank : o.ancestors ≠ [] → o.rankOf b.field.owner < o.rankOf a.field.owner → Precedes o a b
  | index : o.ancestors ≠ [] → o.rankOf a.field.owner = o.rankOf b.field.owner →
      a.field.index < b.field.index → Precedes o a b
  | place : o.ancestors ≠ [] → o.rankOf a.field.owner = o.rankOf b.field.owner →
      a.field.index = b.field.index → o.placeOf a.key < o.placeOf b.key → Precedes o a b

end Object

/-- What the two schemas show of the object `o` under a name, in order. -/
structure Normalized.Arranged (g : Graph) (n : Normalized) (name : String) (o : Object)
    (shown : Side → List ResolvedField) : Prop where
  copies : ∀ s : Side, List.Forall₂ s.Copies (shown s) (s.fieldsOf n name)
  settled : ∀ (s : Side) (f : ResolvedField), f ∈ shown s ↔ s.declared f.field = true ∧
    ∃ p ∈ o.visibleFields.entries, Resolution.Settles (n.lookup g) o p.1 p.2 (.ok f)
  ordered : ∀ (s : Side) (i j : Nat) (hi : i < (shown s).length) (hj : j < (shown s).length),
    i < j ↔ o.Precedes ((shown s)[i]) ((shown s)[j])
  /-- Fields that both schemas show are in the same order there. -/
  agree : ∀ (i j i' j' : Nat) (a b : ResolvedField),
    (shown .input)[i]? = some a → (shown .input)[j]? = some b →
    (shown .output)[i']? = some a → (shown .output)[j']? = some b → (i < j ↔ i' < j')

/-! ## Lemmas -/

namespace Object

variable {o : Object} {a b c : ResolvedField}

theorem precedes_iff_of_nil (h : o.ancestors = []) :
    o.Precedes a b ↔ o.placeOf a.key < o.placeOf b.key := by
  constructor
  · rintro (⟨-, hlt⟩ | ⟨hne, -⟩ | ⟨hne, -⟩ | ⟨hne, -⟩)
    · exact hlt
    all_goals exact absurd h hne
  · exact .exposed h

theorem precedes_iff_of_ne_nil (h : o.ancestors ≠ []) : o.Precedes a b ↔
    o.rankOf b.field.owner < o.rankOf a.field.owner ∨
      o.rankOf a.field.owner = o.rankOf b.field.owner ∧
        (a.field.index.toNat < b.field.index.toNat ∨
          a.field.index.toNat = b.field.index.toNat ∧ o.placeOf a.key < o.placeOf b.key) := by
  constructor
  · rintro (⟨hnil, -⟩ | ⟨-, hrank⟩ | ⟨-, hrank, hindex⟩ | ⟨-, hrank, hindex, hplace⟩)
    · exact absurd hnil h
    · exact Or.inl hrank
    · exact Or.inr ⟨hrank, Or.inl (UInt64.lt_iff_toNat_lt.mp hindex)⟩
    · exact Or.inr ⟨hrank, Or.inr ⟨congrArg UInt64.toNat hindex, hplace⟩⟩
  · rintro (hrank | ⟨hrank, hindex | ⟨hindex, hplace⟩⟩)
    · exact .rank h hrank
    · exact .index h hrank (UInt64.lt_iff_toNat_lt.mpr hindex)
    · exact .place h hrank (UInt64.toNat_inj.mp hindex) hplace

theorem Precedes.asymm (h : o.Precedes a b) : ¬ o.Precedes b a := by
  by_cases hnil : o.ancestors = []
  · rw [precedes_iff_of_nil hnil] at h ⊢
    omega
  · rw [precedes_iff_of_ne_nil hnil] at h ⊢
    omega

theorem Precedes.trans (hab : o.Precedes a b) (hbc : o.Precedes b c) : o.Precedes a c := by
  by_cases hnil : o.ancestors = []
  · rw [precedes_iff_of_nil hnil] at *
    omega
  · rw [precedes_iff_of_ne_nil hnil] at *
    omega

/-- In a list that is sorted the order of two fields is that of their places. -/
theorem lt_iff_precedes {fields : List ResolvedField} (h : fields.Pairwise o.Precedes) {i j : Nat}
    (hi : i < fields.length) (hj : j < fields.length) :
    i < j ↔ o.Precedes fields[i] fields[j] := by
  refine ⟨fun hlt => List.pairwise_iff_getElem.mp h i j hi hj hlt, fun hprec => ?_⟩
  rcases Nat.lt_trichotomy i j with hlt | rfl | hlt
  · exact hlt
  · exact absurd hprec hprec.asymm
  · exact absurd (List.pairwise_iff_getElem.mp h j i hj hi hlt) hprec.asymm

end Object

namespace FieldOrder

open Object

variable {o : Object} {f a b : ResolvedField} {fields : List ResolvedField}

theorem rank_eq (o : Object) (f : ResolvedField) :
    rank o.ancestors f = o.rankOf f.field.owner := by
  unfold rank Object.rankOf
  by_cases hmem : f.field.owner ∈ o.ancestors
  · have hfound : o.ancestors.findIdx? (· = f.field.owner) =
        some (o.ancestors.idxOf f.field.owner) := by
      rw [List.findIdx?_eq_some_iff_findIdx_eq]
      refine ⟨List.idxOf_lt_length_of_mem hmem, ?_⟩
      simp only [List.idxOf, beq_eq_decide]
    rw [hfound, if_pos hmem]
  · have hnone : o.ancestors.findIdx? (· = f.field.owner) = none := by
      rw [List.findIdx?_eq_none_iff]
      intro a ha
      exact decide_eq_false fun heq => hmem (heq ▸ ha)
    rw [hnone, if_neg hmem]

theorem before_iff : before o.ancestors a b = true ↔
    o.rankOf b.field.owner < o.rankOf a.field.owner ∨
      o.rankOf a.field.owner = o.rankOf b.field.owner ∧
        a.field.index.toNat < b.field.index.toNat := by
  simp only [before, rank_eq, Bool.or_eq_true, Bool.and_eq_true, decide_eq_true_eq,
    UInt64.lt_iff_toNat_lt]

theorem precedes_of_before (h : o.ancestors ≠ []) (hbefore : before o.ancestors a b = true) :
    o.Precedes a b := by
  rw [before_iff] at hbefore
  rw [precedes_iff_of_ne_nil h]
  omega

theorem precedes_of_not_before (h : o.ancestors ≠ []) (hbefore : ¬ before o.ancestors b a = true)
    (hplace : o.placeOf a.key < o.placeOf b.key) : o.Precedes a b := by
  rw [before_iff] at hbefore
  rw [precedes_iff_of_ne_nil h]
  omega

/-- A field is put where it belongs if it has been exposed before all that are there. -/
theorem pairwise_place (h : o.ancestors ≠ []) (hfields : fields.Pairwise o.Precedes)
    (hfirst : ∀ a ∈ fields, o.placeOf f.key < o.placeOf a.key) :
    (place o.ancestors f fields).Pairwise o.Precedes := by
  induction fields with
  | nil => simp [place]
  | cons a rest ih =>
    obtain ⟨ha, hrest⟩ := List.pairwise_cons.mp hfields
    unfold place
    split
    next hbefore =>
      have haf := precedes_of_before h hbefore
      refine List.pairwise_cons.mpr ⟨fun b hb => ?_, ih hrest fun b hb => hfirst b (by simp [hb])⟩
      rcases List.mem_cons.mp ((place_perm _ f rest).mem_iff.mp hb) with rfl | hb
      · exact haf
      · exact ha b hb
    next hbefore =>
      have hfa := precedes_of_not_before h hbefore (hfirst a (by simp))
      refine List.pairwise_cons.mpr ⟨fun b hb => ?_, hfields⟩
      rcases List.mem_cons.mp hb with rfl | hb
      · exact hfa
      · exact hfa.trans (ha b hb)

theorem pairwise_sort (h : o.ancestors ≠ [])
    (hfields : fields.Pairwise fun a b => o.placeOf a.key < o.placeOf b.key) :
    (sort o.ancestors fields).Pairwise o.Precedes := by
  induction fields with
  | nil => exact .nil
  | cons f rest ih =>
    obtain ⟨hf, hrest⟩ := List.pairwise_cons.mp hfields
    exact pairwise_place h (ih hrest) fun a ha => hf a ((sort_perm _ rest).mem_iff.mp ha)

/-- **Fields that are in the order in which they are exposed are arranged as they should be.** -/
theorem pairwise_arrange
    (hfields : fields.Pairwise fun a b => o.placeOf a.key < o.placeOf b.key) :
    (arrange o fields).Pairwise o.Precedes := by
  unfold arrange
  split
  next hnil =>
    exact hfields.imp fun hlt => .exposed (List.isEmpty_iff.mp hnil) hlt
  next hne =>
    exact pairwise_sort (fun hnil => hne (List.isEmpty_iff.mpr hnil)) hfields

end FieldOrder

namespace Resolution

variable {lookup : String → Option Node} {o : Object} {f : ResolvedField}

theorem Settles.key_eq {key : String} {v : VisibleField}
    (h : Settles lookup o key v (.ok f)) : f.key = key := by
  cases h <;> rfl

/-- What is settled stands in the order of the visible fields. -/
theorem keys_settled {vs : List (String × VisibleField)}
    {outcomes : List (Except Diagnostic ResolvedField)}
    (h : List.Forall₂ (fun p x => Settles lookup o p.1 p.2 x) vs outcomes) :
    ((outcomes.filterMap settled?).map (·.key)).Sublist (Assoc.keys vs) := by
  induction h with
  | nil => exact .slnil
  | @cons p x vs outcomes hx hall ih =>
    cases x with
    | ok f =>
      have hkey : f.key = p.1 := hx.key_eq
      rw [Assoc.keys_cons, ← hkey]
      exact ih.cons_cons f.key
    | error d => exact ih.cons p.1

/-- No key is exposed twice, so keys that are in order are at places that are in order. -/
theorem pairwise_placeOf {keys : List String} (hkeys : keys.Sublist o.visibleFields.keys) :
    keys.Pairwise fun a b => o.placeOf a < o.placeOf b := by
  refine List.Pairwise.sublist hkeys (List.pairwise_iff_getElem.mpr fun i j hi hj hlt => ?_)
  have hnodup : o.visibleFields.keys.Nodup := o.visibleFields.nodup
  rwa [Object.placeOf, Object.placeOf, hnodup.idxOf_getElem, hnodup.idxOf_getElem]

theorem mem_settled_iff {vs : List (String × VisibleField)}
    {outcomes : List (Except Diagnostic ResolvedField)}
    (h : List.Forall₂ (fun p x => Settles lookup o p.1 p.2 x) vs outcomes) :
    f ∈ outcomes.filterMap settled? ↔ ∃ p ∈ vs, Settles lookup o p.1 p.2 (.ok f) := by
  have hall := resolveAll_ok_iff.mpr ⟨outcomes, h, rfl, rfl⟩
  simp only [mem_resolveAll hall, resolve_ok_iff]

end Resolution

namespace Normalize

variable {g : Graph} {h : List Visit} {st : State}

theorem arranged_visit (hc : Consistent g h st) {v : Visit} (hv : v ∈ h) {o : Object}
    (hnode : v.entry.node = .object o) (ho : o.isTemplate = false) :
    ∃ shown, st.result.Arranged g v.entry.name o shown := by
  have hreport := hc.reported v hv
  rw [hnode] at hreport
  obtain ⟨resolved, reports, hres, hobject⟩ := (report_object_ok_iff ho).mp hreport
  obtain ⟨outcomes, hall, hresolved, -⟩ := Resolution.resolveAll_ok_iff.mp hres
  have hplaces : resolved.Pairwise fun a b => o.placeOf a.key < o.placeOf b.key := by
    have hkeys := Resolution.pairwise_placeOf (Resolution.keys_settled hall)
    rwa [List.pairwise_map, ← hresolved] at hkeys
  have hsorted : ∀ s : Side, (s.select (FieldOrder.arrange o resolved)).Pairwise o.Precedes :=
    fun s => (FieldOrder.pairwise_arrange hplaces).filter _
  refine ⟨fun s => s.select (FieldOrder.arrange o resolved), ?_⟩
  refine
    { copies := fun s => ?_
      settled := fun s f => ?_
      ordered := fun s i j hi hj => Object.lt_iff_precedes (hsorted s) hi hj
      agree := fun i j i' j' a b hi hj hi' hj' => ?_ }
  · rw [Side.fieldsOf_visit hc hv hobject]
    exact s.copies_select _
  · rw [lookup_result hc, Side.select, List.mem_filter, (FieldOrder.arrange_perm o _).mem_iff,
      hresolved, Resolution.mem_settled_iff hall, and_comm]
  · obtain ⟨hlti, rfl⟩ := List.getElem?_eq_some_iff.mp hi
    obtain ⟨hltj, rfl⟩ := List.getElem?_eq_some_iff.mp hj
    obtain ⟨hlti', heqi⟩ := List.getElem?_eq_some_iff.mp hi'
    obtain ⟨hltj', heqj⟩ := List.getElem?_eq_some_iff.mp hj'
    rw [Object.lt_iff_precedes (hsorted .input) hlti hltj,
      Object.lt_iff_precedes (hsorted .output) hlti' hltj', heqi, heqj]

end Normalize

/-- **Fields are shown in order.**  When a normalization succeeds, the fields that the schemas show
of an object are in the order of their ranks, indices and places, in both schemas alike.  Every
object in a schema is a side of such an object. -/
theorem Graph.normalize_arranged {g : Graph} {n : Normalized} (hn : g.normalize = .ok n) :
    (∀ name o, n.Shows g name o → ∃ shown, n.Arranged g name o shown) ∧
    ∀ (s : Side) (name : String) (x : ObjectSchema s.SchemaField),
      (s.schema n).find? name = some (.object x) →
      s.fieldsOf n name = x.fields ∧ ∃ o, n.Shows g name o := by
  obtain ⟨h, st, hrun, hcomplete, rfl⟩ := Graph.normalize_ok hn
  have hc := hrun.consistent
  constructor
  · intro name o hshows
    obtain ⟨v, hv, rfl, hnode, ho⟩ := (shows_result_iff hc hcomplete).mp hshows
    exact arranged_visit hc hv hnode ho
  · intro s name x hx
    obtain ⟨v, hv, hname, o, resolved, reports, hnode, ho, -⟩ := (Side.find?_object_iff hc).mp hx
    refine ⟨by rw [Side.fieldsOf, hx]; rfl, o, ?_⟩
    exact (shows_result_iff hc hcomplete).mpr ⟨v, hv, hname, hnode, ho⟩

theorem Graph.normalize_arranged_albums : ∃ n, albums.normalize = .ok n ∧
    (Side.input.fieldsOf n "Album").map (·.name) = ["title", "format", "year", "artist"] ∧
    (Side.output.fieldsOf n "Album").map (·.name) =
      ["title", "format", "year", "artist", "rating"] ∧
    (∀ name o, n.Shows albums name o → ∃ shown, n.Arranged albums name o shown) ∧
    ∀ (s : Side) (name : String) (x : ObjectSchema s.SchemaField),
      (s.schema n).find? name = some (.object x) →
      s.fieldsOf n name = x.fields ∧ ∃ o, n.Shows albums name o :=
  ⟨_, rfl, rfl, rfl, normalize_arranged rfl⟩

end EntityGraph
