import EntityGraph.Proofs.Drafts

/-!
# Drafts of texts with whole numbers

Where a text has no numbers but integers, its draft has none either, and so has every value that is
taken from the draft:

    (Token.ofText s).all (·.integer) → (Draft.ofText s).root.whole            (whole_ofText)
    d.whole → d.value? = some v → v.exact                                     (exact_of_value?)

The property is one of all frames of the machine that reads drafts, and each of its steps keeps it
(`whole_step`).
-/

namespace EntityGraph

/-! ## Algorithm -/

namespace Token

/-- Whether the word is a number that is read as an integer, or no number. -/
def integer : Token → Bool
  | .num (some (.int _)) => true
  | .num _ => false
  | _ => true

/-- Whether the word is a whole number, or no number. -/
def whole : Token → Bool
  | .num n => n.any (·.whole)
  | _ => true

end Token

namespace Draft

mutual

/-- Whether all numbers in a draft are whole. -/
def whole : Draft → Bool
  | .num n => n.any (·.whole)
  | .arr items _ => wholeItems items
  | .obj members _ => wholeMembers members
  | _ => true

def wholeItems : List Draft → Bool
  | [] => true
  | d :: rest => whole d && wholeItems rest

def wholeMembers : List (Draft × Draft) → Bool
  | [] => true
  | (_, d) :: rest => whole d && wholeMembers rest

end

def Frame.whole : Frame → Bool
  | .items done => wholeItems done
  | .members done => wholeMembers done
  | .member done _ => wholeMembers done

def Position.whole : Position → Bool
  | .inside _ stack => stack.all (·.whole)
  | .complete root => root.whole

end Draft

/-! ## Lemmas -/

/-! ### Words -/

namespace Token

theorem number_of_mem_scan {fuel : Nat} {cs : List Char} {n : Option Number}
    (h : .num n ∈ scan fuel cs) : ∃ d : Decimal, n = d.number := by
  induction fuel generalizing cs with
  | zero => cases h
  | succ fuel ih =>
    rw [scan] at h
    split at h
    · cases h
    · split at h
      · simp at h
      · rename_i hfirst
        rcases List.mem_cons.mp h with rfl | hmem
        · exact number_of_first hfirst
        · exact ih hmem

/-- Integers in a text are whole. -/
theorem whole_of_mem_ofText {s : String} {t : Token} (ht : t ∈ ofText s)
    (hinteger : t.integer = true) : t.whole = true := by
  cases t with
  | num n =>
    obtain ⟨d, rfl⟩ := number_of_mem_scan ht
    cases hd : d.number with
    | none => rw [hd] at hinteger; cases hinteger
    | some n =>
      cases n with
      | int n => exact Decimal.whole_of_number hd
      | float x => rw [hd] at hinteger; cases hinteger
  | _ => rfl

end Token

/-! ### Reading -/

namespace Draft

theorem wholeItems_iff {items : List Draft} :
    wholeItems items = true ↔ ∀ d ∈ items, d.whole = true := by
  induction items with
  | nil => simp [wholeItems]
  | cons d rest ih => simp [wholeItems, ih]

theorem wholeMembers_iff {members : List (Draft × Draft)} :
    wholeMembers members = true ↔ ∀ p ∈ members, p.2.whole = true := by
  induction members with
  | nil => simp [wholeMembers]
  | cons p rest ih => simp [wholeMembers, ih]

theorem wholeItems_reverse {items : List Draft} (h : wholeItems items = true) :
    wholeItems items.reverse = true :=
  wholeItems_iff.mpr fun d hd => wholeItems_iff.mp h d (List.mem_reverse.mp hd)

theorem wholeMembers_reverse {members : List (Draft × Draft)} (h : wholeMembers members = true) :
    wholeMembers members.reverse = true :=
  wholeMembers_iff.mpr fun p hp => wholeMembers_iff.mp h p (List.mem_reverse.mp hp)

theorem whole_supply {v : Draft} {stack : List Frame} (hv : v.whole = true)
    (hstack : stack.all (·.whole) = true) : (supply v stack).whole = true := by
  cases stack with
  | nil => exact hv
  | cons frame stack =>
    obtain ⟨hframe, hrest⟩ := Bool.and_eq_true_iff.mp hstack
    cases frame with
    | items done => exact Bool.and_eq_true_iff.mpr ⟨Bool.and_eq_true_iff.mpr ⟨hv, hframe⟩, hrest⟩
    | members done => exact hstack
    | member done key =>
      exact Bool.and_eq_true_iff.mpr ⟨Bool.and_eq_true_iff.mpr ⟨hv, hframe⟩, hrest⟩

theorem whole_start {stack : List Frame} {t : Token} {p : Position} (ht : t.whole = true)
    (hstack : stack.all (·.whole) = true) (h : start stack t = some p) : p.whole = true := by
  cases t with
  | openArray | openObject =>
    cases h
    exact hstack
  | null | bool _ | num _ | str _ =>
    cases h
    exact whole_supply ht hstack
  | _ => cases h

theorem whole_step {stack : List Frame} {awaiting : Awaiting} {t : Token} {p : Position}
    (ht : t.whole = true) (hstack : stack.all (·.whole) = true)
    (h : step stack awaiting t = some p) : p.whole = true := by
  unfold step at h
  split at h
  -- a value starts
  case h_1 | h_3 => exact whole_start ht hstack h
  -- an array ends
  case h_2 | h_9 =>
    split at h
    · cases h
      obtain ⟨hdone, hrest⟩ := Bool.and_eq_true_iff.mp hstack
      exact whole_supply (wholeItems_reverse hdone) hrest
    · cases h
  -- an object ends
  case h_4 | h_10 =>
    split at h
    · cases h
      obtain ⟨hdone, hrest⟩ := Bool.and_eq_true_iff.mp hstack
      exact whole_supply (wholeMembers_reverse hdone) hrest
    · cases h
  -- a key, a colon, a comma
  case h_5 | h_6 =>
    split at h
    · cases h
      exact hstack
    · cases h
  case h_7 =>
    cases h
    exact hstack
  case h_8 =>
    split at h
    · cases h
      exact hstack
    · cases h
      exact hstack
    · cases h
  case h_11 => cases h

theorem whole_abandon {stack : List Frame} {inner : Option Draft}
    (hinner : inner.all (·.whole) = true) (hstack : stack.all (·.whole) = true) :
    (abandon inner stack).whole = true := by
  induction stack generalizing inner with
  | nil =>
    cases inner with
    | none => rfl
    | some d => exact hinner
  | cons frame stack ih =>
    obtain ⟨hframe, hrest⟩ := Bool.and_eq_true_iff.mp hstack
    cases frame with
    | items done =>
      refine ih ?_ hrest
      refine wholeItems_reverse (wholeItems_iff.mpr fun d hd => ?_)
      rcases List.mem_append.mp hd with hd | hd
      · rw [Option.mem_toList] at hd
        simpa [hd] using hinner
      · exact wholeItems_iff.mp hframe d hd
    | members done => exact ih (wholeMembers_reverse hframe) hrest
    | member done key =>
      refine ih (wholeMembers_reverse (Bool.and_eq_true_iff.mpr ⟨?_, hframe⟩)) hrest
      cases inner with
      | none => rfl
      | some d => exact hinner

/-- What is read of whole numbers is whole. -/
theorem whole_readFrom {ts : List Token} {p : Position} (hp : p.whole = true)
    (hts : ∀ t ∈ ts, t.whole = true) : (readFrom p ts).root.whole = true := by
  induction ts generalizing p with
  | nil =>
    cases p with
    | inside awaiting stack => exact whole_abandon rfl hp
    | complete root => exact hp
  | cons t ts ih =>
    cases p with
    | complete root => exact hp
    | inside awaiting stack =>
      rw [readFrom]
      split
      · rename_i hstep
        exact ih (whole_step (hts t List.mem_cons_self) hp hstep)
          fun t' ht' => hts t' (List.mem_cons_of_mem _ ht')
      · exact whole_abandon rfl hp

theorem whole_ofText {s : String} (h : (Token.ofText s).all (·.integer) = true) :
    (ofText s).root.whole = true :=
  whole_readFrom rfl fun _ ht => Token.whole_of_mem_ofText ht (List.all_eq_true.mp h _ ht)

/-! ### Values -/

/-- Induction over drafts, with items and the values of members as smaller drafts. -/
@[induction_eliminator]
theorem induct {motive : Draft → Prop} (null : motive .null) (bool : ∀ b, motive (.bool b))
    (num : ∀ n, motive (.num n)) (minusZero : motive .minusZero) (str : ∀ s, motive (.str s))
    (arr : ∀ items closed, (∀ d ∈ items, motive d) → motive (.arr items closed))
    (obj : ∀ members closed, (∀ p ∈ members, motive p.2) → motive (.obj members closed))
    (broken : motive .broken) (d : Draft) : motive d :=
  @Draft.rec motive (fun items => ∀ d ∈ items, motive d) (fun members => ∀ p ∈ members, motive p.2)
    (fun p => motive p.2) null bool num minusZero str arr obj broken (by simp)
    (fun _ _ hd hrest => List.forall_mem_cons.mpr ⟨hd, hrest⟩) (by simp)
    (fun _ _ hp hrest => List.forall_mem_cons.mpr ⟨hp, hrest⟩) (fun _ _ _ hd => hd) d

theorem exists_of_mem_values {ds : List Draft} {vs : List Json} (h : values? ds = some vs)
    {v : Json} (hv : v ∈ vs) : ∃ d ∈ ds, d.value? = some v := by
  induction ds generalizing vs with
  | nil =>
    cases h
    cases hv
  | cons d ds ih =>
    rw [values?] at h
    obtain ⟨w, hw, ws, hws, heq⟩ : ∃ w, d.value? = some w ∧ ∃ ws, values? ds = some ws ∧
        w :: ws = vs := by simpa [Option.bind_eq_some_iff] using h
    subst heq
    rcases List.mem_cons.mp hv with rfl | hv
    · exact ⟨d, List.mem_cons_self, hw⟩
    · obtain ⟨e, he, hvalue⟩ := ih hws hv
      exact ⟨e, List.mem_cons_of_mem _ he, hvalue⟩

theorem exists_of_mem_memberValues {ds : List (Draft × Draft)} {ms : List (String × Json)}
    (h : memberValues? ds = some ms) {p : String × Json} (hp : p ∈ ms) :
    ∃ q ∈ ds, q.2.value? = some p.2 := by
  induction ds generalizing ms with
  | nil =>
    cases h
    cases hp
  | cons q ds ih =>
    obtain ⟨key, d⟩ := q
    cases key with
    | str key =>
      cases key with
      | none => simp [memberValues?] at h
      | some key =>
        obtain ⟨w, hw, ws, hws, heq⟩ : ∃ w, d.value? = some w ∧ ∃ ws, memberValues? ds = some ws ∧
            (key, w) :: ws = ms := by simpa [memberValues?, Option.bind_eq_some_iff] using h
        subst heq
        rcases List.mem_cons.mp hp with rfl | hp
        · exact ⟨_, List.mem_cons_self, hw⟩
        · obtain ⟨q, hq, hvalue⟩ := ih hws hp
          exact ⟨q, List.mem_cons_of_mem _ hq, hvalue⟩
    | _ => simp [memberValues?] at h

/-- A value that is taken from an intact draft is as texts have it, and no deeper. -/
theorem exact_of_value? {d : Draft} {room : Nat} {v : Json} (hwhole : d.whole = true)
    (hintact : d.intact room = true) (hv : d.value? = some v) :
    (v.whole = true ∧ v.distinct = true) ∧ v.depth ≤ room := by
  induction d generalizing room v with
  | arr items closed ih =>
    rw [value?, Option.map_eq_some_iff] at hv
    obtain ⟨vs, hvs, rfl⟩ := hv
    simp only [intact, Bool.and_eq_true, decide_eq_true_eq, intactItems_iff] at hintact
    obtain ⟨⟨-, hroom⟩, hitems⟩ := hintact
    have hvalues (w : Json) (hw : w ∈ vs) :
        (w.whole = true ∧ w.distinct = true) ∧ w.depth ≤ room - 1 := by
      obtain ⟨d, hd, hvalue⟩ := exists_of_mem_values hvs hw
      exact ih d hd (wholeItems_iff.mp hwhole d hd) (hitems d hd) hvalue
    have hdepth : Json.depthItems vs ≤ room - 1 :=
      Json.depthItems_le_iff.mpr fun w hw => (hvalues w hw).2
    refine ⟨⟨?_, ?_⟩, ?_⟩
    · exact Json.wholeItems_iff.mpr fun w hw => (hvalues w hw).1.1
    · exact Json.distinctItems_iff.mpr fun w hw => (hvalues w hw).1.2
    · rw [Json.depth]
      omega
  | obj members closed ih =>
    rw [value?, Option.map_eq_some_iff] at hv
    obtain ⟨ms, hms, rfl⟩ := hv
    simp only [intact, Bool.and_eq_true, decide_eq_true_eq, intactMembers_iff] at hintact
    obtain ⟨⟨-, hroom⟩, hmembers⟩ := hintact
    have hvalues (p : String × Json) (hp : p ∈ Assoc.insertAll [] ms) :
        (p.2.whole = true ∧ p.2.distinct = true) ∧ p.2.depth ≤ room - 1 := by
      have hp := (Assoc.mem_insertAll (by simp) hp).resolve_left List.not_mem_nil
      obtain ⟨q, hq, hvalue⟩ := exists_of_mem_memberValues hms hp
      exact ih q hq (wholeMembers_iff.mp hwhole q hq) (hmembers q hq).2 hvalue
    have hdepth : Json.depthMembers (Assoc.insertAll [] ms) ≤ room - 1 :=
      Json.depthMembers_le_iff.mpr fun p hp => (hvalues p hp).2
    have hnodup : (Assoc.keys (Assoc.insertAll [] ms)).Nodup :=
      Assoc.nodup_keys_insertAll List.nodup_nil
    refine ⟨⟨?_, ?_⟩, ?_⟩
    · exact Json.wholeMembers_iff.mpr fun p hp => (hvalues p hp).1.1
    · rw [Json.distinct, Bool.and_eq_true, decide_eq_true_eq, Json.distinctMembers_iff]
      exact ⟨hnodup, fun p hp => (hvalues p hp).1.2⟩
    · rw [Json.depth]
      omega
  | num n =>
    obtain ⟨n, rfl, hn⟩ := (Option.any_eq_true ..).mp hwhole
    cases n with
    | int n =>
      cases hv
      exact ⟨⟨hn, rfl⟩, Nat.zero_le _⟩
    | float x => cases hn
  | str s =>
    rw [value?, Option.map_eq_some_iff] at hv
    obtain ⟨s, -, rfl⟩ := hv
    exact ⟨⟨rfl, rfl⟩, Nat.zero_le _⟩
  | null | bool | minusZero =>
    cases hv
    exact ⟨⟨rfl, rfl⟩, Nat.zero_le _⟩
  | broken => cases hv

/-- Null is the value of null only. -/
theorem eq_null_of_value? {d : Draft} (hwhole : d.whole = true) (hv : d.value? = some .null) :
    d = .null := by
  cases d with
  | null => rfl
  | num n =>
    obtain ⟨n, rfl, hn⟩ := (Option.any_eq_true ..).mp hwhole
    cases n with
    | int n => cases hv
    | float x => cases hn
  | str s => simp [value?] at hv
  | arr items closed => simp [value?] at hv
  | obj members closed => simp [value?] at hv
  | _ => cases hv

end Draft

end EntityGraph
