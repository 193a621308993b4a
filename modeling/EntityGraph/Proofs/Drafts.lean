import EntityGraph.Json.Draft
import EntityGraph.Proofs.Words
import Mathlib.Data.List.Nodup

/-!
# Drafts of written values

The draft of a text that has been written is the tree of the value, with all brackets closed:

    Draft.ofText (v.text l) = ⟨v.draft, false⟩                               (Draft.ofText_text)

Such a draft is intact as far as its brackets fit (`intact_draft`), and its value is `v` again if no
object in `v` has two members of one name (`value?_draft`).
-/

namespace EntityGraph

/-! ## Algorithm -/

namespace Json

mutual

/-- The tree of a value, with nothing left open. -/
def draft : Json → Draft
  | .null => .null
  | .bool b => .bool b
  | .num n => .num (some n)
  | .str s => .str (some s)
  | .arr items => .arr (draftItems items) true
  | .obj members => .obj (draftMembers members) true

def draftItems : List Json → List Draft
  | [] => []
  | v :: rest => draft v :: draftItems rest

def draftMembers : List (String × Json) → List (Draft × Draft)
  | [] => []
  | (k, v) :: rest => (.str (some k), draft v) :: draftMembers rest

end

mutual

/-- Whether all names of members are distinct, in each object of a value. -/
def distinct : Json → Bool
  | .arr items => distinctItems items
  | .obj members => (Assoc.keys members).Nodup && distinctMembers members
  | _ => true

def distinctItems : List Json → Bool
  | [] => true
  | v :: rest => distinct v && distinctItems rest

def distinctMembers : List (String × Json) → Bool
  | [] => true
  | (_, v) :: rest => distinct v && distinctMembers rest

end

/-- Whether a value is as texts have it: its numbers are whole, and no name is there twice. -/
def exact (v : Json) : Bool := v.whole && v.distinct

end Json

/-! ## Lemmas -/

namespace Assoc

/-- Pairs with new keys are put behind. -/
theorem insertAll_of_nodup {α : Type} {base l : List (String × α)}
    (h : (keys (base ++ l)).Nodup) : insertAll base l = base ++ l := by
  induction l generalizing base with
  | nil => rw [insertAll, List.append_nil]
  | cons p rest ih =>
    have hassoc : base ++ p :: rest = (base ++ [p]) ++ rest := by simp
    have hnew : p.1 ∉ keys base := by
      rw [keys_append, List.nodup_append] at h
      exact fun hmem => h.2.2 _ hmem p.1 List.mem_cons_self rfl
    rw [hassoc] at h ⊢
    rw [insertAll, insert_of_not_mem hnew]
    exact ih h

end Assoc

namespace Json

theorem draftItems_eq (items : List Json) : draftItems items = items.map draft := by
  induction items with
  | nil => rfl
  | cons v rest ih => rw [draftItems, ih, List.map_cons]

theorem draftMembers_eq (members : List (String × Json)) :
    draftMembers members = members.map fun p => (.str (some p.1), p.2.draft) := by
  induction members with
  | nil => rfl
  | cons p rest ih => rw [draftMembers, ih, List.map_cons]

theorem distinctItems_iff {items : List Json} :
    distinctItems items = true ↔ ∀ v ∈ items, v.distinct = true := by
  induction items with
  | nil => simp [distinctItems]
  | cons v rest ih => simp [distinctItems, ih]

theorem distinctMembers_iff {members : List (String × Json)} :
    distinctMembers members = true ↔ ∀ p ∈ members, p.2.distinct = true := by
  induction members with
  | nil => simp [distinctMembers]
  | cons p rest ih => simp [distinctMembers, ih]

end Json

namespace Draft

open Json

/-! ### Reading words -/

/-- The words of the value are taken for the value. -/
def Takes (v : Json) : Prop := ∀ awaiting stack ts, awaiting = .value ∨ awaiting = .item →
  readFrom (.inside awaiting stack) (v.tokens ts) = readFrom (supply v.draft stack) ts

theorem readFrom_tokensItems {xs : List Json} (hxs : ∀ x ∈ xs, Takes x) (done : List Draft)
    (stack : List Frame) (ts : List Token) :
    readFrom (.inside .next (.items done :: stack)) (tokensItems xs (.closeArray :: ts)) =
      readFrom (supply (.arr (done.reverse ++ draftItems xs) true) stack) ts := by
  induction xs generalizing done with
  | nil => rw [draftItems, List.append_nil]; rfl
  | cons x xs ih =>
    have hx := hxs x List.mem_cons_self .value (.items done :: stack)
      (tokensItems xs (.closeArray :: ts)) (Or.inl rfl)
    have hrest := ih (fun y hy => hxs y (List.mem_cons_of_mem _ hy)) (x.draft :: done)
    rw [List.reverse_cons, List.append_assoc] at hrest
    rw [tokensItems, draftItems]
    exact hx.trans hrest

theorem readFrom_tokensMembers {ms : List (String × Json)} (hms : ∀ p ∈ ms, Takes p.2)
    (done : List (Draft × Draft)) (stack : List Frame) (ts : List Token) :
    readFrom (.inside .next (.members done :: stack)) (tokensMembers ms (.closeObject :: ts)) =
      readFrom (supply (.obj (done.reverse ++ draftMembers ms) true) stack) ts := by
  induction ms generalizing done with
  | nil => rw [draftMembers, List.append_nil]; rfl
  | cons p ms ih =>
    obtain ⟨k, v⟩ := p
    have hv := hms (k, v) List.mem_cons_self .value (.member done (.str (some k)) :: stack)
      (tokensMembers ms (.closeObject :: ts)) (Or.inl rfl)
    have hrest := ih (fun q hq => hms q (List.mem_cons_of_mem _ hq))
      ((.str (some k), v.draft) :: done)
    rw [List.reverse_cons, List.append_assoc] at hrest
    rw [tokensMembers, draftMembers]
    exact hv.trans hrest

theorem takes (v : Json) : Takes v := by
  induction v with
  | null => rintro _ stack ts (rfl | rfl) <;> rfl
  | bool b => rintro _ stack ts (rfl | rfl) <;> rfl
  | num n => rintro _ stack ts (rfl | rfl) <;> rfl
  | str s => rintro _ stack ts (rfl | rfl) <;> rfl
  | arr items ih =>
    intro awaiting stack ts hawaiting
    have hopen (after : List Token) : readFrom (.inside awaiting stack) (.openArray :: after) =
        readFrom (.inside .item (.items [] :: stack)) after := by
      rcases hawaiting with rfl | rfl <;> rfl
    cases items with
    | nil => exact hopen (.closeArray :: ts)
    | cons x xs =>
      have hx := ih x List.mem_cons_self .item (.items [] :: stack)
        (tokensItems xs (.closeArray :: ts)) (Or.inr rfl)
      have hrest := readFrom_tokensItems (fun y hy => ih y (List.mem_cons_of_mem _ hy))
        [x.draft] stack ts
      exact (hopen _).trans (hx.trans hrest)
  | obj members ih =>
    intro awaiting stack ts hawaiting
    have hopen (after : List Token) : readFrom (.inside awaiting stack) (.openObject :: after) =
        readFrom (.inside .key (.members [] :: stack)) after := by
      rcases hawaiting with rfl | rfl <;> rfl
    cases members with
    | nil => exact hopen (.closeObject :: ts)
    | cons p ms =>
      obtain ⟨k, v⟩ := p
      have hv := ih (k, v) List.mem_cons_self .value (.member [] (.str (some k)) :: stack)
        (tokensMembers ms (.closeObject :: ts)) (Or.inl rfl)
      have hrest := readFrom_tokensMembers (fun q hq => ih q (List.mem_cons_of_mem _ hq))
        [(.str (some k), v.draft)] stack ts
      exact (hopen _).trans (hv.trans hrest)

/-- **The draft of a written value** is its tree. -/
theorem ofText_text {l : Layout} (hl : l.Blank) {v : Json} (hv : v.whole = true) :
    ofText (v.text l) = ⟨v.draft, false⟩ := by
  rw [ofText, Token.ofText_text hl hv]
  exact takes v .value [] [] (Or.inl rfl)

/-! ### Values -/

theorem intactItems_iff {room : Nat} {ds : List Draft} :
    intactItems room ds = true ↔ ∀ d ∈ ds, d.intact room = true := by
  induction ds with
  | nil => simp [intactItems]
  | cons d rest ih => simp [intactItems, ih]

theorem intactMembers_iff {room : Nat} {ms : List (Draft × Draft)} :
    intactMembers room ms = true ↔
      ∀ p ∈ ms, p.1.intact room = true ∧ p.2.intact room = true := by
  induction ms with
  | nil => simp [intactMembers]
  | cons p rest ih => simp [intactMembers, ih]

/-- The tree of a value is intact if its brackets fit. -/
theorem intact_draft {v : Json} {room : Nat} (h : v.depth ≤ room) : v.draft.intact room = true := by
  induction v generalizing room with
  | arr items ih =>
    rw [depth] at h
    have hitems : depthItems items ≤ room - 1 := by omega
    have hpos : 0 < room := by omega
    rw [draft, draftItems_eq, intact, Bool.true_and, Bool.and_eq_true, decide_eq_true_eq,
      intactItems_iff]
    refine ⟨hpos, fun d hd => ?_⟩
    obtain ⟨v, hv, rfl⟩ := List.mem_map.mp hd
    exact ih v hv (depthItems_le_iff.mp hitems v hv)
  | obj members ih =>
    rw [depth] at h
    have hmembers : depthMembers members ≤ room - 1 := by omega
    have hpos : 0 < room := by omega
    rw [draft, draftMembers_eq, intact, Bool.true_and, Bool.and_eq_true, decide_eq_true_eq,
      intactMembers_iff]
    refine ⟨hpos, fun d hd => ?_⟩
    obtain ⟨p, hp, rfl⟩ := List.mem_map.mp hd
    exact ⟨rfl, ih p hp (depthMembers_le_iff.mp hmembers p hp)⟩
  | _ => rfl

/-- The value of the tree of a value. -/
theorem value?_draft {v : Json} (hwhole : v.whole = true) (hdistinct : v.distinct = true) :
    v.draft.value? = some v := by
  induction v with
  | num n =>
    cases n with
    | int n => rfl
    | float x => cases hwhole
  | arr items ih =>
    have hwhole := wholeItems_iff.mp hwhole
    have hdistinct := distinctItems_iff.mp hdistinct
    have hvalues : ∀ xs : List Json, (∀ x ∈ xs, x ∈ items) → values? (draftItems xs) = some xs := by
      intro xs hxs
      induction xs with
      | nil => rfl
      | cons x xs ihxs =>
        have hx := hxs x List.mem_cons_self
        rw [draftItems, values?, ih x hx (hwhole x hx) (hdistinct x hx),
          ihxs fun y hy => hxs y (List.mem_cons_of_mem _ hy)]
        rfl
    rw [draft, value?, hvalues items fun _ hx => hx]
    rfl
  | obj members ih =>
    have hwhole := wholeMembers_iff.mp hwhole
    rw [distinct, Bool.and_eq_true, decide_eq_true_eq, distinctMembers_iff] at hdistinct
    have hvalues : ∀ ms : List (String × Json), (∀ p ∈ ms, p ∈ members) →
        memberValues? (draftMembers ms) = some ms := by
      intro ms hms
      induction ms with
      | nil => rfl
      | cons p ms ihms =>
        have hp := hms p List.mem_cons_self
        rw [draftMembers, memberValues?, ih p hp (hwhole p hp) (hdistinct.2 p hp),
          ihms fun q hq => hms q (List.mem_cons_of_mem _ hq)]
        rfl
    rw [draft, value?, hvalues members fun _ hp => hp, Option.map_some,
      Assoc.insertAll_of_nodup (by exact hdistinct.1)]
    rfl
  | _ => rfl

end Draft

end EntityGraph
