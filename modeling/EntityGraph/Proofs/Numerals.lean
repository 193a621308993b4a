import EntityGraph.Json.Printer
import EntityGraph.Json.Token
import Mathlib.Tactic.SplitIfs

/-!
# Numerals are read back

A number that is whole and fits into 64 bits, with or without a sign, is read back from its text:

    n.whole → Apart rest → first (n.text ++ rest) = some (.num (some n), rest)      (first_number)

A numeral goes on as long as there are digits, so what stands behind it has to be something else
(`Apart`).  The other way round, what is read as an integer is whole (`whole_of_number`): all other
numbers are floats, zero with a minus sign among them.  A float has no place here, since its text is
read with a rounding of its own.
-/

namespace EntityGraph

/-! ## Algorithm -/

/-- A whole number that fits into 64 bits, with or without a sign. -/
def Number.whole : Number → Bool
  | .int n => -(Nat.pow 2 63 : Int) ≤ n && n < (Nat.pow 2 64 : Int)
  | .float _ => false

namespace Token

/-- The text does not go on with a number. -/
def Apart (cs : List Char) : Prop :=
  ∀ c ∈ cs.head?, digit? c = false ∧ c ≠ '.' ∧ c ≠ 'e' ∧ c ≠ 'E'

end Token

/-! ## Lemmas -/

namespace Number

theorem whole_int_iff {n : Int} : (Number.int n).whole = true ↔
    -9223372036854775808 ≤ n ∧ n < 18446744073709551616 := by
  rw [whole, Bool.and_eq_true, decide_eq_true_eq, decide_eq_true_eq]
  exact Iff.rfl

end Number

namespace Decimal

/-- Digits only make a number larger. -/
theorem le_foldl_digits (ds : List Nat) (n : Nat) : n ≤ ds.foldl (fun n d => n * 10 + d) n := by
  induction ds generalizing n with
  | nil => exact Nat.le_refl _
  | cons d rest ih =>
    have h := ih (n * 10 + d)
    rw [List.foldl_cons]
    omega

theorem takeDigits_of_lt {ds : List Nat} {n : Nat}
    (h : ds.foldl (fun n d => n * 10 + d) n < significandLimit) :
    takeDigits n ds = (ds.foldl (fun n d => n * 10 + d) n, []) := by
  induction ds generalizing n with
  | nil => rfl
  | cons d rest ih =>
    have hle := le_foldl_digits rest (n * 10 + d)
    rw [List.foldl_cons] at h ⊢
    unfold takeDigits
    rw [if_pos (Nat.lt_of_le_of_lt hle h), ih h]

theorem number_of_lt {ds : List Nat} (negative : Bool) {n : Nat} (hn : toNat ds = n)
    (hlt : n < significandLimit) (hnegative : negative = true → 0 < n ∧ n ≤ Nat.pow 2 63) :
    number ⟨negative, ds, none, none⟩ = some (.int (if negative then -n else n)) := by
  unfold toNat at hn
  subst hn
  unfold number
  rw [takeDigits_of_lt hlt]
  cases negative with
  | false => rfl
  | true =>
    obtain ⟨hpos, hle⟩ := hnegative rfl
    have hsmall : ¬ (toNat ds = 0 ∨ Nat.pow 2 63 < toNat ds) := by
      unfold toNat
      omega
    unfold toNat at hsmall
    simp only [Bool.not_true, Bool.false_eq_true, if_false, if_true]
    rw [if_neg (by simpa using hsmall)]

theorem takeDigits_lt (ds : List Nat) {n : Nat} (hn : n < significandLimit) :
    (takeDigits n ds).1 < significandLimit := by
  induction ds generalizing n with
  | nil => exact hn
  | cons d ds ih =>
    rw [takeDigits]
    split_ifs with h
    · exact ih h
    · exact hn

theorem float_ne_int {d : Decimal} {significand : Nat} {places n : Int} :
    d.float significand places ≠ some (.int n) := by
  unfold float
  dsimp only
  cases d.exponent with
  | none => simp
  | some e =>
    dsimp only
    split_ifs <;> simp

/-- What is read as an integer fits into 64 bits. -/
theorem whole_of_number {d : Decimal} {n : Int} (h : d.number = some (.int n)) :
    (Number.int n).whole = true := by
  have hlt := takeDigits_lt d.whole (n := 0) (by decide)
  cases htake : takeDigits 0 d.whole with
  | mk w dropped =>
    rw [number, htake] at h
    rw [htake] at hlt
    have hlt : w < 18446744073709551616 := hlt
    rw [Number.whole_int_iff]
    dsimp only at h
    split at h
    · split_ifs at h with hpositive hfloat
      · cases h
        omega
      · cases h
      · cases h
        simp only [Bool.or_eq_true, decide_eq_true_eq, not_or, Nat.not_lt] at hfloat
        have hle : w ≤ 9223372036854775808 := hfloat.2
        omega
    · exact absurd h float_ne_int
    · exact absurd h float_ne_int

end Decimal

namespace Token

/-! ### Numerals -/

theorem digit?_of_mem_natText {n : Nat} {c : Char} (hc : c ∈ natText n) : digit? c = true :=
  Nat.isDigit_of_mem_toDigits (by decide) (by decide) hc

theorem toNat_natText (n : Nat) : Decimal.toNat (digitValues (natText n)) = n := by
  have h := Nat.ofDigitChars_ten_toDigits (n := n)
  rw [Nat.ofDigitChars_eq_foldl] at h
  unfold Decimal.toNat
  rw [digitValues, List.foldl_map]
  simpa [Nat.mul_comm, natText] using h

/-- A numeral that starts with a zero is zero. -/
theorem eq_zero_of_head_natText {n : Nat} (h : (natText n).head? = some '0') : n = 0 := by
  unfold natText at h
  induction n using Nat.strongRecOn with
  | ind n ih =>
    rcases Nat.lt_or_ge n 10 with hlt | hle
    · rw [Nat.toDigits_of_lt_base hlt, List.head?_cons] at h
      have hall : ∀ m < 10, some (Nat.digitChar m) = some '0' → m = 0 := by decide
      exact hall n hlt h
    · rw [Nat.toDigits_of_base_le (by decide) hle, List.head?_append] at h
      have hhead : (Nat.toDigits 10 (n / 10)).head? = some '0' := by
        rcases Option.or_eq_some_iff.mp h with h | ⟨hnone, -⟩
        · exact h
        · exact absurd (List.head?_eq_none_iff.mp hnone) Nat.toDigits_ne_nil
      have hzero := ih (n / 10) (by omega) hhead
      omega

theorem takeWhile_natText {n : Nat} {rest : List Char} (hrest : Apart rest) :
    (natText n ++ rest).takeWhile digit? = natText n ∧
      (natText n ++ rest).dropWhile digit? = rest := by
  have hstop : rest.takeWhile digit? = [] ∧ rest.dropWhile digit? = rest := by
    cases rest with
    | nil => exact ⟨rfl, rfl⟩
    | cons c rest =>
      have hc := (hrest c rfl).1
      constructor <;> simp [hc]
  have hall : ∀ c ∈ natText n, digit? c = true := fun c hc => digit?_of_mem_natText hc
  rw [List.takeWhile_append_of_pos hall, List.dropWhile_append_of_pos hall, hstop.1, hstop.2]
  exact ⟨List.append_nil _, rfl⟩

theorem whole?_natText {n : Nat} {rest : List Char} (hrest : Apart rest) :
    whole? (natText n ++ rest) = some (digitValues (natText n), rest) := by
  obtain ⟨htake, hdrop⟩ := takeWhile_natText (n := n) hrest
  have hne : (natText n).isEmpty = false := List.isEmpty_eq_false_iff.mpr Nat.toDigits_ne_nil
  have hzero : ¬ ((natText n).head? = some '0' ∧ 1 < (natText n).length) := by
    rintro ⟨hhead, hlength⟩
    rw [eq_zero_of_head_natText hhead] at hlength
    exact absurd hlength (by decide)
  unfold whole?
  rw [htake, hdrop]
  simp only [hne, Bool.false_or]
  rw [if_neg (by simpa using hzero)]

theorem fraction?_of_apart {rest : List Char} (hrest : Apart rest) :
    fraction? rest = some (none, rest) := by
  unfold fraction?
  split
  · next rest => exact absurd rfl (hrest '.' rfl).2.1
  · rfl

theorem exponent?_of_apart {rest : List Char} (hrest : Apart rest) :
    exponent? rest = some (none, rest) := by
  cases rest with
  | nil => rfl
  | cons c rest =>
    obtain ⟨-, -, he, hE⟩ := hrest c rfl
    unfold exponent?
    dsimp only
    rw [if_neg (by simp [he, hE])]

theorem decimal?_natText {n : Nat} {rest : List Char} (hrest : Apart rest) :
    decimal? (natText n ++ rest) =
      some (⟨false, digitValues (natText n), none, none⟩, rest) := by
  unfold decimal?
  split
  next negative cs heq =>
    split at heq
    · next after hcs =>
      -- a numeral does not start with a sign
      have hmem : '-' ∈ natText n := by
        cases h : natText n with
        | nil => exact absurd h Nat.toDigits_ne_nil
        | cons c digits =>
          rw [h] at hcs
          rw [(List.cons.inj hcs).1]
          exact List.mem_cons_self
      exact absurd (digit?_of_mem_natText hmem) (by decide)
    · cases heq
      simp only [whole?_natText hrest, Option.bind_eq_bind, Option.bind_some,
        fraction?_of_apart hrest, exponent?_of_apart hrest]
      rfl

theorem decimal?_neg_natText {n : Nat} {rest : List Char} (hrest : Apart rest) :
    decimal? ('-' :: (natText n ++ rest)) =
      some (⟨true, digitValues (natText n), none, none⟩, rest) := by
  unfold decimal?
  simp only [whole?_natText hrest, Option.bind_eq_bind, Option.bind_some,
    fraction?_of_apart hrest, exponent?_of_apart hrest]
  rfl

theorem first_digit {c : Char} (h : digit? c = true ∨ c = '-') (rest : List Char) :
    first (c :: rest) = (decimal? (c :: rest)).map fun (d, after) => (.num d.number, after) := by
  unfold first
  split
  all_goals first
    | rfl
    | (rename_i heq; cases heq <;> exact absurd h (by decide))

/-- A whole number is read back. -/
theorem first_number {n : Number} (hn : n.whole = true) {rest : List Char} (hrest : Apart rest) :
    first (n.text ++ rest) = some (.num (some n), rest) := by
  cases n with
  | float x => cases hn
  | int n =>
    have hrange := Number.whole_int_iff.mp hn
    cases n with
    | ofNat n =>
      obtain ⟨c, cs, hcs⟩ : ∃ c cs, natText n = c :: cs :=
        List.exists_cons_of_ne_nil Nat.toDigits_ne_nil
      have hdigit : digit? c = true := digit?_of_mem_natText (hcs ▸ List.mem_cons_self)
      have hfirst := first_digit (Or.inl hdigit) (cs ++ rest)
      rw [← List.cons_append, ← hcs, decimal?_natText hrest] at hfirst
      have hlt : n < Decimal.significandLimit := Int.ofNat_lt.mp hrange.2
      have hnumber := Decimal.number_of_lt false (toNat_natText n) hlt nofun
      show first (natText n ++ rest) = _
      rw [hfirst]
      simp only [Option.map_some, hnumber]
      rfl
    | negSucc n =>
      have hle : n + 1 ≤ 9223372036854775808 := by
        have hle := hrange.1
        omega
      have hlt : n + 1 < Decimal.significandLimit := by
        show n + 1 < 18446744073709551616
        omega
      have hnumber := Decimal.number_of_lt true (toNat_natText (n + 1)) hlt
        fun _ => ⟨Nat.succ_pos n, hle⟩
      show first ('-' :: (natText (n + 1) ++ rest)) = _
      rw [first_digit (Or.inr rfl), decimal?_neg_natText hrest]
      simp only [Option.map_some, hnumber]
      rfl

theorem number_of_first {cs after : List Char} {n : Option Number}
    (h : first cs = some (.num n, after)) : ∃ d : Decimal, n = d.number := by
  unfold first at h
  split at h
  all_goals try cases h
  all_goals rw [Option.map_eq_some_iff] at h; obtain ⟨⟨d, rest⟩, -, heq⟩ := h
  all_goals cases heq
  exact ⟨d, rfl⟩

end Token

end EntityGraph
