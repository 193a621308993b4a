import EntityGraph.Json.Basic

/-!
# Reading a decimal number

The value of a number's text, given its digits and its exponent apart.  Whole numbers of the
signed and the unsigned 64-bit range are exact.  All other numbers are 64-bit floats, computed
as `significand * 10 ^ exponent` with one rounding for each float operation: the significand
holds as many leading digits as fit in 64 bits, and digits after those only count their place.

    Decimal.number ⟨false, [1, 2], none, none⟩ = some (.int 12)
    Decimal.number ⟨true, [0], none, none⟩     = some (.float (-0.0))

A number too large for a float has no value.
-/

namespace EntityGraph

/-- A number as written: `-12.50e+3` is `⟨true, [1, 2], some [5, 0], some (false, [3])⟩`. -/
structure Decimal where
  negative : Bool
  whole : List Nat
  fraction : Option (List Nat)
  /-- Whether the exponent has a minus sign, and its digits. -/
  exponent : Option (Bool × List Nat)

namespace Decimal

/-! ## Algorithm -/

def significandLimit : Nat := Nat.pow 2 64

/-- Takes digits into the significand while it stays below the limit; the digits not taken are
returned with it. -/
def takeDigits (significand : Nat) : List Nat → Nat × List Nat
  | [] => (significand, [])
  | d :: ds =>
    if significand * 10 + d < significandLimit then takeDigits (significand * 10 + d) ds
    else (significand, d :: ds)

/-- The greatest magnitude an exponent is read to. -/
def exponentLimit : Nat := Nat.pow 2 31 - 1

def toNat (digits : List Nat) : Nat := digits.foldl (fun n d => n * 10 + d) 0

def powerOfTen (k : Nat) : Float := Float.ofScientific 1 false k

/-- Multiplies by `10 ^ exponent`, dividing in steps of `10 ^ 308` while the exponent is below
that.  `fuel` is the number of steps. -/
def scaleDown : Nat → Float → Nat → Float
  | 0, x, _ => x
  | fuel + 1, x, k =>
    if k ≤ 308 then x / powerOfTen k
    else if x == 0.0 then x
    else scaleDown fuel (x / powerOfTen 308) (k - 308)

def scale (x : Float) : Int → Option Float
  | .ofNat k =>
    if k ≤ 308 then
      let y := x * powerOfTen k
      if y.isInf then none else some y
    else if x == 0.0 then some x
    else none
  | .negSucc k => some (scaleDown (k + 2) x (k + 1))

def withSign (negative : Bool) (x : Float) : Float := if negative then -x else x

/-- The float of a significand and an exponent, the written exponent still to be added. -/
def float (d : Decimal) (significand : Nat) (places : Int) : Option Number :=
  let x := (UInt64.ofNat significand).toFloat
  match d.exponent with
  | none => (scale x places).map (.float ∘ withSign d.negative)
  | some (down, digits) =>
    let e := toNat digits
    if exponentLimit < e then
      if significand ≠ 0 && !down then none else some (.float (withSign d.negative 0.0))
    else
      let total := if down then places - e else places + e
      let limit : Int := exponentLimit
      let total := max (-limit - 1) (min limit total)
      (scale x total).map (.float ∘ withSign d.negative)

/-- The value of a number, if it has one. -/
def number (d : Decimal) : Option Number :=
  let (significand, dropped) := takeDigits 0 d.whole
  match d.fraction, d.exponent, dropped with
  | none, none, [] =>
    if !d.negative then some (.int significand)
    else if significand = 0 || Nat.pow 2 63 < significand then
      some (.float (-(UInt64.ofNat significand).toFloat))
    else some (.int (-significand))
  | none, _, _ => d.float significand dropped.length
  | some fraction, _, _ =>
    let (significand, rest) := takeDigits significand fraction
    d.float significand (dropped.length - (fraction.length - rest.length : Nat))

end Decimal

end EntityGraph
