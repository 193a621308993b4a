import EntityGraph.Json.Basic

/-!
# The shortest decimal of a float

A finite float is `m * 2 ^ q` for whole numbers `m` and `q`.  Every real number closer to it
than to its neighbours reads back as this float; these numbers form an interval, whose ends
belong to it when `m` is even.  `Shortest.digits` is the decimal with the fewest digits in the
interval, and of those the one nearest to the float; of two equally near ones, the even one.

All arithmetic is on natural numbers: a number is kept as a numerator over a common denominator.
-/

namespace EntityGraph.Shortest

/-! ## Algorithm -/

/-- A positive float as `4 * m` over `4 / 2 ^ q`, with the distance to the lower and the upper
end of its interval. -/
structure Interval where
  value : Nat
  below : Nat
  above : Nat
  unit : Nat
  closed : Bool

/-- The interval of the float with the given exponent field and fraction field. -/
def Interval.ofFields (exponent fraction : Nat) : Interval :=
  let m := if exponent = 0 then fraction else Nat.pow 2 52 + fraction
  let e := max exponent 1
  let up := Nat.pow 2 (e - 1075)
  { value := 4 * m * up
    below := (if fraction = 0 && 1 < exponent then 1 else 2) * up
    above := 2 * up
    unit := 4 * Nat.pow 2 (1075 - e)
    closed := m % 2 = 0 }

/-- Whether `d * 10 ^ k` is in the interval, with `num / den = 10 ^ k`. -/
def Interval.holds (i : Interval) (num den d : Nat) : Bool :=
  let point := d * num * i.unit
  let low := (i.value - i.below) * den
  let high := (i.value + i.above) * den
  if i.closed then low ≤ point && point ≤ high else low < point && point < high

/-- The decimal of at most `n + 1` digits in the interval, if the grid of those has one:
digits `d` and the power `k` of ten of the last digit.  `e` is the power of the first digit. -/
def Interval.onGrid (i : Interval) (e : Int) (n : Nat) : Option (Nat × Int) :=
  let k := e - n
  let num := Nat.pow 10 k.toNat
  let den := Nat.pow 10 (-k).toNat
  let low := i.value * den / (num * i.unit)
  let twice := 2 * i.value * den
  let middle := (2 * low + 1) * num * i.unit
  let lowNearer := twice < middle || (twice = middle && low % 2 = 0)
  let first := if lowNearer then low else low + 1
  let second := if lowNearer then low + 1 else low
  if i.holds num den first then some (first, k)
  else if i.holds num den second then some (second, k)
  else none

/-- The least number of places `j ≤ fuel` for which `value * 10 ^ j` is at least `unit`. -/
def leadingZeros (value unit : Nat) : Nat → Nat
  | 0 => 0
  | fuel + 1 => if unit ≤ value then 0 else leadingZeros (value * 10) unit fuel + 1

/-- The power of ten of the first digit of `value / unit`. -/
def leadingPower (value unit : Nat) : Int :=
  if unit ≤ value then (Nat.toDigits 10 (value / unit)).length - 1
  else -(leadingZeros value unit 400 : Int)

/-- The first grid with a point in the interval, from few digits to many. -/
def Interval.search (i : Interval) (e : Int) (n : Nat) : Nat → Nat × Int
  | 0 => (i.value / i.unit, 0)
  | fuel + 1 => (i.onGrid e n).getD (i.search e (n + 1) fuel)

/-- The shortest decimal of a positive finite float: its digits, first digit first, and the
power of ten of the first digit. -/
def digits (exponent fraction : Nat) : List Char × Int :=
  let i := Interval.ofFields exponent fraction
  let (d, k) := i.search (leadingPower i.value i.unit) 0 17
  let ds := Nat.toDigits 10 d
  ((ds.reverse.dropWhile (· = '0')).reverse, k + ds.length - 1)

end EntityGraph.Shortest
