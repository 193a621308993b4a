import EntityGraph.Text.Numeral

/-!
# Durations

Spans of time in microseconds.  A duration is written in the largest unit of which it has at
least one, with the digits after the point that it needs: `1.5s`, `20ms`, `1.001ms`, `999µs`,
`0ns`.
-/

namespace EntityGraph

structure Duration where
  micros : Nat
  deriving DecidableEq

namespace Duration

def ofMillis (n : Nat) : Duration := ⟨1000 * n⟩

/-- The digits after the point of `part` over `10 ^ places`, without zeros at the end. -/
def fraction (part places : Nat) : List Char :=
  let digits := natText part
  let padded := List.replicate (places - digits.length) '0' ++ digits
  (padded.reverse.dropWhile (· = '0')).reverse

/-- `n` over `10 ^ places`. -/
def decimal (n places : Nat) : List Char :=
  let part := n % Nat.pow 10 places
  natText (n / Nat.pow 10 places) ++ if part = 0 then [] else '.' :: fraction part places

def text (d : Duration) : String :=
  if 1000000 ≤ d.micros then String.ofList (decimal d.micros 6) ++ "s"
  else if 1000 ≤ d.micros then String.ofList (decimal d.micros 3) ++ "ms"
  else if 0 < d.micros then natString d.micros ++ "µs"
  else "0ns"

/-- The duration in milliseconds, a part of one counting as one. -/
def millis (d : Duration) : Nat := (d.micros + 999) / 1000

end Duration

end EntityGraph
