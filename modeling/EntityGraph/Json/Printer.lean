import EntityGraph.Json.Shortest
import EntityGraph.Text.Numeral

/-!
# Writing JSON

Two layouts of a value: `Json.compact` writes no blanks, `Json.pretty` puts every item and
member on a line of its own, indented by two blanks a level.  Both escape in strings only what
must be escaped.  Floats have the fewest digits that read back; they are positional from `1e-5`
up to `1e16` and have an exponent with its sign outside that range.
-/

namespace EntityGraph

/-! ## Algorithm -/

namespace Shortest

/-- The least and the greatest power of ten of a first digit that is written positionally. -/
def positional : Int × Int := (-5, 15)

/-- Digits with their first at `10 ^ e`. -/
def text (ds : List Char) (e : Int) : List Char :=
  if positional.1 ≤ e && e ≤ positional.2 then
    if e < 0 then '0' :: '.' :: (List.replicate ((-e).toNat - 1) '0' ++ ds)
    else
      let whole := e.toNat + 1
      let fraction := ds.drop whole
      ds.take whole ++ List.replicate (whole - ds.length) '0' ++ '.' ::
        (if fraction.isEmpty then ['0'] else fraction)
  else
    let tail := ds.drop 1
    ds.take 1 ++ (if tail.isEmpty then [] else '.' :: tail) ++ 'e' ::
      (if e < 0 then intText e else '+' :: intText e)

end Shortest

/-- A float as JSON writes it; a number that is not finite has no text but `null`. -/
def floatText (x : Float) : List Char :=
  let bits := x.toBits.toNat
  let exponent := bits / Nat.pow 2 52 % Nat.pow 2 11
  let fraction := bits % Nat.pow 2 52
  if exponent = 2047 then ['n', 'u', 'l', 'l']
  else
    let magnitude :=
      if exponent = 0 && fraction = 0 then ['0', '.', '0']
      else
        let (ds, e) := Shortest.digits exponent fraction
        Shortest.text ds e
    if bits / Nat.pow 2 63 = 1 then '-' :: magnitude else magnitude

def Number.text : Number → List Char
  | .int n => intText n
  | .float x => floatText x

/-- The lower-case hexadecimal digit of a number below 16. -/
def hexDigit (n : Nat) : Char := Nat.digitChar n

/-- A character inside a JSON string. -/
def escapeChar (c : Char) : List Char :=
  if c = '"' then ['\\', '"']
  else if c = '\\' then ['\\', '\\']
  else if 0x20 ≤ c.toNat then [c]
  else if c = '\x08' then ['\\', 'b']
  else if c = '\t' then ['\\', 't']
  else if c = '\n' then ['\\', 'n']
  else if c = '\x0c' then ['\\', 'f']
  else if c = '\r' then ['\\', 'r']
  else ['\\', 'u', '0', '0', hexDigit (c.toNat / 16), hexDigit (c.toNat % 16)]

def quoted (s : String) : List Char := '"' :: (s.toList.flatMap escapeChar ++ ['"'])

namespace Json

/-- How the parts of a value are set: `breaks d` stands before an item at depth `d` and before
the closing bracket, `colon` between a key and its value. -/
structure Layout where
  breaks : Nat → List Char
  colon : List Char

def Layout.compact : Layout := ⟨fun _ => [], [':']⟩

def Layout.pretty : Layout := ⟨fun d => '\n' :: List.replicate (2 * d) ' ', [':', ' ']⟩

mutual

/-- The text of a value at depth `d`, and then `rest`. -/
def write (l : Layout) (d : Nat) : Json → (rest : List Char) → List Char
  | .null, rest => ['n', 'u', 'l', 'l'] ++ rest
  | .bool true, rest => ['t', 'r', 'u', 'e'] ++ rest
  | .bool false, rest => ['f', 'a', 'l', 's', 'e'] ++ rest
  | .num n, rest => n.text ++ rest
  | .str s, rest => quoted s ++ rest
  | .arr [], rest => '[' :: ']' :: rest
  | .arr (x :: xs), rest =>
    '[' :: (l.breaks (d + 1) ++ write l (d + 1) x (writeItems l (d + 1) xs
      (l.breaks d ++ ']' :: rest)))
  | .obj [], rest => '{' :: '}' :: rest
  | .obj ((k, v) :: ms), rest =>
    '{' :: (l.breaks (d + 1) ++ (quoted k ++ (l.colon ++ write l (d + 1) v
      (writeMembers l (d + 1) ms (l.breaks d ++ '}' :: rest)))))

/-- Items after the first, and then `rest`. -/
def writeItems (l : Layout) (d : Nat) : List Json → (rest : List Char) → List Char
  | [], rest => rest
  | x :: xs, rest => ',' :: (l.breaks d ++ write l d x (writeItems l d xs rest))

/-- Members after the first, and then `rest`. -/
def writeMembers (l : Layout) (d : Nat) : List (String × Json) → (rest : List Char) → List Char
  | [], rest => rest
  | (k, v) :: ms, rest =>
    ',' :: (l.breaks d ++ (quoted k ++ (l.colon ++ write l d v (writeMembers l d ms rest))))

end

def text (l : Layout) (v : Json) : String := String.ofList (v.write l 0 [])

def compact (v : Json) : String := v.text .compact

def pretty (v : Json) : String := v.text .pretty

end Json

end EntityGraph
