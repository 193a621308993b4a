import EntityGraph.Json.Decimal

/-!
# JSON tokens

The words of a JSON text.  Scanning never fails: text that is no word ends the list with a
`fault`.  A string with half a surrogate pair and a number too large for a float are words
without a value (`none`); whoever needs the value has to refuse them.

Scanning works on lists of characters.  Each word takes at least one character, so the length
of the text bounds the number of words.
-/

namespace EntityGraph

inductive Token where
  | openArray | closeArray | openObject | closeObject | comma | colon
  | null
  | bool (value : Bool)
  | num (value : Option Number)
  | str (value : Option String)
  | fault

namespace Token

/-! ## Strings -/

/-- What a string is made of as written: characters, and halves of surrogate pairs, which are
written as escapes only. -/
inductive Piece where
  | char (c : Char)
  | half (unit : Nat)

def hexValue (c : Char) : Option Nat :=
  if '0' ≤ c && c ≤ '9' then some (c.toNat - '0'.toNat)
  else if 'a' ≤ c && c ≤ 'f' then some (c.toNat - 'a'.toNat + 10)
  else if 'A' ≤ c && c ≤ 'F' then some (c.toNat - 'A'.toNat + 10)
  else none

def hexUnit (a b c d : Char) : Option Nat := do
  let w ← hexValue a
  let x ← hexValue b
  let y ← hexValue c
  let z ← hexValue d
  return ((w * 16 + x) * 16 + y) * 16 + z

def Piece.ofUnit (unit : Nat) : Piece :=
  if 0xD800 ≤ unit && unit < 0xE000 then .half unit else .char (Char.ofNat unit)

/-- The character of a one-letter escape. -/
def escaped (c : Char) : Option Char :=
  if c = '"' || c = '\\' || c = '/' then some c
  else if c = 'b' then some '\x08'
  else if c = 'f' then some '\x0c'
  else if c = 'n' then some '\n'
  else if c = 'r' then some '\r'
  else if c = 't' then some '\t'
  else none

/-- The pieces of a string up to its closing quote, and the text after that. -/
def pieces : List Char → Option (List Piece × List Char)
  | [] => none
  | '"' :: rest => some ([], rest)
  | '\\' :: 'u' :: a :: b :: c :: d :: rest =>
    match hexUnit a b c d, pieces rest with
    | some unit, some (ps, after) => some (.ofUnit unit :: ps, after)
    | _, _ => none
  | '\\' :: c :: rest =>
    match escaped c, pieces rest with
    | some e, some (ps, after) => some (.char e :: ps, after)
    | _, _ => none
  | c :: rest =>
    if c.toNat < 0x20 || c = '\\' then none
    else
      match pieces rest with
      | some (ps, after) => some (.char c :: ps, after)
      | none => none

/-- The characters of pieces in which each upper half is followed by a lower half. -/
def characters : List Piece → Option (List Char)
  | [] => some []
  | .char c :: rest => (characters rest).map (c :: ·)
  | .half upper :: .half lower :: rest =>
    if upper < 0xDC00 && 0xDC00 ≤ lower then
      (characters rest).map
        (Char.ofNat (0x10000 + (upper - 0xD800) * 0x400 + (lower - 0xDC00)) :: ·)
    else none
  | .half _ :: _ => none

/-! ## Numbers -/

def digit? (c : Char) : Bool := '0' ≤ c && c ≤ '9'

def digitValues (cs : List Char) : List Nat := cs.map fun c => c.toNat - '0'.toNat

/-- The part of a number after its whole digits that starts with `e` or `E`, if there is one. -/
def exponent? : List Char → Option (Option (Bool × List Nat) × List Char)
  | c :: rest =>
    if c = 'e' || c = 'E' then
      let (down, rest) := match rest with
        | '+' :: rest => (false, rest)
        | '-' :: rest => (true, rest)
        | rest => (false, rest)
      let digits := rest.takeWhile digit?
      if digits.isEmpty then none
      else some (some (down, digitValues digits), rest.dropWhile digit?)
    else some (none, c :: rest)
  | [] => some (none, [])

def fraction? : List Char → Option (Option (List Nat) × List Char)
  | '.' :: rest =>
    let digits := rest.takeWhile digit?
    if digits.isEmpty then none else some (some (digitValues digits), rest.dropWhile digit?)
  | rest => some (none, rest)

/-- A number's whole digits: a single zero, or digits that do not start with one. -/
def whole? (cs : List Char) : Option (List Nat × List Char) :=
  let digits := cs.takeWhile digit?
  if digits.isEmpty || (digits.head? = some '0' && 1 < digits.length) then none
  else some (digitValues digits, cs.dropWhile digit?)

/-- A number at the start of the text. -/
def decimal? (cs : List Char) : Option (Decimal × List Char) := do
  let (negative, cs) := match cs with
    | '-' :: rest => (true, rest)
    | cs => (false, cs)
  let (whole, cs) ← whole? cs
  let (fraction, cs) ← fraction? cs
  let (exponent, cs) ← exponent? cs
  return (⟨negative, whole, fraction, exponent⟩, cs)

/-! ## Words -/

def blank (c : Char) : Bool := c = ' ' || c = '\n' || c = '\t' || c = '\r'

/-- The text after a given word, if the text starts with it. -/
def after? : List Char → List Char → Option (List Char)
  | [], rest => some rest
  | _ :: _, [] => none
  | w :: word, c :: rest => if w = c then after? word rest else none

/-- The word at the start of a text that does not start with a blank, and what comes after. -/
def first : List Char → Option (Token × List Char)
  | [] => none
  | '[' :: rest => some (.openArray, rest)
  | ']' :: rest => some (.closeArray, rest)
  | '{' :: rest => some (.openObject, rest)
  | '}' :: rest => some (.closeObject, rest)
  | ',' :: rest => some (.comma, rest)
  | ':' :: rest => some (.colon, rest)
  | '"' :: rest => (pieces rest).map fun (ps, after) =>
      (.str ((characters ps).map String.ofList), after)
  | 'n' :: rest => (after? ['u', 'l', 'l'] rest).map fun after => (.null, after)
  | 't' :: rest => (after? ['r', 'u', 'e'] rest).map fun after => (.bool true, after)
  | 'f' :: rest => (after? ['a', 'l', 's', 'e'] rest).map fun after => (.bool false, after)
  | cs => (decimal? cs).map fun (d, after) => (.num d.number, after)

/-- The words of a text, at most `fuel` of them. -/
def scan : Nat → List Char → List Token
  | 0, _ => []
  | fuel + 1, cs =>
    match cs.dropWhile blank with
    | [] => []
    | c :: rest =>
      match first (c :: rest) with
      | none => [.fault]
      | some (t, after) => t :: scan fuel after

/-- The words of a text. -/
def ofText (s : String) : List Token := scan s.toList.length s.toList

end Token

end EntityGraph
