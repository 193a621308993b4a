import EntityGraph.Json.Draft
import EntityGraph.Text.Numeral
import EntityGraph.Yaml.Document

/-!
# Drafts of YAML trees

What the scalars of a YAML document stand for.  A scalar in quotes is a text.  One without is,
in this order: null, a flag, a whole number (decimal, or with `0x`, `0o` or `0b`), a float, or a
text.  A decimal with zeros in front is a text.  A whole number beyond 64 bits has no value, up
to 128 bits; beyond those it is a float.

Where a document is read as a free value, keys are scalars as they are written, and so are the
names of entities and the keys above them.  Inside an entity a key counts by what it stands for.
-/

namespace EntityGraph.Yaml

/-! ## Numbers -/

def digitOf? (radix : Nat) (c : Char) : Option Nat :=
  let n :=
    if '0' ≤ c && c ≤ '9' then c.toNat - '0'.toNat
    else if 'a' ≤ c && c ≤ 'z' then c.toNat - 'a'.toNat + 10
    else if 'A' ≤ c && c ≤ 'Z' then c.toNat - 'A'.toNat + 10
    else radix
  if n < radix then some n else none

/-- A number written with at least one digit of the given radix. -/
def natural? (radix : Nat) (cs : List Char) : Option Nat :=
  if cs.isEmpty then none
  else cs.foldlM (fun n c => (digitOf? radix c).map (radix * n + ·)) 0

/-- Takes a sign off: whether it is a minus, and the rest. -/
def sign : List Char → Bool × List Char
  | '-' :: rest => (true, rest)
  | '+' :: rest => (false, rest)
  | rest => (false, rest)

/-- Digits that are no number for the zero in front of them. -/
def paddedDigits (cs : List Char) : Bool :=
  match cs with
  | '0' :: d :: rest => (d :: rest).all Char.isDigit
  | _ => false

def whole? (cs : List Char) : Option Int :=
  let (negative, digits) := sign cs
  let magnitude : Option Nat :=
    match digits with
    | '0' :: 'x' :: rest => natural? 16 rest
    | '0' :: 'o' :: rest => natural? 8 rest
    | '0' :: 'b' :: rest => natural? 2 rest
    | _ => if paddedDigits digits then none else natural? 10 digits
  magnitude.map fun n => if negative then -n else n

/-- The value of `digits * 10 ^ exponent`, if it is finite. -/
def scaled? (digits : Nat) (exponent : Int) : Option Float :=
  let places := (natText digits).length
  if digits = 0 then some 0.0
  else if 400 < exponent + places then none
  else if exponent + places < -400 then some 0.0
  else
    let x := if exponent < 0 then Float.ofScientific digits true exponent.natAbs
      else Float.ofScientific digits false exponent.natAbs
    if x.isInf then none else some x

/-- The exponent at the end of a float. -/
def exponent? : List Char → Option Int
  | [] => some 0
  | c :: rest =>
    if c = 'e' || c = 'E' then
      let (negative, digits) := sign rest
      (natural? 10 digits).map fun n => if negative then -n else n
    else none

/-- A finite float: digits with a point at most, of which there is one at least, and an
exponent. -/
def finite? (cs : List Char) : Option Float :=
  let whole := cs.takeWhile Char.isDigit
  let rest := cs.dropWhile Char.isDigit
  let (fraction, rest) := match rest with
    | '.' :: rest => (rest.takeWhile Char.isDigit, rest.dropWhile Char.isDigit)
    | rest => ([], rest)
  match natural? 10 (whole ++ fraction), exponent? rest with
  | some digits, some exponent => scaled? digits (exponent - fraction.length)
  | _, _ => none

def float? (cs : List Char) : Option Float :=
  let (negative, magnitude) := sign cs
  let name := String.ofList magnitude
  if name = ".inf" || name = ".Inf" || name = ".INF" then
    some (if negative then -1.0 / 0.0 else 1.0 / 0.0)
  else if [".nan", ".NaN", ".NAN"].contains (String.ofList cs) then some (0.0 / 0.0)
  else if paddedDigits magnitude then none
  else (finite? magnitude).map fun x => if negative then -x else x

/-! ## Scalars -/

/-- A whole number of the given number of bits, with or without a sign. -/
def hasBits (bits : Nat) (n : Int) : Bool :=
  -(Nat.pow 2 (bits - 1) : Int) ≤ n && n < (Nat.pow 2 bits : Int)

def numberDraft (text : String) : Draft :=
  match float? text.toList with
  | some x => .num (some (.float x))
  | none => .str (some text)

/-- What a scalar without quotes stands for. -/
def plainDraft (text : String) : Draft :=
  if ["", "~", "null", "Null", "NULL"].contains text then .null
  else if ["true", "True", "TRUE"].contains text then .bool true
  else if ["false", "False", "FALSE"].contains text then .bool false
  else
    match whole? text.toList with
    | some n =>
      if n = 0 && text.toList.head? = some '-' then .minusZero
      else if hasBits 64 n then .num (some (.int n))
      else if hasBits 128 n then .num none
      else numberDraft text
    | none => numberDraft text

def Scalar.draft (s : Scalar) : Draft := if s.plain then plainDraft s.text else .str (some s.text)

/-! ## Trees -/

namespace Node

/-- The key that a tree is where keys count as written. -/
def writtenKey : Node → Draft
  | .scalar s => .str (some s.text)
  | _ => .broken

mutual

/-- The draft of a tree, with its keys as written or by what they stand for. -/
def draft (written : Bool) : Node → Draft
  | .scalar s => s.draft
  | .sequence items => .arr (drafts written items) true
  | .mapping members => .obj (memberDrafts written members) true

def drafts (written : Bool) : List Node → List Draft
  | [] => []
  | n :: rest => draft written n :: drafts written rest

def memberDrafts (written : Bool) : List (Node × Node) → List (Draft × Draft)
  | [] => []
  | (k, n) :: rest =>
    (if written then k.writtenKey else draft written k, draft written n) ::
      memberDrafts written rest

end

/-- A mapping whose keys are taken as written, with the drafts of its values.  Where nothing is
written there is a mapping without members. -/
def namesDraft (part : Node → Draft) : Node → Draft
  | .scalar s => if s = ⟨"", true⟩ then .obj [] true else s.draft
  | .sequence items => .arr (items.map part) true
  | .mapping members => .obj (members.map fun (k, n) => (k.writtenKey, part n)) true

/-- The draft of a graph, which has to be a mapping. -/
def graphDraft : Node → Draft
  | .sequence _ => .broken
  | n => n.namesDraft (namesDraft (draft false))

end Node

end EntityGraph.Yaml
