import EntityGraph.Yaml.Node
import EntityGraph.Yaml.Scalar

/-!
# YAML tokens

Cuts a text into tokens.  Outside brackets the columns of a text make its structure: a dash, or
the start of a key, in a column beyond that of the innermost collection opens a collection there,
and whatever stands before that column closes it.

Whether a scalar or a bracket is a key turns out at the colon after it, which has to come on the
same line and at most 1024 bytes after the start of the key.  So a place where a key may
start is remembered (`Start`), one for each open bracket, and the colon puts the token `key` in
there.  In the column of a mapping nothing but a key may start; a start there is `required` to
become one.

A text with directives, anchors, aliases, tags or block scalars is refused.
-/

namespace EntityGraph.Yaml

inductive Token where
  | scalar (value : Scalar)
  | dash
  | key
  | value
  /-- the start of a sequence by columns -/
  | sequence
  /-- the start of a mapping by columns -/
  | mapping
  /-- the end of either -/
  | blockEnd
  | openSequence
  | closeSequence
  | openMapping
  | closeMapping
  | comma
  | documentStart
  | documentEnd
  deriving DecidableEq

/-- A place where a key may have started. -/
structure Start where
  /-- How many tokens come before it. -/
  place : Nat
  cursor : Cursor
  /-- Whether there has to be a key. -/
  required : Bool

/-- A text cut into tokens up to the cursor. -/
structure Scan where
  cursor : Cursor
  /-- The columns of the open collections, from the innermost on. -/
  columns : List Nat
  /-- Where the last key may have started inside the innermost bracket. -/
  start : Option Start
  /-- The same for what is around each open bracket, from the innermost on. -/
  outer : List (Option Start)
  /-- Whether a key may start at the cursor. -/
  keys : Bool
  /-- The tokens in reverse. -/
  done : List Token
  count : Nat

namespace Scan

def ofText (cs : List Char) : Scan := ⟨.start cs, [], none, [], true, [], 0⟩

def brackets (s : Scan) : Bool := !s.outer.isEmpty

/-- Puts a token behind the others. -/
def emit (s : Scan) (t : Token) : Scan := { s with done := t :: s.done, count := s.count + 1 }

/-- Puts a token before those from a place on. -/
def insert (s : Scan) (place : Nat) (t : Token) : Scan :=
  let later := s.count - place
  { s with done := s.done.take later ++ t :: s.done.drop later, count := s.count + 1 }

def advance (s : Scan) (count : Nat) : Scan := { s with cursor := s.cursor.advance count }

/-- Gives up the start of a key, unless there has to be one. -/
def dropStart (s : Scan) : Option Scan :=
  if s.start.any (·.required) then none else some { s with start := none }

/-- Remembers that a key may start at the cursor. -/
def noteStart (s : Scan) : Option Scan :=
  if s.keys then do
    let s ← s.dropStart
    let required := !s.brackets && s.columns.head? = some s.cursor.column
    return { s with start := some ⟨s.count, s.cursor, required⟩ }
  else return s

/-! ## Columns -/

/-- Opens a collection in a column beyond the innermost one, before the tokens from a place on. -/
def openAt (s : Scan) (column place : Nat) (t : Token) : Scan :=
  if s.brackets || s.columns.head?.any (column ≤ ·) then s
  else { s.insert place t with columns := column :: s.columns }

/-- Closes the collections whose columns are not kept. -/
def closeUnless (keep : Nat → Bool) (s : Scan) : Scan :=
  if s.brackets then s
  else
    let closed := (s.columns.takeWhile fun column => !keep column).length
    { s with
      columns := s.columns.drop closed
      done := List.replicate closed .blockEnd ++ s.done
      count := s.count + closed }

/-- Moves to the next token, and closes the collections beyond its column. -/
def next (s : Scan) : Scan :=
  let (keys, cursor) := s.cursor.skip s.brackets s.keys
  closeUnless (· ≤ cursor.column) { s with keys, cursor }

/-! ## Tokens -/

/-- An indicator that comes before a part of a collection by columns. -/
def indicator (s : Scan) (collection t : Token) (keys : Bool) : Option Scan :=
  if s.brackets || s.keys then do
    let s ← (s.openAt s.cursor.column s.count collection).dropStart
    return { (s.emit t).advance 1 with keys }
  else none

/-- A colon that belongs to the key which started before it, if one did. -/
def colon (s : Scan) : Option Scan :=
  match s.start with
  | some k =>
    if k.cursor.line = s.cursor.line && s.cursor.offset ≤ k.cursor.offset + 1024 then
      let s := (s.insert k.place .key).openAt k.cursor.column k.place .mapping
      some { (s.emit .value).advance 1 with start := none, keys := false }
    else do indicator (← s.dropStart) .mapping .value !s.brackets
  | none => indicator s .mapping .value !s.brackets

def openBracket (s : Scan) (t : Token) : Option Scan := do
  let s ← s.noteStart
  return { (s.emit t).advance 1 with start := none, outer := s.start :: s.outer, keys := true }

def closeBracket (s : Scan) (t : Token) : Option Scan := do
  let s ← s.dropStart
  return { (s.emit t).advance 1 with
    start := s.outer.head?.getD none
    outer := s.outer.tail
    keys := false }

def comma (s : Scan) : Option Scan := do
  let s ← s.dropStart
  return { (s.emit .comma).advance 1 with keys := true }

def document (s : Scan) (t : Token) : Option Scan := do
  let s ← (s.closeUnless fun _ => false).dropStart
  return { (s.emit t).advance 3 with keys := false }

def scalar (s : Scan) : Option Scan := do
  let s ← s.noteStart
  let indent := (s.columns.head?.map (· + 1)).getD 0
  let (plain, scanned) ←
    match quoted? s.cursor with
    | some scanned => some (false, scanned)
    | none => (plain? s.brackets indent s.cursor).map (true, ·)
  return { s.emit (.scalar ⟨scanned.text, plain⟩) with
    cursor := scanned.after
    keys := scanned.lineEnded }

/-- The token at the cursor. -/
def token (s : Scan) : Option Scan :=
  match s.cursor.rest with
  | [] => none
  | c :: rest =>
    if s.cursor.atMarker then s.document (if c = '-' then .documentStart else .documentEnd)
    else if c = '[' then s.openBracket .openSequence
    else if c = '{' then s.openBracket .openMapping
    else if c = ']' then s.closeBracket .closeSequence
    else if c = '}' then s.closeBracket .closeMapping
    else if c = ',' then s.comma
    else if c = '-' && blankNext rest then s.indicator .sequence .dash true
    else if c = '?' && (s.brackets || blankNext rest) then s.indicator .mapping .key !s.brackets
    else if c = ':' && (s.brackets || blankNext rest) then s.colon
    else s.scalar

/-- The tokens up to the end of the text. -/
def toEnd : Nat → Scan → Option (List Token)
  | 0, _ => none
  | fuel + 1, s =>
    let s := s.next
    if s.cursor.rest.isEmpty then do
      let s ← (s.closeUnless fun _ => false).dropStart
      return s.done.reverse
    else do toEnd fuel (← s.token)

end Scan

/-- The tokens of a text, if it can be cut into them.  A token takes at least one character. -/
def Token.ofText? (text : String) : Option (List Token) :=
  if text.toList.all allowed then
    let cs := lines text.toList
    (Scan.ofText cs).toEnd (cs.length + 1)
  else none

end EntityGraph.Yaml
