/-!
# Places in a YAML text

A `Cursor` is the rest of a text, with the line and column it starts at and the bytes of the line
before it.  A line ends with a line feed or with one of the two separators U+2028 and U+2029;
`lines` makes line feeds of all other line ends.

`Cursor.skip` passes over blanks, comments and line ends.  A tab counts as a blank inside
brackets, and outside where no key can start; a byte order mark may start a line.
-/

namespace EntityGraph.Yaml

/-! ## Characters -/

/-- Whether a character may stand in a document. -/
def allowed (c : Char) : Bool :=
  c = '\t' || c = '\n' || c = '\r' || c = '\u0085' || (0x20 ≤ c.toNat && c.toNat ≤ 0x7E) ||
    (0xA0 ≤ c.toNat && c.toNat ≤ 0xFFFD) || 0x10000 ≤ c.toNat

/-- The text with line feeds for carriage returns, for both together and for U+0085. -/
def lines : List Char → List Char
  | [] => []
  | '\r' :: '\n' :: rest => '\n' :: lines rest
  | '\r' :: rest => '\n' :: lines rest
  | '\u0085' :: rest => '\n' :: lines rest
  | c :: rest => c :: lines rest

def isBlank (c : Char) : Bool := c = ' ' || c = '\t'

def isBreak (c : Char) : Bool := c = '\n' || c = '\u2028' || c = '\u2029'

/-- Whether a word ends before the rest of the text. -/
def blankNext : List Char → Bool
  | [] => true
  | c :: _ => isBlank c || isBreak c

/-- Whether a document marker comes next, if a line starts here. -/
def marker : List Char → Bool
  | '-' :: '-' :: '-' :: rest => blankNext rest
  | '.' :: '.' :: '.' :: rest => blankNext rest
  | _ => false

/-! ## Cursors -/

structure Cursor where
  rest : List Char
  line : Nat
  column : Nat
  /-- How many bytes of the line come before. -/
  offset : Nat

namespace Cursor

def start (cs : List Char) : Cursor := ⟨cs, 0, 0, 0⟩

/-- The start of the line after this one, which the given text begins. -/
def nextLine (c : Cursor) (rest : List Char) : Cursor := ⟨rest, c.line + 1, 0, 0⟩

/-- Moves over characters of the line. -/
def advance (c : Cursor) (count : Nat) : Cursor where
  rest := c.rest.drop count
  line := c.line
  column := c.column + count
  offset := (c.rest.take count).foldl (fun n d => n + d.utf8Size) c.offset

/-- Whether a document marker stands at the cursor. -/
def atMarker (c : Cursor) : Bool := c.column = 0 && marker c.rest

/-- The place of the next token, and whether a key may start there. -/
def skipFrom (brackets : Bool) :
    (keys comment : Bool) → (line column offset : Nat) → List Char → Bool × Cursor
  | keys, _, line, column, offset, [] => (keys, ⟨[], line, column, offset⟩)
  | keys, comment, line, column, offset, c :: rest =>
    if isBreak c then skipFrom brackets (keys || !brackets) false (line + 1) 0 0 rest
    else if comment || c = ' ' || (c = '\t' && (brackets || !keys)) ||
        (c = '\uFEFF' && column = 0) then
      skipFrom brackets keys comment line (column + 1) (offset + c.utf8Size) rest
    else if c = '#' then skipFrom brackets keys true line (column + 1) (offset + 1) rest
    else (keys, ⟨c :: rest, line, column, offset⟩)

def skip (brackets keys : Bool) (c : Cursor) : Bool × Cursor :=
  skipFrom brackets keys false c.line c.column c.offset c.rest

end Cursor

end EntityGraph.Yaml
