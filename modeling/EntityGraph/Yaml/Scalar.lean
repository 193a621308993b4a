import EntityGraph.Yaml.Cursor

/-!
# YAML scalars in a text

`plain?` and `quoted?` read the scalar at a cursor.

A line feed inside a scalar, with the blanks around it, is a blank, and of several the first
counts for nothing and the others are kept; a separator is kept always.  A scalar without quotes
ends before a comment, before a colon that a blank follows, inside brackets before a bracket or
comma, and where a line is indented less than it has to be.
-/

namespace EntityGraph.Yaml

/-- A scalar as read. -/
structure Scanned where
  text : String
  /-- Whether line ends after the scalar have been passed over. -/
  lineEnded : Bool
  after : Cursor

/-! ## Blanks inside a scalar -/

/-- Blanks and line ends: the blanks before the first line end, the line ends, and the place
after them. -/
structure Gap where
  blanks : List Char
  breaks : List Char
  /-- Whether at the start of a line a tab stands before the column that is asked for. -/
  tab : Bool
  after : Cursor

namespace Gap

/-- Nothing at a cursor. -/
def empty (c : Cursor) : Gap := ⟨[], [], false, c⟩

/-- Adds the blanks and line ends that come next; what is there already is in reverse. -/
def extend (indent : Nat) (blanks breaks : List Char) (tab : Bool) (line column offset : Nat) :
    List Char → Gap
  | [] => ⟨blanks.reverse, breaks.reverse, tab, [], line, column, offset⟩
  | c :: rest =>
    if isBreak c then extend indent blanks (c :: breaks) tab (line + 1) 0 0 rest
    else if isBlank c then
      if breaks.isEmpty then
        extend indent (c :: blanks) [] tab line (column + 1) (offset + 1) rest
      else
        extend indent blanks breaks (tab || (c = '\t' && column < indent)) line (column + 1)
          (offset + 1) rest
    else ⟨blanks.reverse, breaks.reverse, tab, c :: rest, line, column, offset⟩

/-- The blanks and line ends at a cursor. -/
def ofCursor (indent : Nat) (c : Cursor) : Gap :=
  extend indent [] [] false c.line c.column c.offset c.rest

/-- What a gap contributes to the scalar. -/
def folded (g : Gap) : List Char :=
  match g.breaks with
  | [] => g.blanks
  | ['\n'] => [' ']
  | '\n' :: more => more
  | breaks => breaks

theorem length_extend (indent : Nat) (blanks breaks : List Char) (tab : Bool)
    (line column offset : Nat) (cs : List Char) :
    (extend indent blanks breaks tab line column offset cs).after.rest.length ≤ cs.length := by
  fun_induction extend indent blanks breaks tab line column offset cs <;> simp <;> omega

theorem length_ofCursor (indent : Nat) (c : Cursor) :
    (ofCursor indent c).after.rest.length ≤ c.rest.length := length_extend ..

end Gap

/-! ## Scalars without quotes -/

def isBracket (c : Char) : Bool := c = ',' || c = '[' || c = ']' || c = '{' || c = '}'

/-- The characters up to a blank or the end of the scalar. -/
def word (brackets : Bool) : List Char → Option (List Char)
  | [] => some []
  | c :: rest =>
    if brackets && c = ':' && rest.head?.any (fun d => isBracket d || d = '?') then none
    else if blankNext (c :: rest) || (c = ':' && blankNext rest) || (brackets && isBracket c) then
      some []
    else (word brackets rest).map (c :: ·)

theorem ne_nil_of_word {brackets : Bool} {cs : List Char} {c : Char} {w : List Char}
    (h : word brackets cs = some (c :: w)) : cs ≠ [] := by
  rintro rfl
  simp [word] at h

theorem length_advance_lt {c : Cursor} (count : Nat) (h : c.rest ≠ []) :
    (c.advance (count + 1)).rest.length < c.rest.length := by
  have := List.length_pos_iff.2 h
  simp only [Cursor.advance, List.length_drop]
  omega

/-- A scalar that ends before a gap.  Its text is in reverse. -/
def endedBefore (text : List Char) (g : Gap) : Scanned :=
  ⟨String.ofList text.reverse, !g.breaks.isEmpty, g.after⟩

/-- Words and gaps up to the end of the scalar.  `done` is in reverse. -/
def plainFrom (brackets : Bool) (indent : Nat) (done : List Char) (before : Gap) :
    Option Scanned :=
  if before.tab then none
  else if before.after.atMarker || before.after.rest.head? = some '#' ||
      (!brackets && !before.breaks.isEmpty && before.after.column < indent) then
    some (endedBefore done before)
  else
    match _h : word brackets before.after.rest with
    | none => none
    | some [] => some (endedBefore done before)
    | some (c :: w) =>
      plainFrom brackets indent ((c :: w).reverse ++ (before.folded.reverse ++ done))
        (.ofCursor indent (before.after.advance (w.length + 1)))
termination_by before.after.rest.length
decreasing_by
  exact Nat.lt_of_le_of_lt (Gap.length_ofCursor ..) (length_advance_lt _ (ne_nil_of_word _h))

/-- Whether a scalar without quotes can start here. -/
def plainStart (brackets : Bool) : List Char → Bool
  | [] => false
  | c :: rest =>
    if c = '-' then !rest.head?.any isBlank
    else if c = '?' || c = ':' then !brackets && !blankNext rest
    else
      !(blankNext (c :: rest) || isBracket c || c = '#' || c = '&' || c = '*' || c = '!' ||
        c = '|' || c = '>' || c = '\'' || c = '"' || c = '%' || c = '@' || c = '\x60')

/-- A scalar without quotes, whose further lines are indented by at least `indent`. -/
def plain? (brackets : Bool) (indent : Nat) (c : Cursor) : Option Scanned :=
  if plainStart brackets c.rest then plainFrom brackets indent [] (.empty c) else none

/-! ## Scalars in quotes -/

def hexDigits? : List Char → Option Nat
  | [] => some 0
  | cs => cs.foldlM (fun n c =>
      if '0' ≤ c && c ≤ '9' then some (16 * n + (c.toNat - '0'.toNat))
      else if 'a' ≤ c && c ≤ 'f' then some (16 * n + (c.toNat - 'a'.toNat + 10))
      else if 'A' ≤ c && c ≤ 'F' then some (16 * n + (c.toNat - 'A'.toNat + 10))
      else none) 0

/-- The character of an escape with the given number of hexadecimal digits. -/
def codePoint? (digits : Nat) (rest : List Char) : Option (Char × Nat) := do
  let cs := rest.take digits
  if cs.length < digits then none
  else
    let n ← hexDigits? cs
    if n < 0xD800 || (0xDFFF < n && n < 0x110000) then some (Char.ofNat n, digits) else none

/-- The character of an escape, and how many characters come after the backslash and its
letter. -/
def escape? (c : Char) (rest : List Char) : Option (Char × Nat) :=
  match c with
  | '0' => some ('\x00', 0)
  | 'a' => some ('\x07', 0)
  | 'b' => some ('\x08', 0)
  | 't' | '\t' => some ('\t', 0)
  | 'n' => some ('\n', 0)
  | 'v' => some ('\x0b', 0)
  | 'f' => some ('\x0c', 0)
  | 'r' => some ('\r', 0)
  | 'e' => some ('\x1b', 0)
  | ' ' => some (' ', 0)
  | '"' => some ('"', 0)
  | '/' => some ('/', 0)
  | '\\' => some ('\\', 0)
  | 'N' => some ('\u0085', 0)
  | '_' => some ('\u00a0', 0)
  | 'L' => some ('\u2028', 0)
  | 'P' => some ('\u2029', 0)
  | 'x' => codePoint? 2 rest
  | 'u' => codePoint? 4 rest
  | 'U' => codePoint? 8 rest
  | _ => none

theorem length_lt_of_ofCursor {indent : Nat} {c : Cursor} {d : Char} {rest : List Char}
    (h : (Gap.ofCursor indent c).after.rest = d :: rest) : rest.length < c.rest.length := by
  have := Gap.length_ofCursor indent c
  rwa [h, List.length_cons] at this

theorem length_advance_ofCursor_lt {indent : Nat} {c : Cursor} {d : Char} {rest : List Char}
    (count : Nat) (h : (Gap.ofCursor indent c).after.rest = d :: rest) :
    ((Gap.ofCursor indent c).after.advance (count + 1)).rest.length < c.rest.length :=
  Nat.lt_of_lt_of_le (length_advance_lt count (by simp [h])) (Gap.length_ofCursor indent c)

/-- A scalar that ends with the character at a cursor.  Its text is in reverse. -/
def endedAt (text : List Char) (c : Cursor) : Scanned :=
  ⟨String.ofList text.reverse, false, c.advance 1⟩

/-- The rest of a scalar in quotes.  `done` is in reverse. -/
def quotedFrom (double : Bool) (done : List Char) (c : Cursor) : Option Scanned :=
  let g := Gap.ofCursor 0 c
  let done := g.folded.reverse ++ done
  if g.after.atMarker then none
  else
    match _h : g.after.rest with
    | [] => none
    | d :: rest =>
      if double then
        if d = '"' then some (endedAt done g.after)
        else if d = '\\' then
          match rest with
          | [] => none
          | e :: more =>
            if isBreak e then
              let g := Gap.ofCursor 0 (g.after.nextLine more)
              quotedFrom double (g.breaks.reverse ++ done) g.after
            else
              match escape? e more with
              | none => none
              | some (f, taken) => quotedFrom double (f :: done) (g.after.advance (taken + 2))
        else quotedFrom double (d :: done) (g.after.advance 1)
      else if d = '\'' then
        if rest.head? = some '\'' then quotedFrom double ('\'' :: done) (g.after.advance 2)
        else some (endedAt done g.after)
      else quotedFrom double (d :: done) (g.after.advance 1)
termination_by c.rest.length
decreasing_by
  · exact Nat.lt_of_le_of_lt (Gap.length_ofCursor ..)
      (Nat.lt_trans (by simp [Cursor.nextLine]) (length_lt_of_ofCursor _h))
  all_goals exact length_advance_ofCursor_lt _ _h

/-- A scalar in quotes. -/
def quoted? (c : Cursor) : Option Scanned :=
  match c.rest with
  | '"' :: _ => quotedFrom true [] (c.advance 1)
  | '\'' :: _ => quotedFrom false [] (c.advance 1)
  | _ => none

end EntityGraph.Yaml
