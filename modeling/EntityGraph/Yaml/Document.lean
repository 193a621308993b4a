import EntityGraph.Yaml.Token

/-!
# YAML documents

Builds the tree of a document from its tokens.  `node` reads one node; the other functions read
the parts of a collection up to its end.  A part that is not there is blank: the functions say
before which tokens.

Each function has a bound on the depth of its calls, which the number of tokens provides.
-/

namespace EntityGraph.Yaml

namespace Document

/-- Whether one of some tokens comes next. -/
def comes (stops : List Token) : List Token → Bool
  | [] => false
  | t :: _ => stops.contains t

mutual

/-- One node.  With `block` it may be a collection by columns; with `dashes` it may also be a
sequence in the column of the mapping around it. -/
def node : Nat → (block dashes : Bool) → List Token → Option (Node × List Token)
  | 0, _, _, _ => none
  | fuel + 1, block, dashes, ts =>
    match ts with
    | .scalar s :: rest => some (.scalar s, rest)
    | .openSequence :: rest =>
      (inItems fuel rest).map fun (items, after) => (.sequence items, after)
    | .openMapping :: rest =>
      (inMembers fuel rest).map fun (members, after) => (.mapping members, after)
    | .dash :: _ =>
      if dashes then (sameColumnItems fuel ts).map fun (items, after) => (.sequence items, after)
      else none
    | .sequence :: rest =>
      if block then (items fuel rest).map fun (items, after) => (.sequence items, after) else none
    | .mapping :: rest =>
      if block then (members fuel rest).map fun (members, after) => (.mapping members, after)
      else none
    | _ => none

/-- A node, or a blank before `stops`. -/
def nodeBefore : Nat → (stops : List Token) → (block dashes : Bool) → List Token →
    Option (Node × List Token)
  | 0, _, _, _, _ => none
  | fuel + 1, stops, block, dashes, ts =>
    if comes stops ts then some (.blank, ts) else node fuel block dashes ts

/-- What follows a key: a value after a colon, or a blank. -/
def valueBefore : Nat → (stops : List Token) → (block dashes : Bool) → List Token →
    Option (Node × List Token)
  | 0, _, _, _, _ => none
  | fuel + 1, stops, block, dashes, ts =>
    match ts with
    | .value :: rest => nodeBefore fuel stops block dashes rest
    | _ => some (.blank, ts)

/-- Items up to the end of a sequence by columns. -/
def items : Nat → List Token → Option (List Node × List Token)
  | fuel + 1, .dash :: rest => do
    let (n, after) ← nodeBefore fuel [.dash, .blockEnd] true false rest
    let (ns, after) ← items fuel after
    return (n :: ns, after)
  | _ + 1, .blockEnd :: rest => some ([], rest)
  | _, _ => none

/-- Items of a sequence that ends where there are no more dashes. -/
def sameColumnItems : Nat → List Token → Option (List Node × List Token)
  | 0, _ => none
  | fuel + 1, ts =>
    match ts with
    | .dash :: rest => do
      let (n, after) ← nodeBefore fuel [.dash, .key, .value, .blockEnd] true false rest
      let (ns, after) ← sameColumnItems fuel after
      return (n :: ns, after)
    | _ => some ([], ts)

/-- Members up to the end of a mapping by columns. -/
def members : Nat → List Token → Option (List (Node × Node) × List Token)
  | fuel + 1, .key :: rest => do
    let (k, after) ← nodeBefore fuel [.key, .value, .blockEnd] true true rest
    let (v, after) ← valueBefore fuel [.key, .value, .blockEnd] true true after
    let (ms, after) ← members fuel after
    return ((k, v) :: ms, after)
  | _ + 1, .blockEnd :: rest => some ([], rest)
  | _, _ => none

/-- An item of a sequence in brackets.  A key starts a mapping of one member; where no key
follows, the token in its place is passed over. -/
def inItem : Nat → List Token → Option (Node × List Token)
  | 0, _ => none
  | fuel + 1, ts =>
    match ts with
    | .key :: rest => do
      let (k, after) ←
        if comes [.value, .comma, .closeSequence] rest then some (.blank, rest.tail)
        else node fuel false false rest
      let (v, after) ← valueBefore fuel [.comma, .closeSequence] false false after
      return (.mapping [(k, v)], after)
    | _ => node fuel false false ts

/-- Items up to the closing bracket. -/
def inItems : Nat → List Token → Option (List Node × List Token)
  | 0, _ => none
  | fuel + 1, ts =>
    match ts with
    | .closeSequence :: rest => some ([], rest)
    | _ => do
      let (n, after) ← inItem fuel ts
      match after with
      | .comma :: after => do
        let (ns, after) ← inItems fuel after
        return (n :: ns, after)
      | .closeSequence :: after => return ([n], after)
      | _ => none

/-- A member of a mapping in brackets.  What is no key has no value. -/
def inMember : Nat → List Token → Option ((Node × Node) × List Token)
  | 0, _ => none
  | fuel + 1, ts =>
    match ts with
    | .key :: rest => do
      let (k, after) ← nodeBefore fuel [.value, .comma, .closeMapping] false false rest
      let (v, after) ← valueBefore fuel [.comma, .closeMapping] false false after
      return ((k, v), after)
    | _ => do
      let (k, after) ← node fuel false false ts
      return ((k, .blank), after)

/-- Members up to the closing bracket. -/
def inMembers : Nat → List Token → Option (List (Node × Node) × List Token)
  | 0, _ => none
  | fuel + 1, ts =>
    match ts with
    | .closeMapping :: rest => some ([], rest)
    | _ => do
      let (m, after) ← inMember fuel ts
      match after with
      | .comma :: after => do
        let (ms, after) ← inMembers fuel after
        return (m :: ms, after)
      | .closeMapping :: after => return ([m], after)
      | _ => none

end

/-- The root of a document: a blank where no token comes. -/
def root (ts : List Token) : Option (Node × List Token) :=
  if ts.isEmpty then some (.blank, []) else node (4 * ts.length) true false ts

/-- One document, with or without a marker in front, and any number of markers behind. -/
def ofTokens? (ts : List Token) : Option Node := do
  let (n, after) ←
    match ts with
    | .documentStart :: rest =>
      if comes [.documentStart, .documentEnd] rest then some (.blank, rest) else root rest
    | _ => root ts
  if after.all (· = .documentEnd) then return n else none

end Document

/-- The tree of a text, if the text is one document. -/
def Node.ofText? (text : String) : Option Node := (Token.ofText? text).bind Document.ofTokens?

end EntityGraph.Yaml
