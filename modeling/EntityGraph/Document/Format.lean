/-!
# Document formats

The format of a document follows the extension of its file name: `yaml` and `yml`, in capitals
or not, are YAML, and everything else is JSON.

The extension is what follows the last dot of the last component of a path, unless that dot
starts the component.  Slashes and `.` at the end of a path are no components of their own; a
path that ends in `..` has no file name.
-/

namespace EntityGraph

inductive Format where
  | json | yaml
  deriving DecidableEq

namespace FileName

/-- The parts of a path between its slashes. -/
def components : List Char → List (List Char)
  | [] => [[]]
  | c :: rest =>
    let parts := components rest
    if c = '/' then [] :: parts else (c :: parts.headD []) :: parts.tail

/-- The last component of a path, if it names a file. -/
def last? (path : List Char) : Option (List Char) :=
  match components path with
  | [] => none
  | first :: rest =>
    match rest.reverse.dropWhile (fun c => c.isEmpty || c = ['.']) with
    | c :: _ => if c = ['.', '.'] then none else some c
    | [] => if first.isEmpty || first = ['.'] || first = ['.', '.'] then none else some first

/-- The part after the last dot, with a dot and something before it. -/
def extension? (name : List Char) : Option (List Char) :=
  let reversed := name.reverse
  let after := reversed.takeWhile (· ≠ '.')
  match reversed.dropWhile (· ≠ '.') with
  | _ :: _ :: _ => some after.reverse
  | _ => none

end FileName

namespace Format

def ofPath (path : String) : Format :=
  match (FileName.last? path.toList).bind FileName.extension? with
  | some ext =>
    let ext := ext.map Char.toLower
    if ext = ['y', 'a', 'm', 'l'] || ext = ['y', 'm', 'l'] then .yaml else .json
  | none => .json

end Format

end EntityGraph
