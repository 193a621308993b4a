import EntityGraph.Text.Numeral

/-!
# Reports of failures

A report shows a failure and the causes behind it.

    Error: what failed

    Caused by:
        0: why
        1: why that

A single cause has no number.  Further lines of a cause are indented like its first.
-/

namespace EntityGraph

/-- A failure of a command, with its causes from the nearest on. -/
structure Failure where
  message : String
  causes : List String

namespace Failure

/-- Puts blanks after every line end. -/
def indented (blanks : Nat) (s : String) : String :=
  String.ofList (s.toList.flatMap fun c =>
    if c = '\n' then c :: List.replicate blanks ' ' else [c])

/-- A number at the right end of five columns. -/
def numbered (n : Nat) : String :=
  let digits := natText n
  String.ofList (List.replicate (5 - digits.length) ' ' ++ digits) ++ ": "

def causeLines : Nat → List String → List String
  | _, [] => []
  | n, cause :: rest => (numbered n ++ indented 7 cause) :: causeLines (n + 1) rest

def text (f : Failure) : String :=
  "Error: " ++ f.message ++ "\n" ++
    match f.causes with
    | [] => ""
    | [cause] => "\nCaused by:\n    " ++ indented 4 cause ++ "\n"
    | causes => "\nCaused by:\n" ++ String.join ((causeLines 0 causes).map (· ++ "\n"))

end Failure

end EntityGraph
