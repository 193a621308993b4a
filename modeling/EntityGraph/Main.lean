import EntityGraph.Command.Basic

/-!
# The program

Runs a command on the machine.
-/

namespace EntityGraph

/-- The error of the machine in the terms of the commands. -/
def OsError.ofMachine : IO.Error → OsError
  | .noFileOrDirectory .. => .notFound
  | .alreadyExists .. => .exists
  | .inappropriateType _ 21 _ => .isDirectory
  | .inappropriateType .. => .notDirectory
  | .invalidArgument _ 36 _ => .nameTooLong
  | e => .other (toString e)

def attempt {α : Type} (action : IO α) : IO (Except OsError α) := do
  try return .ok (← action)
  catch e => return .error (.ofMachine e)

instance : Host IO where
  read path := attempt (IO.FS.readFile path)
  makeDirectory path := attempt (IO.FS.createDir path)
  write path text := attempt (IO.FS.writeFile path text)
  print text := do (← IO.getStdout).putStr text
  warn text := do (← IO.getStderr).putStr text

end EntityGraph

open EntityGraph in
def main (words : List String) : IO UInt32 := do
  return UInt32.ofNat (← (Invocation.ofWords false words).perform)
