/-!
# What a command needs from its surroundings

Reading and writing files, making directories, and printing.  A command is written once over
this interface; it runs on the machine, and on a model of a file system.
-/

namespace EntityGraph

inductive OsError where
  | notFound
  | exists
  | notDirectory
  | isDirectory
  | nameTooLong
  | other (message : String)
  deriving DecidableEq

def OsError.message : OsError → String
  | .notFound => "No such file or directory (os error 2)"
  | .exists => "File exists (os error 17)"
  | .notDirectory => "Not a directory (os error 20)"
  | .isDirectory => "Is a directory (os error 21)"
  | .nameTooLong => "File name too long (os error 36)"
  | .other message => message

class Host (m : Type → Type) where
  read : (path : String) → m (Except OsError String)
  /-- Makes a directory in one that is there. -/
  makeDirectory : (path : String) → m (Except OsError Unit)
  write : (path text : String) → m (Except OsError Unit)
  print : (text : String) → m Unit
  warn : (text : String) → m Unit

end EntityGraph
