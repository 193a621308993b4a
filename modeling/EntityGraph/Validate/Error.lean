import EntityGraph.Duration
import EntityGraph.Json.Basic
import EntityGraph.Validate.Path

/-!
# Why a payload is rejected
-/

namespace EntityGraph

inductive ValidationError where
  | assertionFailed (path : FieldPath) (reason : String)
  | transformRejected (path : FieldPath) (reason : String)
  /-- Something else was found where an object belongs. -/
  | invalidShape (path : FieldPath) (found : Json.Kind)
  /-- No object of the input schema has the name. -/
  | unknownEntity (name : String)
  | timedOut (entity : String) (limit : Duration)

namespace ValidationError

def path? : ValidationError → Option FieldPath
  | .assertionFailed path _ => some path
  | .transformRejected path _ => some path
  | .invalidShape path _ => some path
  | .unknownEntity _ => none
  | .timedOut .. => none

def message : ValidationError → String
  | .assertionFailed path reason => s!"assertion failed at {path.text}: {reason}"
  | .transformRejected path reason => s!"transform failed at {path.text}: {reason}"
  | .invalidShape path found => s!"expected an object at {path.text}, found {found.name}"
  | .unknownEntity name => s!"no input object named \"{name}\""
  | .timedOut entity limit => s!"validation of {entity} timed out after {limit.text}"

end ValidationError

end EntityGraph
