import EntityGraph.FieldType.Basic

/-!
# Names of field types

Two names of a type.  The escaped name is the key under which an instantiation of a template is
registered; the generic name is the one that people read.

    type                      escaped name           generic name
    Page<User>                Page_User              Page<User>
    Page<User[]>              Page__User             Page<User[]>
    Pair<Page<User>, Tag>     Pair_Page_User_Tag     Pair<Page<User>, Tag>

Each list puts one `_` in front of the escaped name, and one stands before each argument.
-/

namespace EntityGraph

namespace FieldType

mutual

def escapedName : FieldType → String
  | .list element _ => "_" ++ element.escapedName
  | .named name _ => name
  | .generic name args _ => name ++ escapedArgs args

def escapedArgs : List FieldType → String
  | [] => ""
  | a :: rest => "_" ++ a.escapedName ++ escapedArgs rest

end

mutual

def genericName : FieldType → String
  | .list element _ => element.genericName ++ "[]"
  | .named name _ => name
  | .generic name args _ => name ++ "<" ++ ", ".intercalate (genericNames args) ++ ">"

def genericNames : List FieldType → List String
  | [] => []
  | a :: rest => a.genericName :: genericNames rest

end

end FieldType

namespace Reference

def escapedName (r : Reference) : String := r.toType.escapedName

def genericName (r : Reference) : String := r.toType.genericName

end Reference

end EntityGraph
