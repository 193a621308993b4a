import EntityGraph.Json.Printer
import EntityGraph.Text.Shown

/-!
# Why a document is refused

The causes that stop decoding, and the wording of each.
-/

namespace EntityGraph

/-- What a decoder came upon in place of the value it expected. -/
inductive Found where
  | null
  | bool (value : Bool)
  | int (value : Int)
  | float (value : Float)
  | text (value : String)
  | sequence
  | map

/-- What a decoder expected. -/
inductive Expected where
  | text
  | flag
  | id
  | index
  | sequence
  | map
  | record (name : String)
  | tagged (name : String)
  /-- the name of a kind -/
  | variant
  /-- the place of a kind among the `count` kinds there are -/
  | variantIndex (count : Nat)
  | entities

inductive DecodeError where
  /-- The text is no document. -/
  | malformed
  | invalidType (found : Found) (expected : Expected)
  | invalidValue (found : Found) (expected : Expected)
  /-- A record written as a sequence ends before a member that has to be there; `place` members
  come before that one. -/
  | tooShort (place : Nat) (record : String) (members : Nat)
  /-- A record written as a sequence has more items than members. -/
  | tooLong (length : Nat) (members : Nat)
  | missingMember (name : String)
  | repeatedMember (name : String)
  | unknownVariant (name : String) (alternatives : List String)
  | duplicateEntity (name : String)

namespace Found

def describe : Found → String
  | .null => "null"
  | .bool true => "boolean `true`"
  | .bool false => "boolean `false`"
  | .int n => "integer `" ++ intString n ++ "`"
  | .float x => "floating point `" ++ String.ofList (floatText x) ++ "`"
  | .text s => "string " ++ Text.shown s
  | .sequence => "sequence"
  | .map => "map"

end Found

namespace Expected

def describe : Expected → String
  | .text => "a string"
  | .flag => "a boolean"
  | .id => "u32"
  | .index => "usize"
  | .sequence => "a sequence"
  | .map => "a map"
  | .record name => "struct " ++ name
  | .tagged name => "internally tagged enum " ++ name
  | .variant => "variant identifier"
  | .variantIndex count => "variant index 0 <= i < " ++ natString count
  | .entities => "a map from entity name to node"

end Expected

namespace DecodeError

/-- A number of elements, with its noun. -/
def elements (n : Nat) : String :=
  if n = 1 then "1 element" else natString n ++ " elements"

/-- Names between backquotes: two are joined by `or`, more are a list. -/
def alternatives : List String → String
  | [] => "there are no variants"
  | [a] => "expected `" ++ a ++ "`"
  | [a, b] => "expected `" ++ a ++ "` or `" ++ b ++ "`"
  | names => "expected one of " ++ ", ".intercalate (names.map fun a => "`" ++ a ++ "`")

/-- Takes a number of at most 64 bits and the words before it off the end of a text.  Both texts
are in reverse. -/
def dropNumbered? (words text : List Char) : Option (List Char) :=
  let digits := text.takeWhile Char.isDigit
  let rest := text.drop digits.length
  let number := digits.foldr (fun c n => 10 * n + (c.toNat - '0'.toNat)) 0
  if !digits.isEmpty && number < Nat.pow 2 64 && words.isPrefixOf rest then
    some (rest.drop words.length)
  else none

/-- A message without the place in the text that it ends with. -/
def withoutPlace (message : String) : String :=
  let dropped := (dropNumbered? " column ".toList.reverse message.toList.reverse).bind
    (dropNumbered? " at line ".toList.reverse)
  (dropped.map fun text => String.ofList text.reverse).getD message

/-- The wording of a cause.  A place at the end of a message counts as a mention of where in the
text the cause lies, which is no part of it, also where a name ends like that. -/
def message : DecodeError → String
  | .malformed => "syntax"
  | .invalidType found expected =>
    "invalid type: " ++ found.describe ++ ", expected " ++ expected.describe
  | .invalidValue found expected =>
    "invalid value: " ++ found.describe ++ ", expected " ++ expected.describe
  | .tooShort place record members =>
    "invalid length " ++ natString place ++ ", expected struct " ++ record ++
      " with " ++ elements members
  | .tooLong length members =>
    "invalid length " ++ natString length ++ ", expected " ++ elements members ++
      " in sequence"
  | .missingMember name => "missing field `" ++ name ++ "`"
  | .repeatedMember name => "duplicate field `" ++ name ++ "`"
  | .unknownVariant name names => "unknown variant `" ++ name ++ "`, " ++ alternatives names
  | .duplicateEntity name => withoutPlace ("duplicated entity name: " ++ name)

end DecodeError

end EntityGraph
