/-!
# Numerals

Whole numbers in decimal digits.
-/

namespace EntityGraph

def natText (n : Nat) : List Char := Nat.toDigits 10 n

def intText : Int → List Char
  | .ofNat n => natText n
  | .negSucc n => '-' :: natText (n + 1)

def natString (n : Nat) : String := String.ofList (natText n)

def intString (n : Int) : String := String.ofList (intText n)

end EntityGraph
