import AhoCorasick.Decimal.Shortest
import AhoCorasick.Json.Basic

/-!
# Writing JSON

`Json.write` gives the text of a value without blanks, the fields of an object in the order in
which they stand.
-/

namespace AhoCorasick

namespace Json

def writeNat (n : Nat) : List Char := Nat.toDigits 10 n

def writeInt : Int → List Char
  | .ofNat n => writeNat n
  | .negSucc n => '-' :: writeNat (n + 1)

/-- How a character is written in a string. -/
def writeChar (c : Char) : List Char :=
  match c with
  | '"' => ['\\', '"']
  | '\\' => ['\\', '\\']
  | '\x08' => ['\\', 'b']
  | '\x0c' => ['\\', 'f']
  | '\n' => ['\\', 'n']
  | '\r' => ['\\', 'r']
  | '\t' => ['\\', 't']
  | c =>
    if c < ' ' then
      ['\\', 'u', '0', '0', Nat.digitChar (c.toNat / 16), Nat.digitChar (c.toNat % 16)]
    else [c]

def writeString (s : String) : List Char := '"' :: s.toList.flatMap writeChar ++ ['"']

/-- The texts of items with commas between them, in brackets. -/
def bracketed (opening : Char) (items : List (List Char)) (close : Char) : List Char :=
  opening :: (items.intersperse [',']).flatten ++ [close]

mutual

def write : Json → List Char
  | .null => ['n', 'u', 'l', 'l']
  | .bool b => if b then ['t', 'r', 'u', 'e'] else ['f', 'a', 'l', 's', 'e']
  | .integer n => writeInt n
  | .float x => Decimal.textOfFloat x
  | .string s => writeString s
  | .array items => bracketed '[' (writeItems items) ']'
  | .object fields => bracketed '\x7b' (writeFields fields) '\x7d'

def writeItems : List Json → List (List Char)
  | [] => []
  | v :: vs => write v :: writeItems vs

def writeFields : List (String × Json) → List (List Char)
  | [] => []
  | (name, v) :: fields => (writeString name ++ ':' :: write v) :: writeFields fields

end

end Json

end AhoCorasick
