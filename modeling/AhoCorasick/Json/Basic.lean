import AhoCorasick.Basic

/-!
# JSON values

An integer and a float are different values: `1` is no float and `1.0` is no integer. An object
holds its fields by ascending name, each name once; `Json.ofFields` makes such an object, in which
the last of several fields of one name counts.
-/

namespace AhoCorasick

inductive Json where
  | null
  | bool (value : Bool)
  | integer (value : Int)
  | float (value : Float)
  | string (value : String)
  | array (items : List Json)
  | object (fields : List (String × Json))
deriving Inhabited

namespace Json

/-- Puts a field in its place among fields sorted by name, and in place of one of that name. -/
def insertField (field : String × Json) : List (String × Json) → List (String × Json)
  | [] => [field]
  | head :: rest =>
    if field.1 < head.1 then field :: head :: rest
    else if field.1 = head.1 then field :: rest
    else head :: insertField field rest

def ofFields (fields : List (String × Json)) : Json :=
  .object (fields.foldl (fun sorted field => insertField field sorted) [])

def natural (n : Nat) : Json := .integer n

/-! ## Looking into a value -/

def field? (name : String) : Json → Option Json
  | .object fields => fields.lookup name
  | _ => none

def items? : Json → Option (List Json)
  | .array items => some items
  | _ => none

def string? : Json → Option String
  | .string s => some s
  | _ => none

def bool? : Json → Option Bool
  | .bool b => some b
  | _ => none

/-- A size: an integer that a machine word of 64 bits can hold. -/
def size? : Json → Option Nat
  | .integer n => if 0 ≤ n ∧ n < wordCount then some n.toNat else none
  | _ => none

end Json

end AhoCorasick
