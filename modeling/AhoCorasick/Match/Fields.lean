import AhoCorasick.Json.Writer
import AhoCorasick.Occurrences
import AhoCorasick.Text.Literal

/-!
# Matches as JSON

A match is written as an object with the fields `pattern`, `len` and `end`. It is read from such an
object, from an array of the three values in this order, or from a list of fields that come one
after another.

Fields are read in the order in which they come. A field that comes a second time is refused before
its value is looked at, a field of another name is skipped whatever it holds, and only when all
have been read are missing fields looked for. Last of all, a match must not be longer than the text
before its end.
-/

namespace AhoCorasick

namespace Match

inductive Field where
  | pattern
  | length
  | stop
deriving DecidableEq

def Field.name : Field → String
  | .pattern => "pattern"
  | .length => "len"
  | .stop => "end"

def Field.ofName? (name : String) : Option Field :=
  [pattern, length, stop].find? (·.name == name)

/-! ## Writing -/

/-- The fields of a match in the order in which they are written. -/
def fields (m : Match) : List (String × Json) :=
  [(Field.pattern.name, .natural m.pattern), (Field.length.name, .natural m.length),
   (Field.stop.name, .natural m.stop)]

def json (m : Match) : List Char := Json.write (.object m.fields)

/-! ## Reading -/

/-- Why a value is no match. -/
inductive ReadError where
  /-- The value is neither an object nor an array. -/
  | notMatch (found : Json)
  /-- The value of a field is not a size. -/
  | notSize (found : Json)
  | duplicate (field : Field)
  | missing (field : Field)
  | tooShort (count : Nat)
  | tooLong (count : Nat)
  /-- The match is longer than the text before its end. -/
  | overlong (length stop : Nat)

/-- What a value is, for a message. -/
def describe : Json → String
  | .null => "null"
  | .bool b => "boolean `" ++ (if b then "true" else "false") ++ "`"
  | .integer n => "integer `" ++ String.ofList (Json.writeInt n) ++ "`"
  | .float x => "floating point `" ++ String.ofList (Decimal.textOfFloat x) ++ "`"
  | .string s => "string " ++ String.ofList (Text.quote s)
  | .array _ => "sequence"
  | .object _ => "map"

def ReadError.message : ReadError → String
  | .notMatch found => "invalid type: " ++ describe found ++ ", expected struct RawMatch"
  | .notSize (.integer n) => "invalid value: " ++ describe (.integer n) ++ ", expected usize"
  | .notSize found => "invalid type: " ++ describe found ++ ", expected usize"
  | .duplicate field => "duplicate field `" ++ field.name ++ "`"
  | .missing field => "missing field `" ++ field.name ++ "`"
  | .tooShort count =>
    "invalid length " ++ toString count ++ ", expected struct RawMatch with 3 elements"
  | .tooLong count => "invalid length " ++ toString count ++ ", expected fewer elements in array"
  | .overlong length stop =>
    "match of length " ++ toString length ++ " cannot end at " ++ toString stop

/-- The match of three values, if it is not longer than the text before its end. -/
def check (pattern length stop : Nat) : Except ReadError Match :=
  if stop < length then .error (.overlong length stop) else .ok ⟨pattern, length, stop⟩

/-- The size that a value stands for. -/
def readSize (v : Json) : Except ReadError Nat :=
  match v.size? with
  | some n => .ok n
  | none => .error (.notSize v)

structure Draft where
  pattern : Option Nat := none
  length : Option Nat := none
  stop : Option Nat := none
deriving DecidableEq

namespace Draft

def get? (d : Draft) : Field → Option Nat
  | .pattern => d.pattern
  | .length => d.length
  | .stop => d.stop

def set (d : Draft) (n : Nat) : Field → Draft
  | .pattern => { d with pattern := some n }
  | .length => { d with length := some n }
  | .stop => { d with stop := some n }

def read (d : Draft) : String × Json → Except ReadError Draft
  | (name, v) =>
    match Field.ofName? name with
    | none => .ok d
    | some field =>
      if (d.get? field).isSome then .error (.duplicate field)
      else (readSize v).map fun n => d.set n field

def require (d : Draft) (field : Field) : Except ReadError Nat :=
  match d.get? field with
  | some n => .ok n
  | none => .error (.missing field)

end Draft

def ofFields (fields : List (String × Json)) : Except ReadError Match := do
  let d ← fields.foldlM Draft.read {}
  let pattern ← d.require .pattern
  let length ← d.require .length
  let stop ← d.require .stop
  check pattern length stop

def readItem (items : List Json) (i : Nat) : Except ReadError Nat :=
  match items[i]? with
  | some v => readSize v
  | none => .error (.tooShort items.length)

def ofItems (items : List Json) : Except ReadError Match := do
  let pattern ← readItem items 0
  let length ← readItem items 1
  let stop ← readItem items 2
  if 3 < items.length then throw (.tooLong items.length)
  check pattern length stop

def ofJson : Json → Except ReadError Match
  | .array items => ofItems items
  | .object fields => ofFields fields
  | v => .error (.notMatch v)

end Match

end AhoCorasick
