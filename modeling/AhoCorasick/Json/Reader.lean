import AhoCorasick.Json.Basic

/-!
# Reading JSON

`Json.read?` reads a text that holds one value and nothing else but blanks. Each reader takes a
list of characters and gives a value and the characters behind it. Readers of nested values carry a
bound; the length of the text is always enough, because every round consumes a character.

An integer of 64 bits, signed or unsigned, is kept exactly. Any other number, minus zero among them,
becomes a float; see `Json.Reader.float?` for how it is rounded.
-/

namespace AhoCorasick

namespace Json

/-- A reader gives a value and the characters behind it, or refuses the text. -/
abbrev Reader (α : Type) := List Char → Option (α × List Char)

namespace Reader

/-- Whether a character may stand between the tokens of a text. -/
def isBlank (c : Char) : Bool := c == ' ' || c == '\t' || c == '\n' || c == '\r'

/-- The text behind the blanks at its beginning. -/
def skipBlanks (cs : List Char) : List Char := cs.dropWhile isBlank

/-! ## Numbers -/

/-- Reads digits onto a number as long as it fits a word; says how many are left. -/
def absorb : Nat → List Char → Nat × Nat
  | n, [] => (n, 0)
  | n, c :: cs =>
    let n' := 10 * n + (c.toNat - '0'.toNat)
    if n' < wordCount then absorb n' cs else (n, cs.length + 1)

def tenTo (n : Nat) : Float := OfScientific.ofScientific 1 false n

/-- Scales a float by a power of ten in one multiplication or at most two divisions; refuses a
result that is not finite. -/
def scale? (x : Float) (exponent : Int) : Option Float :=
  if x == 0 then some 0
  else if 308 < exponent then none
  else if 0 ≤ exponent then
    let y := x * tenTo exponent.toNat
    if y.isInf then none else some y
  else if -308 ≤ exponent then some (x / tenTo (-exponent).toNat)
  else if -616 ≤ exponent then some (x / tenTo 308 / tenTo (-exponent - 308).toNat)
  else some 0

/-- The float that digits before and behind the point and an exponent stand for. Digits are taken
into the significand as long as it fits a word, before the point and behind it, and the others
before the point only count. The significand is rounded to a float and then scaled. -/
def float? (negative : Bool) (whole fraction : List Char) (exponent : Int) : Option Float :=
  let (n, dropped) := absorb 0 whole
  let (n, left) := absorb n fraction
  let shift : Int := dropped - (fraction.length - left : Nat)
  (scale? (Float.ofNat n) (shift + exponent)).map fun x => if negative then -x else x

/-- The fraction behind a whole number: a point and at least one digit, or nothing. -/
def fraction : Reader (Option (List Char))
  | '.' :: cs =>
    match cs.span Char.isDigit with
    | ([], _) => none
    | (digits, rest) => some (some digits, rest)
  | cs => some (none, cs)

def valueOfDigits (digits : List Char) : Nat := Nat.ofDigitChars 10 digits 0

/-- The exponent of a number: a letter, a sign or none, and at least one digit, or nothing. -/
def exponent : Reader (Option Int)
  | c :: cs =>
    if c == 'e' || c == 'E' then
      let (negative, cs) := match cs with
        | '-' :: cs => (true, cs)
        | '+' :: cs => (false, cs)
        | cs => (false, cs)
      match cs.span Char.isDigit with
      | ([], _) => none
      | (digits, rest) =>
        let n : Int := valueOfDigits digits
        some (some (if negative then -n else n), rest)
    else some (none, c :: cs)
  | [] => some (none, [])

def magnitude (negative : Bool) (cs : List Char) : Option (Json × List Char) :=
  match cs.span Char.isDigit with
  | ([], _) => none
  | ('0' :: _ :: _, _) => none
  | (whole, rest) =>
    match fraction rest with
    | none => none
    | some (f, rest) =>
      match exponent rest with
      | none => none
      | some (e, rest) =>
        let n := valueOfDigits whole
        let asFloat := (float? negative whole (f.getD []) (e.getD 0)).map fun x => (.float x, rest)
        if f.isSome || e.isSome then asFloat
        else if negative then
          if 0 < n ∧ n ≤ wordCount / 2 then some (.integer (-n), rest) else asFloat
        else if n < wordCount then some (.integer n, rest) else asFloat

def number : Reader Json
  | '-' :: cs => magnitude true cs
  | cs => magnitude false cs

/-! ## Strings -/

def hexDigit? (c : Char) : Option Nat :=
  if '0' ≤ c ∧ c ≤ '9' then some (c.toNat - '0'.toNat)
  else if 'a' ≤ c ∧ c ≤ 'f' then some (c.toNat - 'a'.toNat + 10)
  else if 'A' ≤ c ∧ c ≤ 'F' then some (c.toNat - 'A'.toNat + 10)
  else none

/-- The code unit that four hexadecimal digits stand for. -/
def codeUnit? (a b c d : Char) : Option Nat := do
  let high := (← hexDigit? a) * 16 + (← hexDigit? b)
  let low := (← hexDigit? c) * 16 + (← hexDigit? d)
  return high * 256 + low

/-- The character that a letter stands for behind a backslash. -/
def escape? : Char → Option Char
  | '"' => some '"'
  | '\\' => some '\\'
  | '/' => some '/'
  | 'b' => some '\x08'
  | 'f' => some '\x0c'
  | 'n' => some '\n'
  | 'r' => some '\r'
  | 't' => some '\t'
  | _ => none

/-- The rest of a string, put before the quote that opened it was read. `high` is the first half of
a pair of code units whose second half has to follow; `read` holds the characters read so far, the
last one first. -/
def stringRest (high : Option Nat) (read : List Char) : Reader String
  | '\\' :: 'u' :: a :: b :: c :: d :: cs =>
    match codeUnit? a b c d, high with
    | none, _ => none
    | some u, none =>
      if 0xd800 ≤ u ∧ u < 0xdc00 then stringRest (some u) read cs
      else if 0xdc00 ≤ u ∧ u < 0xe000 then none
      else stringRest none (Char.ofNat u :: read) cs
    | some u, some h =>
      if 0xdc00 ≤ u ∧ u < 0xe000 then
        stringRest none (Char.ofNat (0x10000 + (h - 0xd800) * 0x400 + (u - 0xdc00)) :: read) cs
      else none
  | '\\' :: c :: cs =>
    match high, escape? c with
    | none, some c => stringRest none (c :: read) cs
    | _, _ => none
  | '"' :: cs => if high.isNone then some (String.ofList read.reverse, cs) else none
  | c :: cs => if high.isNone ∧ ' ' ≤ c then stringRest none (c :: read) cs else none
  | [] => none

def string : Reader String
  | '"' :: cs => stringRest none [] cs
  | _ => none

/-! ## Values -/

/-- The rest of a list whose items are separated by commas and which ends with `close`. `read`
holds the items read so far, the last one first. -/
def separated {α : Type} (item : Reader α) (close : Char) :
    (bound : Nat) → List α → Reader (List α)
  | 0, _, _ => none
  | bound + 1, read, cs =>
    match item cs with
    | none => none
    | some (a, cs) =>
      match skipBlanks cs with
      | ',' :: cs => separated item close bound (a :: read) cs
      | c :: cs => if c = close then some ((a :: read).reverse, cs) else none
      | [] => none

def items {α : Type} (item : Reader α) (close : Char) (bound : Nat) (cs : List Char) :
    Option (List α × List Char) :=
  match skipBlanks cs with
  | [] => none
  | c :: rest => if c = close then some ([], rest) else separated item close bound [] (c :: rest)

def field (value : Reader Json) (cs : List Char) : Option ((String × Json) × List Char) :=
  match string (skipBlanks cs) with
  | none => none
  | some (name, cs) =>
    match skipBlanks cs with
    | ':' :: cs => (value cs).map fun (v, cs) => ((name, v), cs)
    | _ => none

/-- A value, behind blanks or none. -/
def value : (bound : Nat) → Reader Json
  | 0, _ => none
  | bound + 1, cs =>
    match skipBlanks cs with
    | 'n' :: 'u' :: 'l' :: 'l' :: cs => some (.null, cs)
    | 't' :: 'r' :: 'u' :: 'e' :: cs => some (.bool true, cs)
    | 'f' :: 'a' :: 'l' :: 's' :: 'e' :: cs => some (.bool false, cs)
    | '"' :: cs => (stringRest none [] cs).map fun (s, cs) => (.string s, cs)
    | '[' :: cs => (items (value bound) ']' bound cs).map fun (vs, cs) => (.array vs, cs)
    | '\x7b' :: cs =>
      (items (field (value bound)) '\x7d' bound cs).map fun (fs, cs) => (.ofFields fs, cs)
    | cs => number cs

end Reader

def read? (text : List Char) : Option Json :=
  match Reader.value (text.length + 1) text with
  | none => none
  | some (v, rest) => if (Reader.skipBlanks rest).isEmpty then some v else none

end Json

end AhoCorasick
