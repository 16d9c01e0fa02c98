import AhoCorasick.Text.Printable

/-!
# Quoted text and literals

`Text.quote` puts a text between double quotes so that the result stands on one line and can be
read by a person: control characters of use have a letter behind a backslash, and a character that
cannot be shown is given by its code point.

A value is shown on one line as a literal: a number, a word, a quoted text, a list in brackets, a
tuple in parentheses, or a record in braces whose fields are named. Items are separated by a comma
and a space. `Literal.render` writes a literal out.
-/

namespace AhoCorasick

/-! ## Quoted text -/

namespace Text

/-- How a character is written between quotes. -/
def escapeChar (c : Char) : List Char :=
  match c with
  | '\x00' => ['\\', '0']
  | '\t' => ['\\', 't']
  | '\n' => ['\\', 'n']
  | '\r' => ['\\', 'r']
  | '"' => ['\\', '"']
  | '\\' => ['\\', '\\']
  | c =>
    if isPrintable c then [c]
    else '\\' :: 'u' :: '\x7b' :: Nat.toDigits 16 c.toNat ++ ['\x7d']

/-- A text between quotes. -/
def quote (s : String) : List Char := '"' :: s.toList.flatMap escapeChar ++ ['"']

end Text

/-! ## Literals -/

inductive Literal where
  | number (value : Nat)
  | word (word : String)
  | quoted (text : String)
  | list (items : List Literal)
  /-- Items in parentheses, behind a name that may be empty. -/
  | tuple (name : String) (items : List Literal)
  /-- Named items in braces, behind a name. -/
  | record (name : String) (fields : List (String × Literal))
deriving Inhabited

namespace Literal

/-- A value that may be missing. -/
def option : Option Nat → Literal
  | none => .word "None"
  | some n => .tuple "Some" [.number n]

def bool (b : Bool) : Literal := .word (if b then "true" else "false")

/-- Items with a comma and a space between them. -/
def commaSeparated (items : List (List Char)) : List Char :=
  (items.intersperse [',', ' ']).flatten

mutual

def render : Literal → List Char
  | .number n => Nat.toDigits 10 n
  | .word w => w.toList
  | .quoted s => Text.quote s
  | .list items => '[' :: commaSeparated (renderItems items) ++ [']']
  | .tuple name items => name.toList ++ '(' :: commaSeparated (renderItems items) ++ [')']
  | .record name fields =>
    name.toList ++ ' ' :: '\x7b' :: ' ' :: commaSeparated (renderFields fields) ++ [' ', '\x7d']

def renderItems : List Literal → List (List Char)
  | [] => []
  | l :: ls => render l :: renderItems ls

def renderFields : List (String × Literal) → List (List Char)
  | [] => []
  | (name, l) :: fields => (name.toList ++ ':' :: ' ' :: render l) :: renderFields fields

end

end Literal

end AhoCorasick
