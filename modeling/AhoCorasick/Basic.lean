/-!
# States, patterns and layouts

The words that every other module uses. Bytes are `UInt8`. A pattern is a list of bytes and is
known by its position in the list of patterns; text to be searched is an array of bytes.
-/

namespace AhoCorasick

/-- States are numbered in the order in which they are made. -/
abbrev StateId := Nat

/-- The number of ids: one for each word of 32 bits. -/
def stateIdCount : Nat := 4294967296

/-- The state of the empty prefix, where every search begins. -/
abbrev root : StateId := 0

abbrev Bytes := List UInt8

def Bytes.ofString (s : String) : Bytes := s.toUTF8.toList

abbrev Haystack := Array UInt8

/-- How a state stores its transitions. -/
inductive Layout where
  /-- A table of the transitions that exist, sorted by byte. -/
  | sparse
  /-- A table with a slot for each of the 256 bytes. -/
  | dense
deriving DecidableEq, Inhabited

/-- A pattern as it is recorded at the state where it ends. -/
structure Pattern where
  /-- The position of the pattern in the list that the automaton was built from. -/
  id : Nat
  /-- The number of bytes of the pattern. -/
  length : Nat
deriving DecidableEq, Inhabited

/-- The number of values of a word of 64 bits. -/
def wordCount : Nat := 18446744073709551616

def allBytes : List UInt8 :=
  (List.finRange 256).map UInt8.ofFin

end AhoCorasick
