import AhoCorasick.Basic

/-!
# Matches, occurrences and prefixes

A match is an occurrence of a pattern in a text. It is kept as the pattern's id, the number of
bytes and the offset behind the last one; the offset of the first byte follows from the last two.

What patterns call for is said here of the patterns alone. `occurrences` looks at every end, every length and every
pattern: this is what a search has to answer, and in the same order, ends ascending, lengths descending, ids ascending.
Empty patterns have no occurrences. `prefixes` are the distinct prefixes in the order in which they first occur, patterns
in order and the prefixes of each by ascending length; the empty prefix comes first, also if there is no pattern. The
states of a trie are these prefixes, numbered by their positions.
-/

namespace AhoCorasick

structure Match where
  /-- The id of the pattern. -/
  pattern : Nat
  length : Nat
  /-- The offset behind the last byte. -/
  stop : Nat
deriving DecidableEq, Inhabited

namespace Match

/-- The occurrence of a pattern that ends at an offset. -/
def ofPattern (p : Pattern) (stop : Nat) : Match := ⟨p.id, p.length, stop⟩

/-- The offset of the first byte. -/
def start (m : Match) : Nat := m.stop - m.length

def isEmpty (m : Match) : Bool := m.length == 0

/-! ## Lists of matches -/

/-- For each match of a list, the position of the first match that is equal to it. -/
def firstPositions (ms : List Match) : List Nat := ms.map fun m => ms.idxOf m

/-- The number of different matches in a list. -/
def distinct (ms : List Match) : Nat := ms.eraseDups.length

end Match

/-! ## Occurrences -/

/-- The ids of the patterns that are equal to a word, in ascending order. -/
def idsOf (patterns : List Bytes) (w : Bytes) : List Nat :=
  (List.range patterns.length).filter fun i => patterns[i]? = some w

/-- The occurrences that end at an offset: the longest ones first. -/
def occurrencesAt (patterns : List Bytes) (text : Bytes) (stop : Nat) : List Match :=
  (List.range' 1 stop).reverse.flatMap fun length =>
    (idsOf patterns ((text.take stop).drop (stop - length))).map fun i => ⟨i, length, stop⟩

def occurrences (patterns : List Bytes) (text : Bytes) : List Match :=
  (List.range' 1 text.length).flatMap (occurrencesAt patterns text)

/-! ## Prefixes -/

/-- All prefixes of a word, by ascending length. -/
def prefixesOf (w : Bytes) : List Bytes := (List.range (w.length + 1)).map w.take

/-- The distinct prefixes of the patterns in the order in which they first occur. -/
def prefixes (patterns : List Bytes) : List Bytes :=
  ([] :: patterns.flatMap prefixesOf).eraseDups

end AhoCorasick
