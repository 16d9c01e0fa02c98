import AhoCorasick.Automaton
import AhoCorasick.Occurrences

/-!
# Cursors

A cursor stands in a text and finds one match after another. It reads no further than it needs: a
byte is consumed only when every match that ends before it has been given out. When a byte brings
the automaton to a new state, the cursor follows the output links from there and gives out the
patterns of each state on the way.

`Searching` is all calls for the next match, one after the other, in small rounds: one gives out a match, goes on to the
next output state, turns to a byte, follows a failure link, or consumes the byte. So the automaton can be seen in the
middle of a search for its next state. The rounds end with all matches and the place at the end of the text.
-/

namespace AhoCorasick

structure Place where
  /-- The number of bytes consumed. -/
  consumed : Nat := 0
  state : StateId := root
  /-- The state whose patterns are being given out. -/
  output : Option StateId := none
  /-- The position of the next one of these patterns. -/
  index : Nat := 0
deriving DecidableEq, Inhabited

namespace Automaton

/-- One round of the search for the next match: give out a pattern of the output state, go on to
the next output state, or consume a byte. -/
def advance (a : Automaton) (h : Haystack) (p : Place) : Round Place (Option Match × Place) :=
  match p.output with
  | some s =>
    match (a.endings s)[p.index]? with
    | some e => .done (some (.ofPattern e p.consumed), { p with index := p.index + 1 })
    | none => .again { p with output := a.output s, index := 0 }
  | none =>
    match h[p.consumed]? with
    | some b =>
      let s := a.next p.state b
      .again { consumed := p.consumed + 1, state := s, output := a.firstOutput s, index := 0 }
    | none => .done (none, p)

/-- A number of rounds in which the next match is found or the text ends: each byte that is left
is consumed once, and no chain of output links is longer than the number of states. -/
def reach (a : Automaton) (h : Haystack) (p : Place) : Nat :=
  (h.size - p.consumed + 1) * (a.size + 2)

/-- The next match and the place behind it; at the end of the text, nothing and the end. -/
def nextMatch (a : Automaton) (h : Haystack) (p : Place) : Option Match × Place :=
  (Round.run (a.advance h) (a.reach h p) p).getD (none, p)

end Automaton

/-- A place in a text that is searched with an automaton. -/
structure Cursor where
  automaton : Automaton
  haystack : Haystack
  place : Place := {}
deriving DecidableEq

namespace Cursor

/-- The next match, or nothing at the end of the text and ever after. -/
def next (c : Cursor) : Option Match × Cursor :=
  let (m, p) := c.automaton.nextMatch c.haystack c.place
  (m, { c with place := p })

/-- The match after the next `n`. -/
def nth : Nat → Cursor → Option Match × Cursor
  | 0, c => c.next
  | n + 1, c =>
    match c.next with
    | (none, c) => (none, c)
    | (some _, c) => nth n c

/-- Adds the next `n` matches, or as many as there are, to those found before. -/
def takeOnto : Nat → Array Match → Cursor → Array Match × Cursor
  | 0, found, c => (found, c)
  | n + 1, found, c =>
    match c.next with
    | (none, c) => (found, c)
    | (some m, c) => takeOnto n (found.push m) c

/-- The next `n` matches, or as many as there are. -/
def take (n : Nat) (c : Cursor) : List Match × Cursor :=
  let (found, c) := c.takeOnto n #[]
  (found.toList, c)

/-- A number of matches that no rest of a text exceeds: no pattern ends twice at one offset. -/
def abundance (c : Cursor) : Nat :=
  (c.haystack.size - c.place.consumed + 1) * c.automaton.patterns + 1

def rest (c : Cursor) : List Match × Cursor := c.take c.abundance

def count (c : Cursor) : Nat := c.rest.1.length

end Cursor

namespace Automaton

def cursor (a : Automaton) (h : Haystack) : Cursor := { automaton := a, haystack := h }

/-- Every occurrence of every pattern: by ascending end, then longest first, then by id. -/
def search (a : Automaton) (h : Haystack) : List Match := (a.cursor h).rest.1

def isMatch (a : Automaton) (h : Haystack) : Bool := (a.cursor h).next.1.isSome

end Automaton

/-! ## Searching a text link by link -/

/-- What is to be done next. -/
inductive Searching.Task where
  /-- Begin the body of the loop that looks for a match. -/
  | turn
  /-- Find the transition on byte `b` of the text. The search has come to `s`. -/
  | search (b : UInt8) (s : StateId)
deriving DecidableEq

/-- A moment of a scan. -/
structure Searching where
  place : Place
  /-- The matches that have been given out. -/
  found : List Match
  task : Searching.Task
deriving DecidableEq

namespace Searching

def start : Searching := ⟨{}, [], .turn⟩

/-- The state of the automaton, while it is being changed as well. -/
def state (m : Searching) : StateId :=
  match m.task with
  | .turn => m.place.state
  | .search _ s => s

def round (a : Automaton) (h : Haystack) : Searching → Round Searching (List Match × Place)
  | ⟨p, found, .turn⟩ =>
    match p.output with
    | some s =>
      match (a.endings s)[p.index]? with
      | some e => .again ⟨{ p with index := p.index + 1 }, found ++ [.ofPattern e p.consumed], .turn⟩
      | none => .again ⟨{ p with output := a.output s, index := 0 }, found, .turn⟩
    | none =>
      match h[p.consumed]? with
      | some b => .again ⟨p, found, .search b p.state⟩
      | none => .done (found, p)
  | ⟨p, found, .search b s⟩ =>
    match a.fallBack b s with
    | .again s => .again ⟨p, found, .search b s⟩
    | .done s => .again ⟨⟨p.consumed + 1, s, a.firstOutput s, 0⟩, found, .turn⟩

/-- How often the body of the loop is begun in a round. -/
def turns (m : Searching) : Nat :=
  match m.task with
  | .turn => 1
  | .search _ _ => 0

/-- How many failure links are followed in a round. -/
def links (a : Automaton) (m : Searching) : Nat :=
  match m.task with
  | .turn => 0
  | .search b s => (a.fallBack b s).repeats

end Searching

end AhoCorasick
