import AhoCorasick.Build
import AhoCorasick.Cursor

/-!
# Sessions

A session holds one configuration, the automata built so far and the cursors opened so far, and
answers one command after another. A command names an automaton or a cursor by its position, or
means the last one. A build that fails leaves the session as it was.
-/

namespace AhoCorasick

/-- What can be asked of an automaton. -/
inductive Query where
  | search (haystack : Haystack)
  | isMatch (haystack : Haystack)
  | patternLength (id : Nat)
deriving DecidableEq

/-- What a cursor can be told to do. -/
inductive Move where
  | next
  /-- Skip `n` matches and give the next one. -/
  | nth (n : Nat)
  | take (n : Nat)
  | rest
  /-- Count the matches that are left and stay. -/
  | count
  /-- Tell the place and stay. -/
  | place
deriving DecidableEq

inductive Command where
  /-- Go back to the configuration of a new session. -/
  | newBuilder
  | setLayout (layout : Layout)
  | setStateLimit (limit : Nat)
  | build (patterns : List Bytes)
  | ask (automaton : Option Nat) (query : Query)
  | openCursor (automaton : Option Nat) (haystack : Haystack)
  /-- Open a cursor where another one stands. -/
  | copyCursor (cursor : Option Nat)
  | move (cursor : Option Nat) (move : Move)
deriving DecidableEq

inductive Reply where
  | builder (config : Builder)
  /-- The position of a new automaton and the number of its states and patterns. -/
  | built (position states patterns : Nat)
  | failed (error : BuildError)
  | found (all : List Match)
  | isMatch (answer : Bool)
  /-- The length of a pattern, if there is such a pattern. -/
  | patternLength (length : Option Nat)
  | opened (position : Nat)
  | next (one : Option Match)
  | count (n : Nat)
  | place (place : Place)
deriving DecidableEq

namespace Query

def answer (a : Automaton) : Query → Reply
  | .search h => .found (a.search h)
  | .isMatch h => .isMatch (a.isMatch h)
  | .patternLength id => .patternLength (a.patternLength? id)

end Query

namespace Move

/-- The answer of a cursor and the cursor behind the move. -/
def run (c : Cursor) : Move → Reply × Cursor
  | .next => c.next.map .next id
  | .nth n => (c.nth n).map .next id
  | .take n => (c.take n).map .found id
  | .rest => c.rest.map .found id
  | .count => (.count c.count, c)
  | .place => (.place c.place, c)

end Move

structure Session where
  config : Builder := {}
  /-- The automata in the order in which they were built. -/
  automata : Array Automaton := #[]
  /-- The cursors in the order in which they were opened. -/
  cursors : Array Cursor := #[]
deriving DecidableEq

namespace Session

/-- The position that is meant in a list of `size` things: the one that is given, or the last. -/
def position? (size : Nat) : Option Nat → Option Nat
  | some i => if i < size then some i else none
  | none => if size = 0 then none else some (size - 1)

def automaton? (s : Session) (i : Option Nat) : Option Automaton :=
  (position? s.automata.size i).bind (s.automata[·]?)

def configure (s : Session) (config : Builder) : Session × Reply :=
  ({ s with config }, .builder config)

/-- A session with one more automaton, if it can be built. -/
def build (s : Session) (patterns : List Bytes) : Session × Reply :=
  match s.config.build patterns with
  | .ok a =>
    ({ s with automata := s.automata.push a }, .built s.automata.size a.size a.patterns)
  | .error e => (s, .failed e)

def addCursor (s : Session) (c : Cursor) : Session × Reply :=
  ({ s with cursors := s.cursors.push c }, .opened s.cursors.size)

/-- Carries out one command; there is no answer if it names what the session does not hold. -/
def step (s : Session) : Command → Option (Session × Reply)
  | .newBuilder => some (s.configure {})
  | .setLayout layout => some (s.configure { s.config with layout })
  | .setStateLimit limit => some (s.configure { s.config with stateLimit := some limit })
  | .build patterns => some (s.build patterns)
  | .ask i query => (s.automaton? i).map fun a => (s, query.answer a)
  | .openCursor i h => (s.automaton? i).map fun a => s.addCursor (a.cursor h)
  | .copyCursor i => do
    let c ← s.cursors[← position? s.cursors.size i]?
    return s.addCursor c
  | .move i move => do
    let i ← position? s.cursors.size i
    let (reply, c) := move.run (← s.cursors[i]?)
    return ({ s with cursors := s.cursors.setIfInBounds i c }, reply)

/-- Carries out commands one after another and gives the last state and all answers. -/
def run : Session → List Command → Option (Session × List Reply)
  | s, [] => some (s, [])
  | s, command :: commands => do
    let (s, reply) ← s.step command
    let (s, replies) ← s.run commands
    return (s, reply :: replies)

end Session

end AhoCorasick
