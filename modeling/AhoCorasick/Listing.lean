import AhoCorasick.Session

/-!
# Sessions of listings

A listing is a list of matches and the number of those that have been given out. It takes the moves of a cursor
and only counts. A `ListSession` takes the commands of a session and opens a listing of the whole search where a
session opens a cursor. So it tells what a session has to answer without telling how a text is read. Where a
cursor stands in its text is nothing that a listing knows: to `Move.place` it has no answer.
-/

namespace AhoCorasick

structure Listing where
  items : List Match
  /-- The number of items that have been given out. -/
  given : Nat := 0
  given_le : given ≤ items.length := by exact Nat.zero_le _
deriving DecidableEq

namespace Listing

/-- The items that have not been given out. -/
def left (l : Listing) : List Match := l.items.drop l.given

/-- Passes over the next `n` items, or over all that are left. -/
def skip (l : Listing) (n : Nat) : Listing where
  items := l.items
  given := min (l.given + n) l.items.length
  given_le := Nat.min_le_right ..

/-- The next item, or nothing at the end and ever after. -/
def next (l : Listing) : Option Match × Listing := (l.items[l.given]?, l.skip 1)

def nth (n : Nat) (l : Listing) : Option Match × Listing := (l.skip n).next

def take (n : Nat) (l : Listing) : List Match × Listing := (l.left.take n, l.skip n)

def rest (l : Listing) : List Match × Listing := (l.left, l.skip l.items.length)

def count (l : Listing) : Nat := l.items.length - l.given

/-- The answer of a listing, if it has one, and the listing behind the move. -/
def run (l : Listing) : Move → Option Reply × Listing
  | .next => l.next.map (some ∘ .next) id
  | .nth n => (l.nth n).map (some ∘ .next) id
  | .take n => (l.take n).map (some ∘ .found) id
  | .rest => l.rest.map (some ∘ .found) id
  | .count => (some (.count l.count), l)
  | .place => (none, l)

end Listing

/-- A session with listings in place of cursors. -/
structure ListSession where
  config : Builder := {}
  automata : Array Automaton := #[]
  listings : Array Listing := #[]
deriving DecidableEq

namespace ListSession

def automaton? (s : ListSession) (i : Option Nat) : Option Automaton :=
  (Session.position? s.automata.size i).bind (s.automata[·]?)

/-- Whether anything matches is whether the search finds something. -/
def answer (a : Automaton) : Query → Reply
  | .search h => .found (a.search h)
  | .isMatch h => .isMatch (!(a.search h).isEmpty)
  | .patternLength id => .patternLength (a.patternLength? id)

def configure (s : ListSession) (config : Builder) : ListSession × Option Reply :=
  ({ s with config }, some (.builder config))

def build (s : ListSession) (patterns : List Bytes) : ListSession × Option Reply :=
  match s.config.build patterns with
  | .ok a =>
    ({ s with automata := s.automata.push a }, some (.built s.automata.size a.size a.patterns))
  | .error e => (s, some (.failed e))

def addListing (s : ListSession) (l : Listing) : ListSession × Option Reply :=
  ({ s with listings := s.listings.push l }, some (.opened s.listings.size))

/-- Carries out one command; there is no outcome if it names what the session does not hold. -/
def step (s : ListSession) : Command → Option (ListSession × Option Reply)
  | .newBuilder => some (s.configure {})
  | .setLayout layout => some (s.configure { s.config with layout })
  | .setStateLimit limit => some (s.configure { s.config with stateLimit := some limit })
  | .build patterns => some (s.build patterns)
  | .ask i query => (s.automaton? i).map fun a => (s, some (answer a query))
  | .openCursor i h => (s.automaton? i).map fun a => s.addListing { items := a.search h }
  | .copyCursor i => do
    let l ← s.listings[← Session.position? s.listings.size i]?
    return s.addListing l
  | .move i move => do
    let i ← Session.position? s.listings.size i
    let (reply, l) := (← s.listings[i]?).run move
    return ({ s with listings := s.listings.setIfInBounds i l }, reply)

/-- Carries out commands one after another and gives the last state and all answers. -/
def run : ListSession → List Command → Option (ListSession × List (Option Reply))
  | s, [] => some (s, [])
  | s, command :: commands => do
    let (s, reply) ← s.step command
    let (s, replies) ← s.run commands
    return (s, reply :: replies)

end ListSession

end AhoCorasick
