import AhoCorasick.Linking
import AhoCorasick.Text.Literal

/-!
# Building an automaton

The trie of the patterns is made first, then its states are linked. The log has one entry for each state that is
linked and one at the end; a build that fails has no log.

A `Building` is a moment of a build: the rounds of reading and those of linking, one after the other. They end with
the answer of `Builder.buildLogged`; in between they show the automaton as far as it has been made, the states that
are at hand and what has been put down in the log.
-/

namespace AhoCorasick

/-! ## The log -/

inductive LogLevel where
  | trace
  | debug
deriving DecidableEq

def LogLevel.name : LogLevel → String
  | .trace => "TRACE"
  | .debug => "DEBUG"

inductive LogEntry where
  | linked (record : LinkRecord)
  | built (patterns states : Nat) (layout : Layout)
deriving DecidableEq

def Layout.name : Layout → String
  | .sparse => "sparse"
  | .dense => "dense"

namespace LogEntry

def level : LogEntry → LogLevel
  | .linked _ => .trace
  | .built _ _ _ => .debug

def message : LogEntry → String
  | .linked ⟨state, link⟩ =>
    "linked state " ++ toString state ++ ": fail -> " ++ toString link.fail ++
      ", output -> " ++ String.ofList (Literal.option link.output).render
  | .built patterns states layout =>
    "built automaton with " ++ toString patterns ++ " patterns and " ++ toString states ++
      " states (" ++ layout.name ++ " transitions)"

end LogEntry

/-! ## The finished build -/

structure Built where
  automaton : Automaton
  log : List LogEntry
deriving DecidableEq

namespace Builder

/-- Builds the automaton of a list of patterns and keeps the log. -/
def buildLogged (config : Builder) (patterns : List Bytes) : Except BuildError Built := do
  let linking := Linking.finish (← Trie.ofPatterns config patterns)
  let a := linking.automaton
  return ⟨a, linking.records.toList.map .linked ++ [.built a.patterns a.size config.layout]⟩

/-- Builds the automaton of a list of patterns. A pattern's id is its position in the list. -/
def build (config : Builder) (patterns : List Bytes) : Except BuildError Automaton :=
  (config.buildLogged patterns).map Built.automaton

end Builder

/-! ## A build moment by moment -/

/-- A moment of a build. -/
inductive Building where
  | reading (r : Reading)
  | linking (m : Linking.Moment)
deriving DecidableEq

namespace Building

def start (patterns : List Bytes) : Building := .reading (.start patterns)

/-- The automaton so far. While patterns are read, no state has any links but those of the start. -/
def automaton : Building → Automaton
  | .reading r => .unlinked r.trie
  | .linking m => m.progress.automaton

/-- The states that are at hand, and those in the queue. -/
def held : Building → List StateId
  | .reading r => r.task.held
  | .linking m => m.progress.queue ++ m.task.held

/-- What has been put down in the log. -/
def log : Building → List LogEntry
  | .reading _ => []
  | .linking m => m.progress.records.toList.map .linked

def round (config : Builder) : Building → Round Building (Except BuildError Built)
  | .reading r =>
    match r.round config with
    | .again r => .again (.reading r)
    | .done (.ok t) => .again (.linking (.start t))
    | .done (.error e) => .done (.error e)
  | .linking m =>
    match m.round with
    | .again m => .again (.linking m)
    | .done l =>
      let a := l.automaton
      .done (.ok ⟨a, l.records.toList.map .linked ++ [.built a.patterns a.size config.layout]⟩)

end Building

end AhoCorasick
