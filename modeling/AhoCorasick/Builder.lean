import AhoCorasick.Basic

/-!
# Configuring a build

A `Builder` says how transitions are stored and how many states an automaton may have. The only
way for a build to fail is that it needs one state more than that, or more than there are ids.
-/

namespace AhoCorasick

structure Builder where
  /-- How the states store their transitions. -/
  layout : Layout := .sparse
  /-- The largest number of states, the root included. -/
  stateLimit : Option Nat := none
deriving DecidableEq, Inhabited

inductive BuildError where
  /-- A state was needed when there were as many as allowed. -/
  | stateLimit (limit : Nat)
  /-- A state was needed when every id was taken. -/
  | idsExhausted (states : Nat)
deriving DecidableEq

namespace BuildError

/-- The number of states that could not be exceeded. -/
def limit : BuildError → Nat
  | .stateLimit limit => limit
  | .idsExhausted states => states

def message : BuildError → String
  | .stateLimit limit => "automaton exceeds the state limit of " ++ toString limit
  | .idsExhausted states =>
    "state identifier space exhausted after " ++ toString states ++ " states"

end BuildError

namespace Builder

/-- Gives a new state the next id, unless all of them are taken. -/
def permitId (states : Nat) : Except BuildError Unit :=
  if stateIdCount ≤ states then .error (.idsExhausted states) else .ok ()

/-- Refuses a new state when there are already as many as allowed. -/
def permit (config : Builder) (states : Nat) : Except BuildError Unit :=
  match config.stateLimit with
  | none => permitId states
  | some limit => if limit ≤ states then .error (.stateLimit limit) else permitId states

end Builder

end AhoCorasick
