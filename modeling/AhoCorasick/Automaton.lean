import AhoCorasick.Trie

/-!
# The automaton

A trie together with two links for each state. The failure link says where to go on when no
transition fits, and the output link says which shorter pattern ends here as well. Links are kept
apart from the trie, so that linking changes nothing else.

The functions of this module also serve while the links are still being made; see
`AhoCorasick.Linking`.
-/

namespace AhoCorasick

structure Link where
  /-- The state of the longest proper suffix that is a prefix of a pattern. -/
  fail : StateId := root
  /-- The state of the longest proper suffix that is a pattern and is not empty. -/
  output : Option StateId := none
deriving DecidableEq, Inhabited

/-- A trie with a pair of links for each of its states. -/
structure Automaton where
  trie : Trie
  links : Array Link
deriving DecidableEq, Inhabited

namespace Automaton

/-- A trie before its states are linked. -/
def unlinked (t : Trie) : Automaton := ⟨t, Array.replicate t.size {}⟩

/-- The number of states, the root included. -/
def size (a : Automaton) : Nat := a.trie.size

def patterns (a : Automaton) : Nat := a.trie.lengths.size

def patternLength? (a : Automaton) (id : Nat) : Option Nat := a.trie.lengths[id]?

def fail (a : Automaton) (s : StateId) : StateId :=
  match a.links[s]? with
  | some link => link.fail
  | none => root

def output (a : Automaton) (s : StateId) : Option StateId :=
  match a.links[s]? with
  | some link => link.output
  | none => none

def endings (a : Automaton) (s : StateId) : Array Pattern := a.trie.endings s

/-- One round of the search for a transition on `b`: take it, give up at the root, or fall back. -/
def fallBack (a : Automaton) (b : UInt8) (s : StateId) : Round StateId StateId :=
  match a.trie.child? s b with
  | some t => .done t
  | none => if s = root then .done root else .again (a.fail s)

/-- The state after reading byte `b` in state `s`. Every failure link leads to a smaller depth, so
the depth of `s` bounds the number of links that are followed. -/
def next (a : Automaton) (s : StateId) (b : UInt8) : StateId :=
  (Round.run (a.fallBack b) (a.trie.depth s + 1) s).getD root

/-- The first state whose patterns are reported on arriving at `s`. The root reports nothing, even
if empty patterns end there. -/
def firstOutput (a : Automaton) (s : StateId) : Option StateId :=
  if s ≠ root ∧ (a.endings s).size ≠ 0 then some s else a.output s

def stateAfter (a : Automaton) (text : Bytes) : StateId := text.foldl a.next root

end Automaton

end AhoCorasick
