import AhoCorasick.Builder
import AhoCorasick.Transitions

/-!
# The trie of the patterns

Every pattern has a path from the root, and the state at its end records the pattern. States are
made one by one as the patterns are read, so the states are the distinct prefixes of the patterns,
numbered in the order in which they first occur.

`Trie.find?` is the view of a trie: it follows a word from the root.

`Reading` makes the trie in small rounds: one makes the root, moves along one transition, makes one state, connects it
to its parent, or records one pattern. So everything can be seen that the trie is on the way, in the middle of a pattern
as well. The rounds end with the trie that `Trie.ofPatterns` makes, or with its refusal.
-/

namespace AhoCorasick

structure Node where
  /-- The states that are one byte longer. -/
  transitions : Transitions
  /-- The patterns that end exactly here, in the order of their ids. -/
  endings : Array Pattern
  /-- The distance from the root. -/
  depth : Nat
deriving DecidableEq, Inhabited

/-- The states made so far and the length of each pattern read so far. -/
structure Trie where
  nodes : Array Node
  /-- The lengths of the patterns by their ids. -/
  lengths : Array Nat
deriving DecidableEq, Inhabited

namespace Trie

def empty : Trie := ⟨#[], #[]⟩

def size (t : Trie) : Nat := t.nodes.size

/-- The state that byte `b` leads to from `s`. -/
def child? (t : Trie) (s : StateId) (b : UInt8) : Option StateId :=
  match t.nodes[s]? with
  | some node => node.transitions.child? b
  | none => none

/-- The transitions out of `s`, in ascending order of the byte. -/
def children (t : Trie) (s : StateId) : List (UInt8 × StateId) :=
  match t.nodes[s]? with
  | some node => node.transitions.children
  | none => []

def endings (t : Trie) (s : StateId) : Array Pattern :=
  match t.nodes[s]? with
  | some node => node.endings
  | none => #[]

def depth (t : Trie) (s : StateId) : Nat :=
  match t.nodes[s]? with
  | some node => node.depth
  | none => 0

/-- The state at the end of the path that spells a word. -/
def find? (t : Trie) (w : Bytes) : Option StateId :=
  w.foldlM t.child? root

/-! ## Growing a trie -/

/-- A trie with one more state, to which nothing leads yet. -/
def addNode (config : Builder) (t : Trie) (depth : Nat) : Except BuildError Trie := do
  config.permit t.size
  return { t with nodes := t.nodes.push ⟨.empty config.layout, #[], depth⟩ }

/-- Lets byte `b` lead from `s` to `c`. -/
def setChild (t : Trie) (s : StateId) (b : UInt8) (c : StateId) : Trie :=
  { t with nodes := t.nodes.modify s fun node =>
      { node with transitions := node.transitions.set b c } }

/-- The state that byte `b` leads to from `s`, which is made if there is none. -/
def step (config : Builder) (t : Trie) (s : StateId) (b : UInt8) :
    Except BuildError (Trie × StateId) :=
  match t.child? s b with
  | some c => .ok (t, c)
  | none => do
    let c := t.size
    let t ← t.addNode config (t.depth s + 1)
    return (t.setChild s b c, c)

/-- The state at the end of a word's path from the root, which is made where it is missing. -/
def path (config : Builder) (t : Trie) (w : Bytes) : Except BuildError (Trie × StateId) :=
  w.foldlM (fun (t, s) b => t.step config s b) (t, root)

/-- Records that a pattern, the next one to be numbered, ends at `s`. -/
def record (t : Trie) (s : StateId) (length : Nat) : Trie :=
  let p : Pattern := ⟨t.lengths.size, length⟩
  { nodes := t.nodes.modify s fun node => { node with endings := node.endings.push p }
    lengths := t.lengths.push length }

def insert (config : Builder) (t : Trie) (w : Bytes) : Except BuildError Trie := do
  let (t, s) ← t.path config w
  return t.record s w.length

def ofPatterns (config : Builder) (patterns : List Bytes) : Except BuildError Trie := do
  patterns.foldlM (insert config) (← empty.addNode config 0)

end Trie

/-! ## Reading the patterns byte by byte -/

/-- What is to be done next. -/
inductive Reading.Task where
  | makeRoot
  /-- Turn to the next pattern. -/
  | turn
  /-- Read on in a pattern of `length` bytes, which has led to `s` and has the bytes `rest` left. -/
  | follow (s : StateId) (rest : Bytes) (length : Nat)
  /-- Let byte `b` of the pattern lead from `s` to the state `c`, which has just been made. -/
  | connect (s : StateId) (b : UInt8) (c : StateId) (rest : Bytes) (length : Nat)
deriving DecidableEq

/-- The progress of reading patterns. -/
structure Reading where
  trie : Trie
  /-- The patterns that have not been begun. -/
  waiting : List Bytes
  task : Reading.Task
deriving DecidableEq

namespace Reading

/-- The states that are at hand to be read or written. -/
def Task.held : Task → List StateId
  | .makeRoot | .turn => []
  | .follow s _ _ => [s]
  | .connect s _ c _ _ => [s, c]

def start (patterns : List Bytes) : Reading := ⟨.empty, patterns, .makeRoot⟩

def round (config : Builder) : Reading → Round Reading (Except BuildError Trie)
  | ⟨t, waiting, .makeRoot⟩ =>
    match t.addNode config 0 with
    | .ok t => .again ⟨t, waiting, .turn⟩
    | .error e => .done (.error e)
  | ⟨t, [], .turn⟩ => .done (.ok t)
  | ⟨t, w :: waiting, .turn⟩ => .again ⟨t, waiting, .follow root w w.length⟩
  | ⟨t, waiting, .follow s [] length⟩ => .again ⟨t.record s length, waiting, .turn⟩
  | ⟨t, waiting, .follow s (b :: rest) length⟩ =>
    match t.child? s b with
    | some c => .again ⟨t, waiting, .follow c rest length⟩
    | none =>
      match t.addNode config (t.depth s + 1) with
      | .ok t' => .again ⟨t', waiting, .connect s b t.size rest length⟩
      | .error e => .done (.error e)
  | ⟨t, waiting, .connect s b c rest length⟩ =>
    .again ⟨t.setChild s b c, waiting, .follow c rest length⟩

end Reading

end AhoCorasick
