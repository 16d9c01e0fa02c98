import AhoCorasick.Automaton

/-!
# Linking the states

The states are linked breadth first, children in ascending order of their byte. The links of a
state depend only on states that are closer to the root, which have their final links by then, so
the half-linked automaton is searched in the same way as the finished one. The root and its
children keep the links they have from the start: their only proper suffix is empty.

`Linking.Moment` is the same pass in small rounds: one puts a state into the queue, takes one out of it, follows a
failure link, or puts down the links of a state. So the automaton can be seen while it is linked in part, and each link
that is read on the way. The rounds end with what `Linking.finish` answers. Beside a moment stand the states that its
round puts into the queue, those whose links it puts down, and those whose links it reads. They are lists, so that it
can be counted how often a state is among them in a whole pass.
-/

namespace AhoCorasick

/-- What is put down when a state has been linked. -/
structure LinkRecord where
  state : StateId
  link : Link
deriving DecidableEq

/-- The progress of the breadth-first pass. -/
structure Linking where
  automaton : Automaton
  /-- The states whose children are still to be linked, in the order of their turn. -/
  queue : List StateId
  records : Array LinkRecord
deriving DecidableEq

namespace Linking

/-- Before any state is linked, the children of the root wait for their turn. -/
def start (t : Trie) : Linking where
  automaton := .unlinked t
  queue := (t.children root).map Prod.snd
  records := #[]

/-- The links of a child of `parent` on byte `b`. -/
def linkOf (a : Automaton) (parent : StateId) (b : UInt8) : Link :=
  let fail := a.next (a.fail parent) b
  ⟨fail, a.firstOutput fail⟩

/-- Links a child of `parent` and puts it at the end of the queue. -/
def linkChild (parent : StateId) : Linking → UInt8 × StateId → Linking
  | ⟨a, queue, records⟩, (b, child) =>
    let link := linkOf a parent b
    { automaton := { a with links := a.links.setIfInBounds child link }
      queue := queue ++ [child]
      records := records.push ⟨child, link⟩ }

/-- One round of the pass: the children of the state whose turn it is are linked. -/
def round : Linking → Round Linking Linking
  | ⟨a, [], records⟩ => .done ⟨a, [], records⟩
  | ⟨a, s :: queue, records⟩ =>
    .again ((a.trie.children s).foldl (linkChild s) ⟨a, queue, records⟩)

/-- The finished pass. No state has its turn twice, so the number of states bounds the rounds. -/
def finish (t : Trie) : Linking :=
  (Round.run round (t.size + 1) (start t)).getD (start t)

/-! ## The pass state by state -/

/-- What is to be done next. -/
inductive Task where
  /-- Put the children of the root into the queue. -/
  | enqueue (children : List (UInt8 × StateId))
  /-- Turn to the first state of the queue. -/
  | turn
  /-- Link the children of `parent`, of which these are left. -/
  | link (parent : StateId) (children : List (UInt8 × StateId))
  /-- Find the failure link of the child `c` of `parent` on byte `b`. The search has come to `r`. -/
  | search (parent : StateId) (b : UInt8) (c r : StateId) (children : List (UInt8 × StateId))
deriving DecidableEq

/-- A moment of the pass. -/
structure Moment where
  progress : Linking
  task : Task
deriving DecidableEq

/-- The states that are at hand to be read or written. -/
def Task.held : Task → List StateId
  | .enqueue children => children.map Prod.snd
  | .turn => []
  | .link parent children => parent :: children.map Prod.snd
  | .search parent _ c r children => parent :: c :: r :: children.map Prod.snd

def push (l : Linking) (s : StateId) : Linking := { l with queue := l.queue ++ [s] }

/-- Puts down the links of a state. -/
def write (l : Linking) (s : StateId) (link : Link) : Linking :=
  { l with
    automaton := { l.automaton with links := l.automaton.links.setIfInBounds s link }
    records := l.records.push ⟨s, link⟩ }

namespace Moment

/-- Before any state is linked, nothing is in the queue. -/
def start (t : Trie) : Moment := ⟨⟨.unlinked t, [], #[]⟩, .enqueue (t.children root)⟩

def round : Moment → Round Moment Linking
  | ⟨l, .enqueue []⟩ => .again ⟨l, .turn⟩
  | ⟨l, .enqueue ((_, c) :: children)⟩ => .again ⟨l.push c, .enqueue children⟩
  | ⟨⟨a, [], records⟩, .turn⟩ => .done ⟨a, [], records⟩
  | ⟨⟨a, s :: queue, records⟩, .turn⟩ => .again ⟨⟨a, queue, records⟩, .link s (a.trie.children s)⟩
  | ⟨l, .link _ []⟩ => .again ⟨l, .turn⟩
  | ⟨l, .link parent ((b, c) :: children)⟩ =>
    .again ⟨l.push c, .search parent b c (l.automaton.fail parent) children⟩
  | ⟨l, .search parent b c r children⟩ =>
    match l.automaton.fallBack b r with
    | .again r => .again ⟨l, .search parent b c r children⟩
    | .done fail => .again ⟨l.write c ⟨fail, l.automaton.firstOutput fail⟩, .link parent children⟩

/-- How many failure links are followed in a round. -/
def links (m : Moment) : Nat :=
  match m.task with
  | .search _ b _ r _ => (m.progress.automaton.fallBack b r).repeats
  | _ => 0

/-! ### What a round touches -/

/-- The states that join the queue. -/
def entered (m : Moment) : List StateId :=
  match m.task with
  | .enqueue ((_, c) :: _) => [c]
  | .link _ ((_, c) :: _) => [c]
  | _ => []

/-- The states whose links are put down. -/
def written (m : Moment) : List StateId :=
  match m.task with
  | .search _ b c r _ =>
    match m.progress.automaton.fallBack b r with
    | .again _ => []
    | .done _ => [c]
  | _ => []

/-- The states whose failure links are read: a child of the root, for which it is asserted that it is the root, the
parent of a child that is to be linked, and a state from which the search falls back. -/
def failsRead (m : Moment) : List StateId :=
  match m.task with
  | .enqueue ((_, c) :: _) => [c]
  | .link parent (_ :: _) => [parent]
  | .search _ b _ r _ =>
    match m.progress.automaton.fallBack b r with
    | .again _ => [r]
    | .done _ => []
  | _ => []

/-- The states whose output links are read: the end of a search, unless it is an output itself. -/
def outputsRead (m : Moment) : List StateId :=
  match m.task with
  | .search _ b _ r _ =>
    match m.progress.automaton.fallBack b r with
    | .again _ => []
    | .done fail => if fail ≠ root ∧ (m.progress.automaton.endings fail).size ≠ 0 then [] else [fail]
  | _ => []

/-- The same moment over another automaton. -/
def withAutomaton (m : Moment) (a : Automaton) : Moment :=
  { m with progress := { m.progress with automaton := a } }

end Moment

end Linking

end AhoCorasick
