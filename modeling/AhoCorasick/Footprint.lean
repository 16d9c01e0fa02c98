import AhoCorasick.Automaton

/-!
# Memory footprint

The bytes that an automaton takes: for each table the number of its slots times the size of a slot.
A table that grows one slot at a time has room for four at first and doubles when it is full.

`Rooms` goes along with the rounds of reading: when a table has to hold more entries than it has slots, it doubles, and
no slot is ever given back. So the slots can be seen that the tables have come to, whatever the order in which their
entries have been put in.
-/

namespace AhoCorasick

/-- The number of slots of a table into which `n` entries have been put one after another. -/
def capacity : (n : Nat) → Nat
  | 0 => 0
  | n + 1 =>
    let slots := capacity n
    if n < slots then slots else max 4 (2 * slots)

namespace Transitions

/-- The bytes that a transition table takes: eight for each slot of a sparse table, four for each
of the 256 slots of a dense one. -/
def footprint : Transitions → Nat
  | .sparse entries => 8 * capacity entries.size
  | .dense _ => 4 * 256

end Transitions

def Node.footprint (node : Node) : Nat :=
  node.transitions.footprint + 16 * capacity node.endings.size

def Automaton.footprint (a : Automaton) : Nat :=
  72 * capacity a.size + 8 * capacity a.patterns + a.trie.nodes.foldl (fun n node => n + node.footprint) 0

/-! ## The slots of the tables while patterns are read -/

/-- The slots of a table that has had `slots` and has to hold `entries`. -/
def fit (entries slots : Nat) : Nat := if entries ≤ slots then slots else max 4 (2 * slots)

namespace Transitions

/-- The entries for which there has to be a slot. A dense table has all its slots from the start. -/
def entries : Transitions → Nat
  | .sparse entries => entries.size
  | .dense _ => 0

/-- The bytes of a table, of which a sparse one has come to `slots`. -/
def bytes (slots : Nat) : Transitions → Nat
  | .sparse _ => 8 * slots
  | .dense _ => 4 * 256

end Transitions

def Trie.entries (t : Trie) (s : StateId) : Nat :=
  match t.nodes[s]? with
  | some node => node.transitions.entries
  | none => 0

/-- The numbers of slots of all tables. -/
structure Rooms where
  states : Nat := 0
  lengths : Nat := 0
  /-- The slots for the transitions of each state. -/
  transitions : StateId → Nat := fun _ => 0
  /-- The slots for the patterns that end at each state. -/
  endings : StateId → Nat := fun _ => 0

namespace Rooms

/-- The slots of the tables once they hold a trie. -/
def grow (rooms : Rooms) (t : Trie) : Rooms where
  states := fit t.size rooms.states
  lengths := fit t.lengths.size rooms.lengths
  transitions s := fit (t.entries s) (rooms.transitions s)
  endings s := fit (t.endings s).size (rooms.endings s)

/-- A round of reading, after which every table has room for its entries. -/
def round (config : Builder) :
    Reading × Rooms → Round (Reading × Rooms) (Except BuildError Trie × Rooms)
  | (r, rooms) =>
    match r.round config with
    | .again r => .again (r, rooms.grow r.trie)
    | .done x => .done (x, rooms)

/-- The bytes of the tables of one state. -/
def bytesAt (rooms : Rooms) (t : Trie) (s : StateId) : Nat :=
  match t.nodes[s]? with
  | some node => node.transitions.bytes (rooms.transitions s) + 16 * rooms.endings s
  | none => 0

/-- The bytes of all tables. -/
def bytes (rooms : Rooms) (t : Trie) : Nat :=
  72 * rooms.states + 8 * rooms.lengths + (List.range t.size).foldl (fun n s => n + rooms.bytesAt t s) 0

end Rooms

end AhoCorasick
