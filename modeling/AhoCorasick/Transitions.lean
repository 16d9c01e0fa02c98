import AhoCorasick.Basic
import AhoCorasick.Round

/-!
# Transition tables

A partial map from bytes to states, stored in one of two layouts. The sparse table is kept sorted
by byte and searched by halving; the dense table has one slot for each byte. No transition leads to
the root, so the root in a slot says that there is none. Both answer `child?` alike and list their
`children` in ascending order of the byte.
-/

namespace AhoCorasick

inductive Transitions where
  /-- The transitions that exist, by ascending byte, no byte twice. -/
  | sparse (entries : Array (UInt8 × StateId))
  /-- One slot for each byte, with the root where there is no transition. -/
  | dense (slots : Vector StateId 256)
deriving DecidableEq

namespace Transitions

def empty : Layout → Transitions
  | .sparse => .sparse #[]
  | .dense => .dense (Vector.replicate 256 root)

instance : Inhabited Transitions := ⟨empty .sparse⟩

def layout : Transitions → Layout
  | .sparse _ => .sparse
  | .dense _ => .dense

/-- One halving of the range `[lo, hi)` that still holds the first entry not below `b`. -/
def halve (entries : Array (UInt8 × StateId)) (b : UInt8) : Nat × Nat → Round (Nat × Nat) Nat
  | (lo, hi) =>
    if hi ≤ lo then .done lo
    else
      let mid := lo + (hi - lo) / 2
      match entries[mid]? with
      | some (c, _) => if c < b then .again (mid + 1, hi) else .again (lo, mid)
      | none => .again (lo, mid)

/-- The position of the first entry not below `b`, which is where `b` stands or belongs. -/
def lowerBound (entries : Array (UInt8 × StateId)) (b : UInt8) : Nat :=
  (Round.run (halve entries b) (entries.size + 1) (0, entries.size)).getD entries.size

/-- The state that a slot of a dense table holds. -/
def held? (slot : StateId) : Option StateId :=
  if slot = root then none else some slot

def child? : Transitions → UInt8 → Option StateId
  | .sparse entries, b =>
    match entries[lowerBound entries b]? with
    | some (c, s) => if c = b then some s else none
    | none => none
  | .dense slots, b => held? (slots.get b.toFin)

/-- Lets a byte lead to a state other than the root, in place of where it led before. -/
def set : Transitions → UInt8 → StateId → Transitions
  | .sparse entries, b, s =>
    let i := lowerBound entries b
    if entries[i]?.map Prod.fst = some b then .sparse (entries.setIfInBounds i (b, s))
    else .sparse (entries.toList.insertIdx i (b, s)).toArray
  | .dense slots, b, s => .dense (slots.set b.toNat s b.toNat_lt)

/-- The bytes that lead somewhere, each with its state, in ascending order. -/
def children : Transitions → List (UInt8 × StateId)
  | .sparse entries => entries.toList
  | .dense slots => allBytes.filterMap fun b => (held? (slots.get b.toFin)).map (b, ·)

end Transitions

end AhoCorasick
