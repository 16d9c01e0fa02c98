import AhoCorasick.Build
import AhoCorasick.Cursor

/-!
# One-line texts of values

The literal of an automaton holds all of it, state by state; those of the builder, the build error
and the match are short. A cursor shows only its place.
-/

namespace AhoCorasick

def Pattern.literal (p : Pattern) : Literal :=
  .record "Pattern" [("id", .number p.id), ("len", .number p.length)]

/-- A transition table, slot by slot in the dense layout. -/
def Transitions.literal : Transitions → Literal
  | .sparse entries =>
    .tuple "Sparse" [.list (entries.toList.map fun (b, s) =>
      .tuple "" [.number b.toNat, .number s])]
  | .dense slots => .tuple "Dense" [.list (slots.toList.map .number)]

def Node.literal (node : Node) (link : Link) : Literal :=
  .record "State"
    [("trans", node.transitions.literal), ("fail", .number link.fail),
     ("output", .option link.output),
     ("matches", .list (node.endings.toList.map Pattern.literal)), ("depth", .number node.depth)]

/-- The whole automaton, states in the order of their ids. -/
def Automaton.literal (a : Automaton) : Literal :=
  .record "Automaton"
    [("states", .list (List.zipWith Node.literal a.trie.nodes.toList a.links.toList)),
     ("pattern_lens", .list (a.trie.lengths.toList.map .number))]

def Builder.literal (config : Builder) : Literal :=
  .record "Builder"
    [("dense", .bool (config.layout == .dense)), ("state_limit", .option config.stateLimit)]

def BuildError.literal (e : BuildError) : Literal :=
  .record "Error" [("msg", .quoted e.message), ("limit", .number e.limit)]

def Match.literal (m : Match) : Literal :=
  .record "Match"
    [("pattern", .number m.pattern), ("len", .number m.length), ("end", .number m.stop)]

def Place.literals (p : Place) : List (String × Literal) :=
  [("at", .number p.consumed), ("state", .number p.state), ("out", .option p.output),
   ("match_id", .number p.index)]

def Place.text (p : Place) : List Char :=
  Literal.commaSeparated (Literal.renderFields p.literals)

end AhoCorasick
