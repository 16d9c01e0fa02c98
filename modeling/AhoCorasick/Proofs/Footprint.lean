import AhoCorasick.Footprint
import AhoCorasick.Proofs.Places

/-!
# The footprint of an automaton

A table that has been filled one entry at a time has room for four entries or for a power of two that is less than
twice their number (`exists_capacity_eq`). So its size follows from the number of its entries alone
(`capacity_eq_roundedUp`), and it has at most four slots for each of them (`capacity_le`).

Every table of a trie has the layout that was asked for (`Trie.uniform_ofPatterns`). A sparse table has as many
entries as the prefix of its state has branches, and a state records as many patterns as are equal to its
prefix. So the footprint of an automaton is a sum over the prefixes of its patterns (`footprint_of_build`).
-/

namespace AhoCorasick

/-! ## Tables that double -/

/-- The larger of four and the least power of two that is not below `n`, and nothing for no entry. -/
def roundedUp (n : Nat) : Nat := if n = 0 then 0 else max 4 (2 ^ Nat.clog 2 n)

variable {n : Nat}

theorem capacity_succ (n : Nat) :
    capacity (n + 1) = if n < capacity n then capacity n else max 4 (2 * capacity n) := rfl

theorem exists_capacity_eq (hn : 0 < n) :
    ∃ k, 2 ≤ k ∧ capacity n = 2 ^ k ∧ n ≤ 2 ^ k ∧ (k = 2 ∨ 2 ^ (k - 1) < n) := by
  induction n with
  | zero => omega
  | succ n ih =>
    rcases Nat.eq_zero_or_pos n with rfl | hpos
    · exact ⟨2, Nat.le_refl 2, rfl, by omega, Or.inl rfl⟩
    · obtain ⟨k, hk, hcapacity, hle, htight⟩ := ih hpos
      rw [capacity_succ, hcapacity]
      by_cases hroom : n < 2 ^ k
      · refine ⟨k, hk, if_pos hroom, hroom, ?_⟩
        omega
      · have hdouble : 2 ^ (k + 1) = 2 * 2 ^ k := Nat.pow_succ'
        have hfour : 2 ^ 2 ≤ 2 ^ k := Nat.pow_le_pow_right (by omega) hk
        refine ⟨k + 1, by omega, ?_, by omega, Or.inr ?_⟩
        · rw [if_neg hroom, hdouble]
          omega
        · rw [Nat.add_sub_cancel]
          omega

theorem capacity_eq_roundedUp (n : Nat) : capacity n = roundedUp n := by
  rcases Nat.eq_zero_or_pos n with rfl | hpos
  · rfl
  · obtain ⟨k, hk, hcapacity, hle, htight⟩ := exists_capacity_eq hpos
    have hclog : Nat.clog 2 n ≤ k := (Nat.clog_le_iff_le_pow (by omega)).mpr hle
    rw [roundedUp, if_neg (by omega), hcapacity]
    rcases htight with rfl | hlt
    · have hfour : 2 ^ Nat.clog 2 n ≤ 2 ^ 2 := Nat.pow_le_pow_right (by omega) hclog
      omega
    · have hlog : k - 1 < Nat.clog 2 n := (Nat.lt_clog_iff_pow_lt (by omega)).mpr hlt
      have hfour : 2 ^ 2 ≤ 2 ^ k := Nat.pow_le_pow_right (by omega) hk
      obtain rfl : Nat.clog 2 n = k := by omega
      omega

example : [0, 1, 4, 5, 129].map roundedUp = [0, 4, 4, 8, 256] := by decide

theorem le_capacity (n : Nat) : n ≤ capacity n := by
  induction n with
  | zero => exact Nat.le_refl 0
  | succ n ih =>
    rw [capacity_succ]
    split_ifs <;> omega

theorem capacity_le (n : Nat) : capacity n ≤ 4 * n := by
  induction n with
  | zero => exact Nat.le_refl 0
  | succ n ih =>
    rw [capacity_succ]
    split_ifs <;> omega

variable {config : Builder} {layout : Layout} {labels patterns : List Bytes} {w : Bytes} {b : UInt8}

/-! ## Tables of one layout -/

namespace Transitions

theorem footprint_eq (t : Transitions) :
    t.footprint = if t.layout = .dense then 1024 else 8 * capacity t.children.length := by
  cases t <;> rfl

end Transitions

namespace Trie

variable {t : Trie} {s : StateId}

/-- The table of every state has the layout. -/
def Uniform (t : Trie) (layout : Layout) : Prop :=
  ∀ (i : StateId) (node : Node), t.nodes[i]? = some node → node.transitions.layout = layout

theorem Uniform.modify (h : t.Uniform layout) {f : Node → Node}
    (hf : ∀ node, (f node).transitions.layout = node.transitions.layout) (s : StateId) (lengths : Array Nat) :
    Uniform ⟨t.nodes.modify s f, lengths⟩ layout := by
  intro i node hnode
  rw [Array.getElem?_modify] at hnode
  split_ifs at hnode
  · obtain ⟨old, hold, rfl⟩ := Option.map_eq_some_iff.mp hnode
    rw [hf, h i old hold]
  · exact h i node hnode

theorem Uniform.grown (h : t.Uniform config.layout) (s : StateId) (b : UInt8) :
    (t.grown config s b).Uniform config.layout := by
  have hpush : Uniform ⟨t.nodes.push ⟨.empty config.layout, #[], t.depth s + 1⟩, t.lengths⟩ config.layout := by
    intro i node hnode
    rw [Array.getElem?_push] at hnode
    split_ifs at hnode
    · rw [← Option.some.inj hnode, Transitions.layout_empty]
    · exact h i node hnode
  exact hpush.modify (fun node => Transitions.layout_set _ b _) s _

theorem Uniform.record (h : t.Uniform layout) (s : StateId) (length : Nat) :
    (t.record s length).Uniform layout := by
  refine h.modify ?_ s _
  exact fun node => rfl

theorem uniform_ofPatterns (h : ofPatterns config patterns = .ok t) : t.Uniform config.layout := by
  have hroot : Uniform ⟨#[⟨.empty config.layout, #[], 0⟩], #[]⟩ config.layout := by
    intro i node hnode
    obtain ⟨-, rfl⟩ := Array.getElem?_eq_some_iff.mp hnode
    simp
  exact keeps_ofPatterns (P := fun t => t.Uniform config.layout) hroot (fun t s b ht => ht.grown s b)
    (fun t s length ht => ht.record s length) h

/-! ## The footprint of a state -/

/-- The bytes with which a word goes on to another word of a list. -/
def branches (labels : List Bytes) (w : Bytes) : List UInt8 := allBytes.filter fun b => w ++ [b] ∈ labels

theorem mem_branches : b ∈ branches labels w ↔ w ++ [b] ∈ labels := by
  rw [branches, List.mem_filter, decide_eq_true_eq, and_iff_right (Transitions.mem_allBytes b)]

theorem nodup_branches (labels : List Bytes) (w : Bytes) : (branches labels w).Nodup :=
  (Transitions.allBytes_ascending.imp fun hlt => UInt8.ne_of_lt hlt).filter _

theorem Holds.map_children (h : t.Holds labels patterns) (hs : labels[s]? = some w) :
    (t.children s).map Prod.fst = branches labels w := by
  have hlisted : (branches labels w).Pairwise (· < ·) := Transitions.allBytes_ascending.filter _
  have hchildren : ((t.children s).map Prod.fst).Pairwise (· < ·) :=
    List.pairwise_map.mpr (h.children_ascending hs)
  have : Std.Irrefl fun b c : UInt8 => b < c := ⟨UInt8.lt_irrefl⟩
  have : Std.Antisymm fun b c : UInt8 => b < c := ⟨fun b c hlt hgt => absurd hlt (UInt8.lt_asymm hgt)⟩
  refine hchildren.eq_of_mem_iff hlisted fun b => ?_
  have hmem : b ∈ (t.children s).map Prod.fst ↔ ∃ c, (b, c) ∈ t.children s := by simp
  rw [hmem, mem_branches, List.mem_iff_getElem?]
  exact exists_congr fun c => h.mem_children hs

/-- The bytes that the state of a word takes. -/
def wordFootprint (layout : Layout) (labels patterns : List Bytes) (w : Bytes) : Nat :=
  (if layout = .dense then 1024 else 8 * capacity (branches labels w).length) +
    16 * capacity (patterns.count w)

theorem Holds.footprint_node (h : t.Holds labels patterns) (hlayout : t.Uniform layout) (hs : labels[s]? = some w)
    {node : Node} (hnode : t.nodes[s]? = some node) : node.footprint = wordFootprint layout labels patterns w := by
  have hchildren : node.transitions.children.length = (branches labels w).length := by
    rw [← h.map_children hs, List.length_map, children, hnode]
  have hendings : node.endings.size = patterns.count w := by
    have hlist := h.endings_eq hs
    rw [endings, hnode] at hlist
    rw [← Array.length_toList, hlist, List.length_map, length_idsOf]
  rw [Node.footprint, Transitions.footprint_eq, hlayout s node hnode, hchildren, hendings, wordFootprint]

theorem Holds.footprint_nodes (h : t.Holds labels patterns) (hlayout : t.Uniform layout) :
    t.nodes.foldl (fun n node => n + node.footprint) 0 =
      (labels.map (wordFootprint layout labels patterns)).sum := by
  have hnodes : t.nodes.toList.map Node.footprint = labels.map (wordFootprint layout labels patterns) := by
    refine List.ext_getElem? fun i => ?_
    rw [List.getElem?_map, List.getElem?_map, Array.getElem?_toList]
    rcases Nat.lt_or_ge i t.size with hi | hi
    · obtain ⟨w, hs⟩ := h.exists_label hi
      obtain ⟨node, hnode⟩ := h.getElem?_nodes hs
      rw [hs, hnode, Option.map_some, Option.map_some, h.footprint_node hlayout hs hnode]
    · rw [Array.getElem?_eq_none hi, List.getElem?_eq_none (h.size_eq ▸ hi)]
      rfl
  rw [← hnodes, List.sum_eq_foldl, List.foldl_map, Array.foldl_toList]

end Trie

namespace Automaton

variable {a : Automaton}

theorem uniform_of_build (h : config.build patterns = .ok a) : a.trie.Uniform config.layout :=
  Trie.uniform_ofPatterns (ofPatterns_of_build h)

/-- **The footprint is a sum over the prefixes of the patterns**, with the table of the states and the table of the
lengths. -/
theorem footprint_of_build (h : config.build patterns = .ok a) :
    a.footprint = 72 * capacity (prefixes patterns).length + 8 * capacity patterns.length +
      ((prefixes patterns).map (Trie.wordFootprint config.layout (prefixes patterns) patterns)).sum := by
  have ha := recognizes_of_build h
  have hsize : a.size = (prefixes patterns).length := ha.holds.size_eq
  rw [footprint, hsize, ha.patterns_eq, ha.holds.footprint_nodes (uniform_of_build h)]

end Automaton

end AhoCorasick
