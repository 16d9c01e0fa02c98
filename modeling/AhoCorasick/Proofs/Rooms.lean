import AhoCorasick.Proofs.Footprint
import AhoCorasick.Proofs.Reading

/-!
# The footprint follows from the patterns

A round of reading puts one entry at most into each table (`Reading.Step.adds`), so at every moment a table has come to
the slots that belong to the number of its entries (`Rooms.Fits`), and in the end the slots of all tables take as many
bytes as `Automaton.footprint` says (`Rooms.Fits.bytes_eq`). The number of the entries of each table is one of the
set of prefixes of the patterns.
-/

namespace AhoCorasick

variable {config : Builder} {patterns : List Bytes} {t t' : Trie} {m n : Nat}

theorem fit_capacity (h : m ≤ n ∧ n ≤ m + 1) : fit n (capacity m) = capacity n := by
  have hroom : m ≤ capacity m := le_capacity m
  rw [fit]
  rcases Nat.eq_or_lt_of_le h.1 with rfl | hlt
  · rw [if_pos hroom]
  · obtain rfl : n = m + 1 := by omega
    rfl

/-! ## One entry at a time -/

namespace Transitions

theorem entries_empty (layout : Layout) : (empty layout).entries = 0 := by
  cases layout <;> rfl

theorem entries_set (t : Transitions) (b : UInt8) (s : StateId) :
    t.entries ≤ (t.set b s).entries ∧ (t.set b s).entries ≤ t.entries + 1 := by
  cases t with
  | dense slots => exact ⟨Nat.le_refl 0, Nat.zero_le 1⟩
  | sparse entries =>
    rw [set]
    split_ifs
    · simp [Transitions.entries]
    · simp only [Transitions.entries, List.size_toArray, List.length_insertIdx, Array.length_toList]
      split_ifs <;> omega

theorem footprint_eq_bytes (t : Transitions) : t.footprint = t.bytes (capacity t.entries) := by
  cases t <;> rfl

end Transitions

/-- No table of the second trie has fewer entries than that of the first one, or more than one more. -/
structure Trie.Adds (t t' : Trie) : Prop where
  states : t.size ≤ t'.size ∧ t'.size ≤ t.size + 1
  lengths : t.lengths.size ≤ t'.lengths.size ∧ t'.lengths.size ≤ t.lengths.size + 1
  transitions : ∀ s, t.entries s ≤ t'.entries s ∧ t'.entries s ≤ t.entries s + 1
  endings : ∀ s, (t.endings s).size ≤ (t'.endings s).size ∧ (t'.endings s).size ≤ (t.endings s).size + 1

namespace Trie

theorem adds_refl (t : Trie) : t.Adds t :=
  ⟨⟨Nat.le_refl _, Nat.le_succ _⟩, ⟨Nat.le_refl _, Nat.le_succ _⟩, fun _ => ⟨Nat.le_refl _, Nat.le_succ _⟩,
    fun _ => ⟨Nat.le_refl _, Nat.le_succ _⟩⟩

theorem adds_addNode {depth : Nat} (h : t.addNode config depth = .ok t') : t.Adds t' := by
  obtain ⟨-, rfl⟩ := addNode_eq_ok.mp h
  have hnew : ∀ s, s ≠ t.nodes.size →
      (t.nodes.push ⟨.empty config.layout, #[], depth⟩)[s]? = t.nodes[s]? := fun s hs => by
    rw [Array.getElem?_push, if_neg hs]
  refine ⟨by simp [size], ⟨Nat.le_refl _, Nat.le_succ _⟩, fun s => ?_, fun s => ?_⟩
  · by_cases hs : s = t.nodes.size
    · subst hs
      simp [entries, Transitions.entries_empty]
    · simp only [entries, hnew s hs]
      omega
  · by_cases hs : s = t.nodes.size
    · subst hs
      simp [endings]
    · simp only [endings, hnew s hs]
      omega

theorem adds_setChild (t : Trie) (s : StateId) (b : UInt8) (c : StateId) : t.Adds (t.setChild s b c) := by
  refine ⟨by simp, ⟨Nat.le_refl _, Nat.le_succ _⟩, fun i => ?_, fun i => ?_⟩
  · simp only [entries, setChild, Array.getElem?_modify]
    by_cases hi : s = i
    · cases t.nodes[i]? with
      | none => simp [hi]
      | some node => simpa [hi] using node.transitions.entries_set b c
    · simp [hi]
  · simp only [endings, setChild, Array.getElem?_modify]
    by_cases hi : s = i <;> cases t.nodes[i]? <;> simp [hi]

theorem adds_record (t : Trie) (s : StateId) (length : Nat) : t.Adds (t.record s length) := by
  refine ⟨by simp, by simp [record], fun i => ?_, fun i => ?_⟩
  · simp only [entries, record, Array.getElem?_modify]
    by_cases hi : s = i <;> cases t.nodes[i]? <;> simp [hi]
  · simp only [endings, record, Array.getElem?_modify]
    by_cases hi : s = i <;> cases t.nodes[i]? <;> simp [hi]

end Trie

theorem Reading.Step.adds {r r' : Reading} (h : Step config r r') : r.trie.Adds r'.trie := by
  cases h with
  | makeRoot hnode => exact Trie.adds_addNode hnode
  | turn | move => exact Trie.adds_refl _
  | record => exact Trie.adds_record _ _ _
  | make _ hnode => exact Trie.adds_addNode hnode
  | connect => exact Trie.adds_setChild _ _ _ _

/-! ## The slots of all tables -/

namespace Rooms

variable {rooms rooms' : Rooms} {r r' : Reading} {x : Except BuildError Trie}

/-- Every table has come to the slots that belong to the number of its entries. -/
structure Fits (rooms : Rooms) (t : Trie) : Prop where
  states : rooms.states = capacity t.size
  lengths : rooms.lengths = capacity t.lengths.size
  transitions : ∀ s, rooms.transitions s = capacity (t.entries s)
  endings : ∀ s, rooms.endings s = capacity (t.endings s).size

theorem Fits.grow (h : rooms.Fits t) (hadds : t.Adds t') : (rooms.grow t').Fits t' := by
  refine ⟨?_, ?_, fun s => ?_, fun s => ?_⟩
  · simp only [Rooms.grow, h.states, fit_capacity hadds.states]
  · simp only [Rooms.grow, h.lengths, fit_capacity hadds.lengths]
  · simp only [Rooms.grow, h.transitions, fit_capacity (hadds.transitions s)]
  · simp only [Rooms.grow, h.endings, fit_capacity (hadds.endings s)]

theorem round_eq_again_iff :
    round config (r, rooms) = .again (r', rooms') ↔ r.round config = .again r' ∧ rooms' = rooms.grow r'.trie := by
  rw [round]
  cases r.round config with
  | again r'' =>
    simp only [Round.again.injEq, Prod.mk.injEq]
    constructor
    · rintro ⟨rfl, rfl⟩
      exact ⟨rfl, rfl⟩
    · rintro ⟨rfl, rfl⟩
      exact ⟨rfl, rfl⟩
  | done x => simp

theorem round_eq_done_iff :
    round config (r, rooms) = .done (x, rooms') ↔ r.round config = .done x ∧ rooms' = rooms := by
  rw [round]
  cases r.round config with
  | again r'' => simp
  | done y => simp [eq_comm]

theorem fits_of_reaches (h : Round.Reaches (round config) (.start patterns, {}) (r, rooms)) : rooms.Fits r.trie := by
  have hstart : Fits {} (Reading.start patterns).trie := by
    refine ⟨rfl, rfl, fun s => ?_, fun s => ?_⟩
    · simp [Reading.start, Trie.entries, Trie.empty, capacity]
    · simp [Reading.start, Trie.endings, Trie.empty, capacity]
  refine h.keeps (P := fun q => q.2.Fits q.1.trie) ?_ hstart
  rintro ⟨r, rooms⟩ ⟨r', rooms'⟩ hfits hround
  obtain ⟨hreading, rfl⟩ := round_eq_again_iff.mp hround
  exact hfits.grow (Reading.step_of_round hreading).adds

theorem stops_of_stops (h : Round.Stops (Reading.round config) n r x) (rooms : Rooms) :
    ∃ rooms', Round.Stops (round config) n (r, rooms) (x, rooms') := by
  induction h generalizing rooms with
  | done hround => exact ⟨rooms, .done (round_eq_done_iff.mpr ⟨hround, rfl⟩)⟩
  | @again r r' n x hround _ ih =>
    obtain ⟨rooms', h⟩ := ih (rooms.grow r'.trie)
    exact ⟨rooms', .again (round_eq_again_iff.mpr ⟨hround, rfl⟩) h⟩

theorem Fits.bytesAt_eq (h : rooms.Fits t) {s : StateId} {node : Node} (hnode : t.nodes[s]? = some node) :
    rooms.bytesAt t s = node.footprint := by
  have hentries : t.entries s = node.transitions.entries := by rw [Trie.entries, hnode]
  have hendings : t.endings s = node.endings := by rw [Trie.endings, hnode]
  rw [Node.footprint, Transitions.footprint_eq_bytes, ← hentries, ← hendings, ← h.transitions, ← h.endings,
    bytesAt, hnode]

theorem Fits.bytes_eq {a : Automaton} (h : rooms.Fits a.trie) : rooms.bytes a.trie = a.footprint := by
  have hstates : (List.range a.trie.size).map (rooms.bytesAt a.trie) = a.trie.nodes.toList.map Node.footprint := by
    refine List.ext_getElem? fun s => ?_
    have hget : a.trie.nodes.toList[s]? = a.trie.nodes[s]? := Array.getElem?_toList
    rw [List.getElem?_map, List.getElem?_map, hget]
    rcases Nat.lt_or_ge s a.trie.size with hs | hs
    · have hnode : a.trie.nodes[s]? = some a.trie.nodes[s] := Array.getElem?_eq_getElem hs
      rw [List.getElem?_range hs, hnode, Option.map_some, Option.map_some, h.bytesAt_eq hnode]
    · rw [Array.getElem?_eq_none hs, List.getElem?_eq_none (by simpa using hs)]
      rfl
  have hsum : (List.range a.trie.size).foldl (fun n s => n + rooms.bytesAt a.trie s) 0 =
      a.trie.nodes.foldl (fun n node => n + node.footprint) 0 := by
    rw [← Array.foldl_toList, ← List.foldl_map (f := rooms.bytesAt a.trie),
      ← List.foldl_map (f := Node.footprint), hstates]
  rw [bytes, hsum, h.states, h.lengths]
  rfl

theorem exists_stops {a : Automaton} (h : config.build patterns = .ok a) :
    ∃ n rooms, Round.Stops (round config) n (.start patterns, {}) (.ok a.trie, rooms) ∧
      rooms.bytes a.trie = a.footprint := by
  obtain ⟨n, hreading⟩ := Reading.stops_start config patterns
  rw [Automaton.ofPatterns_of_build h] at hreading
  obtain ⟨rooms, hstops⟩ := stops_of_stops hreading {}
  obtain ⟨⟨r, rooms'⟩, hreaches, hdone⟩ := hstops.exists_last
  obtain ⟨hround, rfl⟩ := round_eq_done_iff.mp hdone
  have hfits := fits_of_reaches hreaches
  rw [Reading.trie_of_round_done hround] at hfits
  exact ⟨n, rooms, hstops, hfits.bytes_eq⟩

end Rooms

/-! ## The sum over the prefixes -/

/-- The words that begin a pattern, and the empty word. -/
def prefixSet (patterns : List Bytes) : Finset Bytes := insert [] (patterns.flatMap List.inits).toFinset

theorem prefixSet_eq (patterns : List Bytes) : prefixSet patterns = (prefixes patterns).toFinset := by
  ext w
  simp only [prefixSet, Finset.mem_insert, List.mem_toFinset, List.mem_flatMap, List.mem_inits, mem_prefixes]

/-- The bytes that lead from a word to a longer one. -/
def nextBytes (words : Finset Bytes) (w : Bytes) : Finset UInt8 := {b | w ++ [b] ∈ words}

theorem length_branches (labels : List Bytes) (w : Bytes) :
    (Trie.branches labels w).length = (nextBytes labels.toFinset w).card := by
  rw [← List.toFinset_card_of_nodup (Trie.nodup_branches labels w)]
  congr 1
  ext b
  simp [Trie.mem_branches, nextBytes]

theorem wordFootprint_eq (layout : Layout) (labels patterns : List Bytes) :
    Trie.wordFootprint layout labels patterns = fun w =>
      (if layout = .dense then 1024 else 8 * roundedUp (nextBytes labels.toFinset w).card) +
        16 * roundedUp (patterns.count w) := by
  funext w
  rw [Trie.wordFootprint, capacity_eq_roundedUp, capacity_eq_roundedUp, length_branches]

namespace Automaton

variable {a : Automaton}

/-! ## Main result -/

/-- **The footprint follows from the patterns.** The slots that the tables have come to while the patterns were read
take as many bytes as the footprint says, and this is a sum over the prefixes of the patterns. -/
theorem footprint_eq_sum (h : config.build patterns = .ok a) :
    (∃ n rooms, Round.Stops (Rooms.round config) n (.start patterns, {}) (.ok a.trie, rooms) ∧
      rooms.bytes a.trie = a.footprint) ∧
    a.footprint = 72 * roundedUp (prefixSet patterns).card + 8 * roundedUp patterns.length +
      ∑ w ∈ prefixSet patterns,
        ((if config.layout = .dense then 1024 else 8 * roundedUp (nextBytes (prefixSet patterns) w).card) +
          16 * roundedUp (patterns.count w)) := by
  have hnodup : (prefixes patterns).Nodup := nodup_eraseDups _
  refine ⟨Rooms.exists_stops h, ?_⟩
  rw [footprint_of_build h, prefixSet_eq, List.toFinset_card_of_nodup hnodup, List.sum_toFinset _ hnodup,
    capacity_eq_roundedUp, capacity_eq_roundedUp, wordFootprint_eq]

theorem footprint_eq_sum_ab :
    ∃ a, ({} : Builder).build [[97, 98], [98], [], [98]] = .ok a ∧
      (∃ n rooms, Round.Stops (Rooms.round {}) n (.start [[97, 98], [98], [], [98]], {}) (.ok a.trie, rooms) ∧
        rooms.bytes a.trie = a.footprint) ∧ a.footprint = 576 := by
  obtain ⟨hrooms, hsum⟩ := footprint_eq_sum (show ({} : Builder).build [[97, 98], [98], [], [98]] = .ok _ from rfl)
  exact ⟨_, rfl, hrooms, hsum.trans (by decide)⟩

end Automaton

end AhoCorasick
