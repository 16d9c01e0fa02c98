import AhoCorasick.Proofs.Footprint
import AhoCorasick.Proofs.Refusal
import AhoCorasick.Proofs.Sessions

/-!
# The order of the patterns

Patterns in another order have the same prefixes, in another order (`prefixes_perm`), and every word is a pattern as
often as before. The number of states and the footprint depend on nothing else, and neither do the places of the
occurrences, one for each pattern that is equal to the word there (`map_span_occurrencesAt`). Only the names change:
the id of an occurrence is the new position of its pattern (`idsAt_reordered`).
-/

namespace AhoCorasick

/-- The offset of the first byte of a match and the one behind its last. -/
def Match.span (m : Match) : Nat × Nat := (m.start, m.stop)

/-- The ids of the matches at one place, of `n` patterns. -/
def idsAt (n : Nat) (ms : List Match) (span : Nat × Nat) : Set (Fin n) :=
  {i | ∃ m ∈ ms, m.pattern = i ∧ m.span = span}

/-- The patterns in another order. The one that was at position `σ i` comes to position `i`. -/
def reordered (patterns : List Bytes) (σ : Equiv.Perm (Fin patterns.length)) : List Bytes :=
  List.ofFn fun i => patterns[σ i]

variable {config : Builder} {patterns patterns' : List Bytes} {a b : Automaton}

/-! ## Patterns in any order -/

theorem nodup_prefixes (patterns : List Bytes) : (prefixes patterns).Nodup := nodup_eraseDups _

theorem prefixes_perm (h : patterns.Perm patterns') : (prefixes patterns).Perm (prefixes patterns') := by
  refine (List.perm_ext_iff_of_nodup (nodup_prefixes _) (nodup_prefixes _)).mpr fun w => ?_
  simp only [mem_prefixes, h.mem_iff]

theorem wordFootprint_perm (layout : Layout) (h : patterns.Perm patterns') :
    Trie.wordFootprint layout (prefixes patterns) patterns =
      Trie.wordFootprint layout (prefixes patterns') patterns' := by
  funext w
  simp only [Trie.wordFootprint, Trie.branches, (prefixes_perm h).mem_iff, h.count_eq]

theorem footprint_perm (h : patterns.Perm patterns') (ha : config.build patterns = .ok a)
    (hb : config.build patterns' = .ok b) : a.footprint = b.footprint := by
  rw [Automaton.footprint_of_build ha, Automaton.footprint_of_build hb, (prefixes_perm h).length_eq, h.length_eq,
    wordFootprint_perm config.layout h, ((prefixes_perm h).map _).sum_eq]

theorem map_span_occurrencesAt (patterns : List Bytes) (text : Bytes) (stop : Nat) :
    (occurrencesAt patterns text stop).map Match.span = (List.range' 1 stop).reverse.flatMap fun length =>
      List.replicate (patterns.count ((text.take stop).drop (stop - length))) (stop - length, stop) := by
  rw [occurrencesAt, List.map_flatMap]
  refine List.flatMap_congr fun length _ => ?_
  rw [List.map_map, ← length_idsOf, ← List.map_const']
  rfl

theorem map_span_occurrences_perm (h : patterns.Perm patterns') (text : Bytes) :
    (occurrences patterns text).map Match.span = (occurrences patterns' text).map Match.span := by
  simp only [occurrences, List.map_flatMap, map_span_occurrencesAt, h.count_eq]

/-! ## Names -/

variable (σ : Equiv.Perm (Fin patterns.length))

theorem length_reordered : (reordered patterns σ).length = patterns.length := List.length_ofFn

theorem getElem?_reordered (i : Fin patterns.length) :
    (reordered patterns σ)[(i : Nat)]? = patterns[(σ i : Nat)]? := by
  simp [reordered]

example : reordered [[97], [98], [99]] (finRotate 3) = [[98], [99], [97]] := rfl

theorem reordered_perm : (reordered patterns σ).Perm patterns := by
  have hself : (List.ofFn fun i : Fin patterns.length => patterns[i]) = patterns := List.ofFn_getElem
  have hperm := σ.ofFn_comp_perm fun i : Fin patterns.length => patterns[i]
  rw [hself] at hperm
  exact hperm

theorem mem_occurrences_reordered (text : Bytes) (i : Fin patterns.length) (length stop : Nat) :
    ⟨i, length, stop⟩ ∈ occurrences (reordered patterns σ) text ↔
      ⟨σ i, length, stop⟩ ∈ occurrences patterns text := by
  rw [mem_occurrences, mem_occurrences, getElem?_reordered]

theorem idsAt_reordered (text : Bytes) (span : Nat × Nat) :
    idsAt patterns.length (occurrences patterns text) span =
      σ '' idsAt patterns.length (occurrences (reordered patterns σ) text) span := by
  ext i
  constructor
  · rintro ⟨⟨j, length, stop⟩, hm, rfl : j = i, hspan⟩
    refine ⟨σ.symm i, ⟨⟨σ.symm i, length, stop⟩, ?_, rfl, hspan⟩, σ.apply_symm_apply i⟩
    rw [mem_occurrences_reordered, σ.apply_symm_apply]
    exact hm
  · rintro ⟨j, ⟨⟨k, length, stop⟩, hm, rfl : k = j, hspan⟩, rfl⟩
    exact ⟨⟨σ j, length, stop⟩, (mem_occurrences_reordered σ text j length stop).mp hm, rfl, hspan⟩

/-! ## Main result -/

namespace Builder

/-- **Patterns in another order make no difference but for the ids.** The build is refused alike, or the automata have
the same number of states and the same footprint, and every search finds the same places, each with the new positions
of the patterns that were found there. -/
theorem build_reordered (config : Builder) (patterns : List Bytes) (σ : Equiv.Perm (Fin patterns.length)) :
    (∃ e, config.build patterns = .error e ∧ config.build (reordered patterns σ) = .error e) ∨
    ∃ a b, config.build patterns = .ok a ∧ config.build (reordered patterns σ) = .ok b ∧
      a.size = b.size ∧ a.footprint = b.footprint ∧
      ∀ h, a.isMatch h = b.isMatch h ∧ (a.search h).length = (b.search h).length ∧
        (a.search h).map Match.span = (b.search h).map Match.span ∧
        (∀ m ∈ a.search h ++ b.search h, m.pattern < patterns.length) ∧
        ∀ span, idsAt patterns.length (a.search h) span = σ '' idsAt patterns.length (b.search h) span := by
  have hperm := reordered_perm σ
  have hgrows := grows_build config (reordered patterns σ)
  rw [(prefixes_perm hperm).length_eq] at hgrows
  rcases (grows_build config patterns).agree hgrows rfl with hrefused | ⟨a, b, ha, hb⟩
  · exact Or.inl hrefused
  · have hra := Automaton.recognizes_of_build ha
    have hrb := Automaton.recognizes_of_build hb
    have hsize : a.size = b.size :=
      hra.holds.size_eq.trans ((prefixes_perm hperm).length_eq.symm.trans hrb.holds.size_eq.symm)
    refine Or.inr ⟨a, b, ha, hb, hsize, footprint_perm hperm.symm ha hb, fun h => ?_⟩
    have hspans : (a.search h).map Match.span = (b.search h).map Match.span := by
      rw [hra.search_eq, hrb.search_eq, map_span_occurrences_perm hperm.symm]
    have hlength : (a.search h).length = (b.search h).length := by
      simpa using congrArg List.length hspans
    have hmatch : a.isMatch h = b.isMatch h := by
      rw [hra.isMatch_eq, hrb.isMatch_eq, ← List.isEmpty_map (f := Match.span), hspans, List.isEmpty_map]
    refine ⟨hmatch, hlength, hspans, fun m hm => ?_, fun span => ?_⟩
    · rcases List.mem_append.mp hm with hm | hm
      · exact (hra.mem_search hm).1
      · exact length_reordered σ ▸ (hrb.mem_search hm).1
    · rw [hra.search_eq, hrb.search_eq, idsAt_reordered σ]

end Builder

end AhoCorasick
